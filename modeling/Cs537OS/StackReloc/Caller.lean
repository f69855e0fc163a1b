import Cs537OS.StackReloc.Contents
import Cs537OS.StackReloc.Copy

/-!
# The arguments in the memory of the caller

The argument strings of `exec` are in user memory of its caller (`ArgsAt`), and `exec` reads them
when the segments are in memory. What it takes from the allocator is none of the pages of the
caller, so the strings are still there as long as the segments are written to such pages only. They
are when their data lies in user memory (`InUser`); an address from `USERTOP` on is that of a
physical page, whoever uses it.

* `loadProgram_frame` — loading a program with its data in user memory leaves the pages of the
  caller alone;
* `pushStack_fst` — the pushes find the strings, and go by their lengths;
* `exec_agree` — so the two accounts of `exec`, with and without contents, agree.
-/

open Xv6 Paging Agreement

namespace StackReloc

/-- The page is no user page of the process. -/
def Elf.Task.Foreign (t : Elf.Task) (pa : ℕ) : Prop := ∀ n, t.pgdir.user n ≠ some pa

/-- The data of the segments that are loaded lies in user memory. -/
def Elf.File.InUser (f : Elf.File) : Prop :=
  ∀ ph, some ph ∈ f.phdrs → ph.type = Elf.ELF_PROG_LOAD →
    ph.filesz = 0 ∨ ph.va + ph.filesz ≤ USERTOP

/-! ### What the allocator does to other pages -/

variable {pa : ℕ}

namespace Space

variable {s : Space} {oldsz newsz : ℕ} {x : ℕ × Space}

/-- `deallocuvm` writes to the pages that it frees. -/
theorem deallocuvm_frame (hpa : ∀ k, s.pte k ≠ some pa) (h : s.deallocuvm oldsz newsz = .ok x) :
    x.2.ram.mem pa = s.ram.mem pa := by
  rw [deallocuvm] at h
  split_ifs at h
  · cases h
    rfl
  obtain ⟨s', hs', h⟩ := GuardedLoop.bind_eq_ok_iff.1 h
  cases h
  refine (GuardedLoop.foldlM_preserves (f := deallocPage)
    (I := fun s' ↦ s'.ram.mem pa = s.ram.mem pa ∧ ∀ k, s'.pte k ≠ some pa) ?_ ⟨rfl, hpa⟩ hs').1
  rintro s a s' ⟨hmem, hpte⟩ hstep
  have hlose := deallocPage_pte hstep
  refine ⟨?_, fun k hk ↦ ?_⟩
  · rw [deallocPage] at hstep
    rcases hentry : s.pte (a / PGSIZE) with - | v
    · rw [hentry] at hstep
      cases hstep
      exact hmem
    · rw [hentry] at hstep
      obtain ⟨-, hstep⟩ := GuardedLoop.guard_eq_ok_iff.1 hstep
      cases hstep
      refine (Function.update_of_ne ?_ ..).trans hmem
      rintro rfl
      exact hpte _ hentry
  · rw [hlose] at hk
    rcases eq_or_ne k (a / PGSIZE) with rfl | hne
    · rw [Function.update_self] at hk
      cases hk
    · rw [Function.update_of_ne hne] at hk
      exact hpte k hk

theorem allocPages_frame {as : List ℕ} (has : ∀ a ∈ as, PGSIZE ∣ a) (hs : s.vm.All (· ≠ pa))
    (h : s.allocPages oldsz newsz as = .ok x) : x.2.ram.mem pa = s.ram.mem pa := by
  induction as generalizing s with
  | nil =>
    cases h
    rfl
  | cons a as ih =>
    obtain ⟨halign, has⟩ := List.forall_mem_cons.1 has
    obtain ⟨pte, freelist, mem⟩ := s
    rcases freelist with - | ⟨v, next⟩
    · obtain ⟨x', hde, h⟩ := GuardedLoop.bind_eq_ok_iff.1 h
      have hmem := deallocuvm_frame (fun k hk ↦ hs.mapped k pa hk rfl) hde
      cases h
      exact hmem
    · obtain ⟨s', hmap, h⟩ := GuardedLoop.bind_eq_ok_iff.1 h
      rw [mappages_eq halign, mapPage] at hmap
      obtain ⟨-, hmap⟩ := GuardedLoop.guard_eq_ok_iff.1 hmap
      cases hmap
      obtain ⟨hv, hnext⟩ := List.forall_mem_cons.1 hs.free
      have hs' : Vm.All (· ≠ pa) ⟨pte, next⟩ := ⟨hnext, hs.mapped⟩
      have hmapped : Vm.All (· ≠ pa) ⟨Function.update pte (a / PGSIZE) (some v), next⟩ :=
        hs'.update (a / PGSIZE) fun pa' hpa' ↦ Option.some.inj hpa' ▸ hv
      refine (ih has ?_ h).trans (Function.update_of_ne (Ne.symm hv) ..)
      exact hmapped

/-- **`allocuvm` writes to pages of the allocator and of the new address space** only. -/
theorem allocuvm_frame (hs : s.vm.All (· ≠ pa)) (h : s.allocuvm oldsz newsz = .ok x) :
    x.2.ram.mem pa = s.ram.mem pa := by
  rw [allocuvm] at h
  split_ifs at h
  · cases h
    rfl
  · cases h
    rfl
  · refine allocPages_frame (fun a ha ↦ ?_) hs h
    obtain ⟨i, rfl, -⟩ := Vm.mem_pages.1 ha
    exact Nat.dvd_add (Vm.dvd_PGROUNDUP oldsz) (Nat.dvd_mul_left _ _)

theorem all_allocuvm {P : ℕ → Prop} (hs : s.vm.All P) (h : s.allocuvm oldsz newsz = .ok x) :
    x.2.vm.All P := by
  obtain ⟨x', hx', -, hvm⟩ := (s.allocuvm_agree oldsz newsz).exists_of_ok h
  rw [hvm]
  exact hs.allocuvm hx'

end Space

/-- `freevm` writes to the pages that it frees, and to no other. -/
theorem freevm_frame {d : Elf.Pgdir} {r r' : Ram} (h : freevm d r = .ok r') (hpa : ¬ d.Has pa) :
    r'.mem pa = r.mem pa := by
  obtain ⟨hdir, htables, huser⟩ : pa ≠ d.dir ∧ pa ∉ d.tables ∧ ∀ k, d.user k ≠ some pa :=
    ⟨fun h ↦ hpa (.inl h), fun h ↦ hpa (.inr (.inl h)), fun k h ↦ hpa (.inr (.inr ⟨k, h⟩))⟩
  have htablesFrame : ∀ (r : Ram), (d.tables.foldl Ram.kfree r).mem pa = r.mem pa := fun r ↦ by
    generalize d.tables = tables at htables
    induction tables generalizing r with
    | nil => rfl
    | cons v vs ih =>
      obtain ⟨hne, hvs⟩ := not_or.1 (mt List.mem_cons.2 htables)
      exact (ih (r.kfree v) hvs).trans (Function.update_of_ne hne ..)
  rw [freevm] at h
  obtain ⟨s, hs, h⟩ := GuardedLoop.bind_eq_ok_iff.1 h
  cases h
  have hloop : s.2.ram.mem pa = r.mem pa := Space.deallocuvm_frame huser hs
  exact (Function.update_of_ne hdir ..).trans ((htablesFrame _).trans hloop)

namespace Contents

open Elf (Task File Pgdir Stop liftPanic)

variable {t : Task} {f : File} {r : Ram} {pte : ℕ → Option ℕ} {mem mem' : ℕ → Page}
  {ptrs : List ℕ} {argv : List (List UInt8)} {a : ℕ} {s : List UInt8}

/-! ### Loading a program -/

/-- In user memory there is an entry for every address. -/
theorem walkpgdir_of_lt {m : Vm} (ha : a < USERTOP) :
    Elf.walkpgdir m a = some ((m.pte (a / PGSIZE)).getD 0) := by
  have hzero : Elf.PDX a = 0 := by
    unfold USERTOP at ha
    rw [Elf.PDX]
    omega
  rw [Elf.walkpgdir, hzero, if_neg (by decide), if_pos ha]

/-- A page of a segment is read to a page of the new address space. Where there is none the address
is 0, at which the caller has no page either. -/
theorem store_frame {m : Vm} (hm : m.All fun pa' ↦ Elf.Frame pa' ∧ pa' ≠ pa)
    (hnull : t.pgdir.user 0 = none) {k off : ℕ} {n : ℤ}
    (h : store t f ((m.pte k).getD 0) off n mem = .ok mem') : mem' pa = mem pa := by
  rw [store] at h
  split_ifs at h
  · cases h
    rfl
  rcases hentry : m.pte k with - | pa'
  · have hphys : Elf.physical t 0 = none := (if_pos (by decide)).trans hnull
    rw [hentry, Option.getD_none, hphys] at h
    cases h
  · obtain ⟨hframe, hne⟩ := hm.mapped _ pa' hentry
    rw [hentry, Option.getD_some, Elf.physical_of_frame hframe] at h
    cases h
    exact poke_of_ne (Ne.symm hne)

theorem loadPages_frame {m : Vm} (hm : m.All fun pa' ↦ Elf.Frame pa' ∧ pa' ≠ pa)
    (hnull : t.pgdir.user 0 = none) {addr offset sz : ℕ} (hdata : addr + sz ≤ USERTOP)
    {is : List ℕ} (his : ∀ i ∈ is, i < sz) {x : ℤ × (ℕ → Page)}
    (h : loadPages t f m addr offset sz is mem = .ok x) : x.2 pa = mem pa := by
  induction is generalizing mem with
  | nil =>
    cases h
    rfl
  | cons i is ih =>
    obtain ⟨hi, his⟩ := List.forall_mem_cons.1 his
    have haddr : uint ((addr : ℤ) + i) = addr + i := uint_add (lt_of_le_USERTOP (by omega))
    rw [loadPages, haddr, walkpgdir_of_lt (by omega)] at h
    obtain ⟨mem', hstore, h⟩ := GuardedLoop.bind_eq_ok_iff.1 h
    have hmem : mem' pa = mem pa := store_frame hm hnull hstore
    generalize (if sz - i < PGSIZE then sz - i else PGSIZE) = n at h
    split_ifs at h
    · cases h
      exact hmem
    · exact (ih his h).trans hmem

/-- **The loop over the program headers** leaves a page alone that is neither free nor mapped when
the data of the segments lies in user memory. -/
theorem loadProgram_frame (hnull : t.pgdir.user 0 = none) {phs : List (Option Elf.Proghdr)}
    (hdata : ∀ ph, some ph ∈ phs → ph.type = Elf.ELF_PROG_LOAD →
      ph.filesz = 0 ∨ ph.va + ph.filesz ≤ USERTOP)
    {sz : ℕ} {s : Space} {l : Loaded} (hs : s.vm.All fun pa' ↦ Elf.Frame pa' ∧ pa' ≠ pa)
    (h : loadProgram t f phs sz s = .ok l) :
    (l.space.vm.All fun pa' ↦ Elf.Frame pa' ∧ pa' ≠ pa) ∧
      l.space.ram.mem pa = s.ram.mem pa := by
  induction phs generalizing sz s with
  | nil =>
    cases h
    exact ⟨hs, rfl⟩
  | cons oph phs ih =>
    rcases oph with - | ph
    · cases h
      exact ⟨hs, rfl⟩
    have hrest := fun ph' hph' ↦ hdata ph' (List.mem_cons_of_mem _ hph')
    rw [loadProgram] at h
    split_ifs at h with htype hmem
    · exact ih hrest hs h
    · cases h
      exact ⟨hs, rfl⟩
    obtain ⟨x, hx, h⟩ := GuardedLoop.bind_eq_ok_iff.1 h
    rw [Elf.liftPanic_eq_ok_iff] at hx
    have hall := Space.all_allocuvm hs hx
    have hsame : x.2.ram.mem pa = s.ram.mem pa :=
      Space.allocuvm_frame ⟨fun pa' hpa' ↦ (hs.free pa' hpa').2,
        fun n pa' hpa' ↦ (hs.mapped n pa' hpa').2⟩ hx
    split_ifs at h
    · cases h
      exact ⟨hall, hsame⟩
    obtain ⟨y, hy, h⟩ := GuardedLoop.bind_eq_ok_iff.1 h
    have hload : y.2.vm = x.2.vm ∧ y.2.ram.mem pa = x.2.ram.mem pa := by
      rw [loaduvm] at hy
      obtain ⟨-, hy⟩ := GuardedLoop.guard_eq_ok_iff.1 hy
      obtain ⟨z, hz, hy⟩ := GuardedLoop.bind_eq_ok_iff.1 hy
      cases hy
      refine ⟨rfl, ?_⟩
      rcases hdata ph List.mem_cons_self (not_not.1 htype) with hzero | htop
      · rw [hzero] at hz
        cases hz
        rfl
      · refine loadPages_frame hall hnull htop (fun i hi ↦ ?_) hz
        obtain ⟨j, rfl, hlt⟩ := Vm.mem_pages.1 hi
        exact hlt
    obtain ⟨hvm, hload⟩ := hload
    split_ifs at h
    · cases h
      exact ⟨hvm ▸ hall, hload.trans hsame⟩
    · obtain ⟨hl, hrun⟩ := ih hrest (hvm ▸ hall) h
      exact ⟨hl, hrun.trans (hload.trans hsame)⟩

/-- The pages of the caller are neither free nor in the new address space, and keep their
contents. -/
theorem loadProgram_frame_caller (hwf : Elf.WellFormed t r.freelist) (hfree : Unused t.pgdir r)
    (hdata : f.InUser) {rest : List ℕ} (hrest : ∀ pa ∈ rest, pa ∈ r.freelist) {sz : ℕ} {l : Loaded}
    (h : loadProgram t f f.phdrs sz ⟨fun _ ↦ none, { r with freelist := rest }⟩ = .ok l) (n pa : ℕ)
    (hpa : t.pgdir.user n = some pa) :
    l.space.vm.All (· ≠ pa) ∧ l.space.ram.mem pa = r.mem pa := by
  have hall : Vm.All (fun pa' ↦ Elf.Frame pa' ∧ pa' ≠ pa)
      (Space.vm ⟨fun _ ↦ none, { r with freelist := rest }⟩) := by
    refine ⟨fun pa' hpa' ↦ ⟨hwf.free pa' (hrest pa' hpa'), ?_⟩, fun _ _ h ↦ (by cases h)⟩
    rintro rfl
    exact hfree.unused pa' (hrest pa' hpa') (.inr (.inr ⟨n, hpa⟩))
  obtain ⟨hl, hmem⟩ := loadProgram_frame hwf.null hdata hall h
  exact ⟨⟨fun pa' hpa' ↦ (hl.free pa' hpa').2, fun k pa' hpa' ↦ (hl.mapped k pa' hpa').2⟩, hmem⟩

/-! ### The strings -/

/-- The string `s` is at `a`, with a NUL behind it. -/
def StringAt (v : ℕ → Option UInt8) (a : ℕ) (s : List UInt8) : Prop :=
  ∀ i, ∀ h : i < (s ++ [0]).length, v (a + i) = some (s ++ [0])[i]

/-- An argument string in user memory of the caller, up to its NUL. -/
structure ArgAt (t : Task) (mem : ℕ → Page) (a : ℕ) (s : List UInt8) : Prop where
  end_lt : a + s.length < USERTOP
  noNul : 0 ∉ s
  string : StringAt (view PGSIZE t.pgdir.user mem) a s

/-- The arguments `argv` are at the addresses `ptrs` in user memory of the caller. -/
def ArgsAt (t : Task) (mem : ℕ → Page) (ptrs : List ℕ) (argv : List (List UInt8)) : Prop :=
  List.Forall₂ (ArgAt t mem) ptrs argv

/-- What the user pages of the process hold is all that counts. -/
theorem ArgsAt.congr (h : ArgsAt t mem ptrs argv)
    (hmem : ∀ n pa, t.pgdir.user n = some pa → mem' pa = mem pa) : ArgsAt t mem' ptrs argv := by
  have hview : view PGSIZE t.pgdir.user mem' = view PGSIZE t.pgdir.user mem :=
    funext fun a ↦ view_congr fun pa hpa ↦ hmem _ pa hpa
  refine List.Forall₂.imp (fun a s ha ↦ ⟨ha.end_lt, ha.noNul, ?_⟩) h
  rw [hview]
  exact ha.string

theorem ArgAt.head {b : UInt8} (h : ArgAt t mem a (b :: s)) :
    b ≠ 0 ∧ ArgAt t mem (a + 1) s := by
  obtain ⟨hend, hnul, hstring⟩ := h
  rw [List.length_cons] at hend
  refine ⟨fun hb ↦ hnul (hb ▸ List.mem_cons_self), by omega,
    fun h0 ↦ hnul (List.mem_cons_of_mem b h0), fun i hi ↦ ?_⟩
  rw [Nat.add_assoc, Nat.add_comm 1 i]
  exact hstring (i + 1) (Nat.succ_lt_succ hi)

/-- **The string is read** as it is in user memory. -/
theorem ArgAt.cstring_eq (h : ArgAt t mem a s) {n : ℕ} (hn : s.length < n) :
    cstring t mem n a = .ok s := by
  induction s generalizing a n with
  | nil =>
    obtain ⟨n, rfl⟩ := Nat.exists_eq_succ_of_ne_zero (Nat.ne_zero_of_lt hn)
    have hbyte : view PGSIZE t.pgdir.user mem a = some 0 := h.string 0 Nat.one_pos
    obtain ⟨page, hpage, hzero⟩ := Option.map_eq_some_iff.1 hbyte
    have hphys : Elf.physical t a = some page := (if_pos h.end_lt).trans hpage
    rw [cstring, hphys]
    exact if_pos hzero
  | cons b s ih =>
    obtain ⟨n, rfl⟩ := Nat.exists_eq_succ_of_ne_zero (Nat.ne_zero_of_lt hn)
    have hend : a + (b :: s).length < USERTOP := h.end_lt
    rw [List.length_cons] at hend hn
    have hbyte : view PGSIZE t.pgdir.user mem a = some b := h.string 0 (Nat.succ_pos _)
    obtain ⟨page, hpage, hb⟩ := Option.map_eq_some_iff.1 hbyte
    have hphys : Elf.physical t a = some page := (if_pos (by omega)).trans hpage
    obtain ⟨hne, htail⟩ := h.head
    have hnext : uint ((a : ℤ) + 1) = a + 1 := uint_natCast (x := a + 1)
      (lt_of_le_USERTOP (by omega))
    rw [cstring, hphys]
    dsimp only
    rw [hb, if_neg hne, hnext, ih htail (Nat.lt_of_succ_lt_succ hn)]
    rfl

theorem ArgAt.length_lt (h : ArgAt t mem a s) : s.length < USERTOP :=
  (Nat.le_add_left _ _).trans_lt h.end_lt

theorem ArgAt.cstring_eq_ok (h : ArgAt t mem a s) : cstring t mem (2 ^ 32) a = .ok s :=
  h.cstring_eq (lt_of_le_USERTOP h.length_lt.le)

theorem ArgsAt.length_lt (h : ArgsAt t mem ptrs argv) : ∀ s ∈ argv, s.length < USERTOP := by
  induction h with
  | nil => exact fun s hs ↦ absurd hs List.not_mem_nil
  | cons ha _ ih => exact List.forall_mem_cons.2 ⟨ha.length_lt, ih⟩

/-! ### The pushes -/

/-- A push onto new pages leaves the strings alone. -/
theorem ArgsAt.copyout (h : ArgsAt t mem ptrs argv) (hpte : ∀ k pa, pte k = some pa → t.Foreign pa)
    (va : ℕ) (buf : List UInt8) : ArgsAt t (copyout pte va buf mem).2 ptrs argv :=
  h.congr fun n pa hpa ↦ copyout_frame fun k hk ↦ hpte k pa hk n hpa

theorem pushArgs_fst (hpte : ∀ k pa, pte k = some pa → t.Foreign pa) (freelist : List ℕ)
    (hargs : ArgsAt t mem ptrs argv) (ustack : List ℕ) (sp : ℕ) :
    ∃ r, pushArgs t pte ptrs ustack sp mem = .ok r ∧
      r.1.map (fun x ↦ (x.1.length, x.2)) =
        Elf.pushArgs ⟨pte, freelist⟩ (argv.map List.length) ustack.length sp := by
  induction argv generalizing ptrs ustack sp mem with
  | nil =>
    cases hargs
    exact ⟨_, rfl, rfl⟩
  | cons s argv ih =>
    cases hargs with
    | cons ha hargs =>
    rw [pushArgs, List.map_cons, Elf.pushArgs]
    rcases Nat.lt_or_ge ustack.length Elf.MAXARG with hargc | hargc
    · have hva : uint ((sp : ℤ) - (s.length + 1)) / 4 * 4 < 2 ^ 32 :=
        (Nat.div_mul_le_self _ 4).trans_lt (uint_lt _)
      have hcopy := copyout_fst pte freelist hva (s ++ [0]) mem
      rw [List.length_append, List.length_singleton] at hcopy
      have hrest := ih (ArgsAt.copyout hargs hpte (uint ((sp : ℤ) - (s.length + 1)) / 4 * 4)
        (s ++ [0])) (ustack ++ [uint ((sp : ℤ) - (s.length + 1)) / 4 * 4])
        (uint ((sp : ℤ) - (s.length + 1)) / 4 * 4)
      rw [List.length_append, List.length_singleton] at hrest
      rw [if_neg (Nat.not_le.2 hargc), if_neg (Nat.not_le.2 hargc), ha.cstring_eq_ok]
      dsimp only [bind, Except.bind]
      rw [← hcopy]
      split_ifs with hok
      · exact hrest
      · exact ⟨_, rfl, rfl⟩
    · rw [if_pos hargc, if_pos hargc]
      exact ⟨_, rfl, rfl⟩

/-- **The pushes succeed or fail by the lengths of the strings.** -/
theorem pushStack_fst (hpte : ∀ k pa, pte k = some pa → t.Foreign pa) (freelist : List ℕ)
    (hargs : ArgsAt t mem ptrs argv) (stackaddr : ℕ) :
    ∃ c, pushStack t pte ptrs stackaddr mem = .ok c ∧
      c.1 = Elf.pushStack ⟨pte, freelist⟩ (argv.map List.length) stackaddr := by
  obtain ⟨⟨r, mem'⟩, hpush, hr⟩ := pushArgs_fst hpte freelist hargs [] stackaddr
  rw [List.length_nil] at hr
  rw [pushStack, Elf.pushStack, hpush, ← hr]
  rcases r with - | ⟨ustack, sp⟩
  · exact ⟨_, rfl, rfl⟩
  · exact ⟨_, rfl, pushFrame_fst pte freelist ustack sp mem'⟩

/-! ### The whole of `exec` -/

/-- The results of `exec` with and without contents. -/
structure SameOutcome (o : Outcome) (o' : Elf.Outcome) : Prop where
  ret : o.ret = o'.ret
  task : o.task = o'.task
  free : o.ram.freelist = o'.freelist

theorem bad_agree (d : Pgdir) (s : Space) : Agree SameOutcome (bad t d s) (Elf.bad t d s.vm) :=
  (liftPanic_agree (freevm_agree { d with user := s.pte } s.ram)).bind
    fun _ _ hfree ↦ .ok ⟨rfl, rfl, hfree⟩

/-- A page of the stack is not one of the caller either. -/
theorem argsAt_allocuvm {s : Space} {oldsz newsz : ℕ} {x : ℕ × Space} (hs : s.vm.All t.Foreign)
    (hargs : ArgsAt t s.ram.mem ptrs argv) (hx : s.allocuvm oldsz newsz = .ok x) :
    ArgsAt t x.2.ram.mem ptrs argv := by
  refine hargs.congr fun n pa hpa ↦ Space.allocuvm_frame ⟨fun pa' hpa' heq ↦ ?_,
    fun k pa' hpa' heq ↦ ?_⟩ hx
  · exact hs.free pa' hpa' n (heq ▸ hpa)
  · exact hs.mapped k pa' hpa' n (heq ▸ hpa)

theorem runLoaded_agree (d : Pgdir) (entry sz : ℕ) {s : Space} (hs : s.vm.All t.Foreign)
    (hargs : ArgsAt t s.ram.mem ptrs argv) :
    Agree SameOutcome (runLoaded t d entry sz ptrs s)
      (Elf.runLoaded t d entry sz (argv.map List.length) s.vm) := by
  refine (liftPanic_agree (s.allocuvm_agree (USERTOP - PGSIZE) USERTOP)).with_eq.bind ?_
  rintro ⟨newsz, s'⟩ ⟨-, -⟩ ⟨⟨rfl, rfl⟩, hx, -⟩
  rw [Elf.liftPanic_eq_ok_iff] at hx
  refine .ite Iff.rfl (fun _ ↦ .error _) fun _ ↦ ?_
  obtain ⟨⟨sp, mem'⟩, hpush, hsp⟩ := pushStack_fst (Space.all_allocuvm hs hx).mapped
    s'.ram.freelist (argsAt_allocuvm hs hargs hx) newsz
  change pushStack t s'.pte ptrs newsz s'.ram.mem = _ at hpush
  change sp = Elf.pushStack s'.vm _ newsz at hsp
  dsimp only [Space.pte]
  rw [hpush, ← hsp]
  rcases sp with - | sp
  · exact bad_agree d { s' with ram := { s'.ram with mem := mem' } }
  · exact (liftPanic_agree (freevm_agree t.pgdir { s'.ram with mem := mem' })).bind
      fun _ _ hfree ↦ .ok ⟨rfl, rfl, hfree⟩

/-- **The two accounts of `exec` agree**, for a program with its data in user memory. -/
theorem exec_agree (hwf : Elf.WellFormed t r.freelist) (hfree : Unused t.pgdir r)
    {file : Option File} (hdata : ∀ f, file = some f → f.InUser)
    (hargs : ArgsAt t r.mem ptrs argv) :
    Agree SameOutcome (exec t r file ptrs)
      (Elf.exec t r.freelist file (argv.map List.length)) := by
  rcases file with - | f
  · exact .ok ⟨rfl, rfl, rfl⟩
  rw [exec, Elf.exec]
  refine .ite Iff.rfl (fun _ ↦ .ok ⟨rfl, rfl, rfl⟩) fun _ ↦
    .ite Iff.rfl (fun _ ↦ .ok ⟨rfl, rfl, rfl⟩) fun _ ↦ ?_
  rcases Nat.lt_or_ge r.freelist.length Elf.kvmPages with hfew | hkvm
  · rw [setupkvm_of_lt hfew, Elf.setupkvm_of_lt hfew]
    exact .ok ⟨rfl, rfl, rfl⟩
  · obtain ⟨dir, tables, rest, hlist, hsetup⟩ := setupkvm_of_le hkvm
    obtain ⟨d, hd⟩ := Elf.setupkvm_of_le hkvm
    have hsame : setupkvm r =
        (some d, { r with freelist := (Elf.image (r.freelist.drop Elf.kvmPages) 0).freelist }) := by
      rw [setupkvm, hd]
    rw [hsetup] at hsame
    obtain ⟨hdir, hram⟩ := Prod.mk.inj hsame
    obtain rfl := Option.some.inj hdir
    have hrest : rest = r.freelist.drop Elf.kvmPages := congrArg Ram.freelist hram
    rw [hsetup, hd, image_zero, ← hrest]
    have hload := (loadProgram_agree (t := t) (f := f) f.phdrs (2 * PGSIZE)
      ⟨fun _ ↦ none, { r with freelist := rest }⟩).with_eq
    refine hload.bind ?_
    rintro ⟨sz, s⟩ ⟨-, -, w⟩ ⟨⟨rfl, rfl⟩, hs, -⟩
    have hfrom : ∀ pa ∈ rest, pa ∈ r.freelist := fun pa hpa ↦
      hlist ▸ List.mem_append_right (dir :: tables) hpa
    have hkeep := loadProgram_frame_caller hwf hfree (hdata f rfl) hfrom hs
    have hforeign : s.vm.All t.Foreign :=
      ⟨fun pa hpa n hn ↦ (hkeep n pa hn).1.free pa hpa rfl,
        fun k pa hpa n hn ↦ (hkeep n pa hn).1.mapped k pa hpa rfl⟩
    -- the pages of the segments are only in the other account
    have hfinish : Agree SameOutcome (finish t ⟨fun _ ↦ none, dir, tables⟩ f.elfhdr.entry ptrs sz s)
        (Elf.finish t ⟨fun _ ↦ none, dir, tables⟩ f.elfhdr.entry (argv.map List.length) sz
          s.vm) := by
      rcases sz with - | sz
      · exact bad_agree _ s
      · exact runLoaded_agree _ _ sz hforeign (hargs.congr fun n pa hpa ↦ (hkeep n pa hpa).2)
    exact hfinish.map_right fun _ _ h ↦ ⟨h.ret, h.task, h.free⟩

end Contents

end StackReloc
