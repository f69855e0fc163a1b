import Cs537OS.StackReloc.Pushes
import Cs537OS.StackReloc.Segments

/-!
# When `exec` is all-or-nothing

`exec` is meant to replace the image of a process or to leave the process as it is. It does so on
every exit for which it has a `goto bad`, but not all that can go wrong has one: segments go to
addresses that nothing has checked, memory that runs out for the stack and an image that reaches the
stack are a panic, and an image that leaves no gap below the stack is committed.

`exec_allOrNothing_iff` says that this is all: `ExecOk` is the condition on the program headers, the
free pages and the arguments under which `exec` is all-or-nothing, whatever the process. A program
that a linker made meets it when there is memory enough (`execOk_of_linked`).
-/

open Xv6 TotalCorrectness

namespace StackReloc.Elf

/-- The lowest address of the mapped pages below the top of user memory, when the image has size
`sz`: an image that reaches the stack goes on below it. -/
def stackLow (sz : ℕ) : ℕ := if sz ≤ USERTOP - 2 * PGSIZE then USERTOP - PGSIZE else 2 * PGSIZE

/-- An image of size `sz` gets its stack, and the gap is there unless the arguments are too long, in
which case nothing is committed. -/
def FinishOk (free argv : List ℕ) (sz : ℕ) : Prop :=
  StackFits free sz ∧
    (stackLow sz + stackBytes argv ≤ USERTOP → sz + 5 * PGSIZE ≤ USERTOP - PGSIZE)

/-- The headers from here on, for an image of size `sz`: each segment that memory is found for is
good, up to the first header or segment that is turned down. -/
def ProgramOk (f : File) (free : List ℕ) (last : ℕ → Prop) : List (Option Proghdr) → ℕ → Prop
  | [], sz => last sz
  | none :: _, _ => True
  | some ph :: phs, sz =>
    if ph.type ≠ ELF_PROG_LOAD then
      ProgramOk f free last phs sz
    else if ph.memsz < ph.filesz ∨ ¬ Grows free sz (uint (ph.va + ph.memsz)) then
      True
    else
      SegmentOk f free (max sz (uint (ph.va + ph.memsz))) ph ∧
        (Readable f ph → ProgramOk f free last phs (max sz (uint (ph.va + ph.memsz))))

/-- The number of pages that `setupkvm` takes. -/
def kvmPages : ℕ := kernelTables.length + 1

/-- What `exec` needs to be all-or-nothing: nothing where it does not come to load a program, and
else good headers and a good end. -/
def ExecOk (freelist : List ℕ) (file : Option File) (argv : List ℕ) : Prop :=
  match file with
  | none => True
  | some f =>
    f.IsElf → kvmPages ≤ freelist.length →
      ProgramOk f (freelist.drop kvmPages) (FinishOk (freelist.drop kvmPages) argv) f.phdrs
        (2 * PGSIZE)

instance (free argv : List ℕ) (sz : ℕ) : Decidable (FinishOk free argv sz) :=
  inferInstanceAs (Decidable (_ ∧ (_ → _)))

instance decidableProgramOk (f : File) (free : List ℕ) (last : ℕ → Prop) [DecidablePred last] :
    (phs : List (Option Proghdr)) → (sz : ℕ) → Decidable (ProgramOk f free last phs sz)
  | [], sz => inferInstanceAs (Decidable (last sz))
  | none :: _, _ => inferInstanceAs (Decidable True)
  | some ph :: phs, sz =>
    have := decidableProgramOk f free last phs sz
    have := decidableProgramOk f free last phs (max sz (uint (ph.va + ph.memsz)))
    inferInstanceAs (Decidable (ite _ _ (ite _ _ (_ ∧ (_ → _)))))

instance (freelist : List ℕ) (file : Option File) (argv : List ℕ) :
    Decidable (ExecOk freelist file argv) :=
  match file with
  | none => inferInstanceAs (Decidable True)
  | some _ => inferInstanceAs (Decidable (_ → _ → _))

/-- The call comes back with a new image or with the process as it was. -/
def Returned (t : Task) (r : Outcome) : Prop :=
  r.ret = 0 ∧ Committed r.task ∨ r.ret = -1 ∧ r.task = t

variable {t : Task} {f : File} {free freelist argv : List ℕ} {d : Pgdir} {sz entry : ℕ}

/-! ### The ends of `exec` -/

theorem exists_freevm (h : Vm.NonNull ⟨d.user, freelist⟩) :
    ∃ free, freevm d freelist = .ok free := by
  obtain ⟨r, hr, -⟩ := h.exists_deallocuvm USERTOP 0
  exact ⟨_, by rw [freevm, hr]; rfl⟩

theorem yields_liftPanic {α : Type} {x : Except Panic α} {P : α → Prop} :
    Yields (liftPanic x) P ↔ Yields x P := by
  rcases x with why | a
  · exact yields_error.trans yields_error.symm
  · exact yields_ok.trans yields_ok.symm

/-- A bad program is given up. -/
theorem bad_returned {m : Vm} (hm : m.NonNull) : Yields (bad t d m) (Returned t) := by
  rw [bad, yields_bind, yields_liftPanic]
  refine yields_of_forall (exists_freevm hm) fun fl ↦ ?_
  exact yields_ok.2 (.inr ⟨rfl, rfl⟩)

theorem mappedFrom_withStack (pa : ℕ) (hlo : 2 * PGSIZE ≤ sz) (hfits : StackFits free sz) :
    MappedFrom (withStack free (pagesOf sz) pa) (stackLow sz) := by
  obtain ⟨hlt, hsz⟩ := hfits
  -- the page of the stack and the pages of the image are mapped, and no other page
  have hpte : ∀ n, ((withStack free (pagesOf sz) pa).pte n).isSome ↔
      n = 159 ∨ 2 ≤ n ∧ n < pagesOf sz + 2 := by
    intro n
    show (Function.update (image free (pagesOf sz)).pte 159 (some pa) n).isSome ↔ _
    rcases eq_or_ne n 159 with rfl | hne
    · rw [Function.update_self]
      exact iff_of_true rfl (.inl rfl)
    · rw [Function.update_of_ne hne, image_pte_isSome_iff hlt.le, or_iff_right hne]
  have hnone : ∀ n, ¬ (n = 159 ∨ 2 ≤ n ∧ n < pagesOf sz + 2) →
      (withStack free (pagesOf sz) pa).pte n = none :=
    fun n hn ↦ Option.not_isSome_iff_eq_none.1 (mt (hpte n).1 hn)
  have hsz₁ : sz ≤ 651264 := hsz
  have hlo₁ : 8192 ≤ sz := hlo
  have hk : pagesOf sz = (sz + 4095) / 4096 - 2 := rfl
  have hlow : sz ≤ 647168 ∧ stackLow sz = 651264 ∨ 647168 < sz ∧ stackLow sz = 8192 := by
    rw [stackLow]
    split_ifs with h
    · exact .inl ⟨h, rfl⟩
    · exact .inr ⟨Nat.lt_of_not_le h, rfl⟩
  constructor
  · rw [PGSIZE]
    omega
  · rw [PGSIZE]
    omega
  · rw [USERTOP]
    omega
  · intro n hn htop
    refine (hpte n).2 ?_
    unfold USERTOP PGSIZE at *
    omega
  · refine hnone _ ?_
    unfold PGSIZE at *
    omega
  · intro n hn
    refine hnone n ?_
    unfold USERTOP PGSIZE at *
    omega

/-- **The end of `exec`** for an image of size `sz`. -/
theorem runLoaded_iff (hwf : WellFormed t free) (hlo : 2 * PGSIZE ≤ sz) (hhi : sz ≤ USERTOP)
    (hk : pagesOf sz ≤ free.length) (hargc : argv.length < MAXARG)
    (hlen : ∀ len ∈ argv, len < USERTOP) :
    Yields (runLoaded t d entry sz argv (image free (pagesOf sz))) (Returned t) ↔
      FinishOk free argv sz := by
  have hfree : ∀ pa ∈ free, pa ≠ 0 := fun pa hpa ↦ (hwf.free pa hpa).ne_zero
  rw [runLoaded, yields_bind, yields_liftPanic, FinishOk]
  rcases em (StackFits free sz) with hfits | hfits
  · obtain ⟨pa, hpa, hstack⟩ := allocuvm_stack hfits
    have hpush := pushStack_isSome_iff (mappedFrom_withStack pa hlo hfits) hargc hlen
    have hne : ¬ USERTOP = 0 := by decide
    rw [hstack, yields_ok, if_neg hne, and_iff_right hfits, ← hpush]
    rcases pushStack (withStack free (pagesOf sz) pa) argv USERTOP with - | sp
    · exact iff_of_true (bad_returned (withStack_nonNull hfree (hfree pa hpa)))
        fun h ↦ absurd h Bool.false_ne_true
    · have hold : ∃ fl, freevm t.pgdir (withStack free (pagesOf sz) pa).freelist = .ok fl :=
        exists_freevm fun n pa' h ↦ (hwf.user n pa' h).ne_zero
      obtain ⟨fl, hfl⟩ := hold
      simp only [hfl]
      rw [yields_bind, yields_liftPanic, yields_ok, yields_ok]
      constructor
      · rintro (⟨-, hgap⟩ | ⟨hret, -⟩) -
        · exact hgap.2.1
        · cases hret
      · exact fun h ↦ .inl ⟨rfl, hlo, h rfl, rfl⟩
  · refine iff_of_false (fun h ↦ ?_) fun h ↦ hfits h.1
    rcases allocuvm_stack_of_not_fits hfree hhi hk hfits with ⟨m, hm⟩ | ⟨why, hwhy⟩
    · rw [hm, yields_ok, if_pos rfl, yields_error] at h
      exact h
    · rw [hwhy, yields_error] at h
      exact h

/-! ### The program headers -/

/-- **The loop over the program headers**, for what is to hold at its end: of a bad program nothing
but that its memory can be freed, and of a good one `last`. -/
theorem loadProgram_iff (hfree : ∀ pa ∈ free, Frame pa) (hnull : t.pgdir.user 0 = none)
    {Q : Option ℕ → Vm → Prop} {last : ℕ → Prop} (hbad : ∀ m, m.NonNull → Q none m)
    (hlast : ∀ sz, 2 * PGSIZE ≤ sz → sz ≤ USERTOP → pagesOf sz ≤ free.length →
      (Q (some sz) (image free (pagesOf sz)) ↔ last sz))
    {phs : List (Option Proghdr)} (hoff : ∀ ph, some ph ∈ phs → ph.offset < 2 ^ 32)
    (hlo : 2 * PGSIZE ≤ sz) (hhi : sz ≤ USERTOP) (hk : pagesOf sz ≤ free.length) :
    (Yields (loadProgram t f phs sz (image free (pagesOf sz)))
        fun l ↦ Own l.written ∧ Q l.size l.vm) ↔
      ProgramOk f free last phs sz := by
  have hne : ∀ pa ∈ free, pa ≠ 0 := fun pa hpa ↦ (hfree pa hpa).ne_zero
  induction phs generalizing sz with
  | nil =>
    rw [loadProgram, yields_ok, ProgramOk, hlast sz hlo hhi hk]
    exact and_iff_right own_nil
  | cons oph phs ih =>
    have hrest : ∀ ph, some ph ∈ phs → ph.offset < 2 ^ 32 :=
      fun ph hph ↦ hoff ph (List.mem_cons_of_mem _ hph)
    rcases oph with - | ph
    · rw [loadProgram, yields_ok, ProgramOk]
      exact iff_of_true ⟨own_nil, hbad _ (image_nonNull hne _)⟩ trivial
    · rw [loadProgram, ProgramOk]
      generalize uint ((ph.va : ℤ) + ph.memsz) = newsz
      rcases em (ph.type = ELF_PROG_LOAD) with htype | htype
      swap
      · rw [if_pos htype, if_pos htype]
        exact ih hrest hlo hhi hk
      rw [if_neg (not_not_intro htype), if_neg (not_not_intro htype)]
      rcases Nat.lt_or_ge ph.memsz ph.filesz with hmem | hmem
      · rw [if_pos hmem, if_pos (.inl hmem), yields_ok]
        exact iff_of_true ⟨own_nil, hbad _ (image_nonNull hne _)⟩ trivial
      rw [if_neg (Nat.not_lt.2 hmem), yields_bind, yields_liftPanic]
      rcases em (Grows free sz newsz) with hgrows | hgrows
      · -- the image grows, and the segment is loaded
        have hmax : 2 * PGSIZE ≤ max sz newsz ∧ max sz newsz ≤ USERTOP :=
          ⟨hlo.trans (Nat.le_max_left _ _), Nat.max_le.2 ⟨hhi, hgrows.1⟩⟩
        have hpos : ¬ max sz newsz = 0 := by
          rw [PGSIZE] at hlo
          omega
        have hload := loaduvm_iff (f := f) hfree hnull hmax.2 hgrows.2 (hoff ph List.mem_cons_self)
          fun r ↦ 0 ≤ r → ProgramOk f free last phs (max sz newsz)
        have hread : (0 ≤ if Readable f ph then (0 : ℤ) else -1) ↔ Readable f ph := by
          split_ifs with h
          · exact iff_of_true le_rfl h
          · exact iff_of_false (by decide) h
        rw [hread] at hload
        rw [allocuvm_image hne hlo hhi hgrows, yields_ok, if_neg hpos,
          if_neg (not_or.2 ⟨Nat.not_lt.2 hmem, not_not_intro hgrows⟩), ← hload, yields_bind]
        refine yields_congr fun r _ ↦ ?_
        rcases lt_or_ge r.1 0 with hneg | hge
        · rw [if_pos hneg, yields_ok]
          exact and_congr_right' (iff_of_true (hbad _ (image_nonNull hne _)) fun h ↦
            absurd h (Int.not_le.2 hneg))
        · have hrec := (ih hrest hmax.1 hmax.2 hgrows.2).symm
          rw [if_neg (Int.not_lt.2 hge), yields_bind, imp_iff_right hge, hrec, ← yields_and_left]
          refine yields_congr fun l _ ↦ ?_
          rw [yields_ok, own_append, and_assoc]
      · obtain ⟨m, hm, hnonnull⟩ := allocuvm_image_of_not_grows hne hlo hhi hk hgrows
        rw [hm, yields_ok, if_pos rfl, yields_ok, if_pos (.inr hgrows)]
        exact iff_of_true ⟨own_nil, hbad _ hnonnull⟩ trivial

/-! ### The page directory -/

theorem mapTables_of_le {is : List ℕ} {m : Vm} (h : is.length ≤ m.freelist.length) :
    mapTables is m = (some (m.freelist.take is.length),
      { m with freelist := m.freelist.drop is.length }) := by
  induction is generalizing m with
  | nil => rfl
  | cons i is ih =>
    obtain ⟨pte, freelist⟩ := m
    rcases freelist with - | ⟨pa, freelist⟩
    · exact absurd h (Nat.not_succ_le_zero _)
    · have hrec := ih (m := ⟨pte, freelist⟩) (Nat.le_of_succ_le_succ h)
      show ((mapTables is ⟨pte, freelist⟩).1.map (pa :: ·), (mapTables is ⟨pte, freelist⟩).2) = _
      rw [hrec]
      rfl

/-- Tables that were created before the free pages ran out are not given back. -/
theorem mapTables_of_lt {is : List ℕ} {m : Vm} (h : m.freelist.length < is.length) :
    mapTables is m = (none, { m with freelist := [] }) := by
  induction is generalizing m with
  | nil => exact absurd h (Nat.not_lt_zero _)
  | cons i is ih =>
    obtain ⟨pte, freelist⟩ := m
    rcases freelist with - | ⟨pa, freelist⟩
    · rfl
    · have hrec := ih (m := ⟨pte, freelist⟩) (Nat.lt_of_succ_lt_succ h)
      show ((mapTables is ⟨pte, freelist⟩).1.map (pa :: ·), (mapTables is ⟨pte, freelist⟩).2) = _
      rw [hrec]
      rfl

/-- With free pages enough, the new address space is an empty image of those that are left. -/
theorem setupkvm_of_le (h : kvmPages ≤ freelist.length) :
    ∃ d, setupkvm freelist = (some d, image (freelist.drop kvmPages) 0) := by
  rcases freelist with - | ⟨pa, freelist⟩
  · exact absurd h (Nat.not_succ_le_zero _)
  · have htables := mapTables_of_le (m := ⟨fun _ ↦ none, freelist⟩) (Nat.le_of_succ_le_succ h)
    refine ⟨⟨fun _ ↦ none, pa, freelist.take kernelTables.length⟩, ?_⟩
    show ((mapTables kernelTables ⟨fun _ ↦ none, freelist⟩).1.map _,
      (mapTables kernelTables ⟨fun _ ↦ none, freelist⟩).2) = _
    rw [htables]
    refine congrArg (Prod.mk _) (congrArg (Vm.mk · _) (funext fun n ↦ ?_))
    show none = if n < 2 then none else ([] : List ℕ)[n - 2]?
    split_ifs <;> rfl

theorem setupkvm_of_lt (h : freelist.length < kvmPages) :
    setupkvm freelist = (none, ⟨fun _ ↦ none, []⟩) := by
  rcases freelist with - | ⟨pa, freelist⟩
  · rfl
  · have htables : mapTables kernelTables ⟨fun _ ↦ none, freelist⟩ = (none, ⟨fun _ ↦ none, []⟩) :=
      mapTables_of_lt (Nat.lt_of_succ_lt_succ h)
    show ((mapTables kernelTables ⟨fun _ ↦ none, freelist⟩).1.map _,
      (mapTables kernelTables ⟨fun _ ↦ none, freelist⟩).2) = _
    rw [htables]
    rfl

/-- **`exec` is all-or-nothing** exactly when the headers of the program, the free pages and the
arguments are as `ExecOk` says: it comes back with a new image that has its gap or leaves the
process as it was, with no panic, and writes no segment outside the new image. -/
theorem exec_allOrNothing_iff {t : Task} {freelist : List ℕ} {file : Option File} {argv : List ℕ}
    (hwf : WellFormed t freelist) (hargc : argv.length < MAXARG)
    (hlen : ∀ len ∈ argv, len < USERTOP) :
    AllOrNothing t (exec t freelist file argv) ↔ ExecOk freelist file argv := by
  have hback : ∀ free, AllOrNothing t (.ok ⟨-1, t, free, []⟩) :=
    fun _ ↦ ⟨_, rfl, .inr ⟨rfl, rfl⟩, own_nil⟩
  rcases file with - | f
  · exact iff_of_true (hback _) trivial
  rw [exec, ExecOk]
  rcases em f.IsElf with helf | helf
  swap
  · -- the file is turned down for its header
    refine iff_of_true ?_ fun h ↦ absurd h helf
    split_ifs with hshort hmagic
    · exact hback _
    · exact hback _
    · exact absurd ⟨Nat.le_of_not_lt hshort, not_not.1 hmagic⟩ helf
  rw [if_neg (Nat.not_lt.2 helf.1), if_neg (not_not_intro helf.2), imp_iff_right helf]
  rcases Nat.lt_or_ge freelist.length kvmPages with hfew | hkvm
  · refine iff_of_true ?_ fun h ↦ absurd h (Nat.not_le.2 hfew)
    rw [setupkvm_of_lt hfew]
    exact hback _
  obtain ⟨d, hd⟩ := setupkvm_of_le hkvm
  have hfree : ∀ pa ∈ freelist.drop kvmPages, Frame pa :=
    fun pa hpa ↦ hwf.free pa (List.mem_of_mem_drop hpa)
  have hwf' : WellFormed t (freelist.drop kvmPages) := { hwf with free := hfree }
  -- what is to hold after the loop: the rest of `exec` comes back
  have hoff : ∀ ph, some ph ∈ f.phdrs → ph.offset < 2 ^ 32 := fun _ ↦ File.offset_lt
  have hloop := loadProgram_iff (f := f) (Q := fun o m ↦ Yields (finish t d f.elfhdr.entry argv o m)
      (Returned t)) hfree hwf.null (fun m hm ↦ bad_returned hm)
    (fun sz hlo hhi hk ↦ runLoaded_iff hwf' hlo hhi hk hargc hlen) hoff (le_refl (2 * PGSIZE))
    (by decide) (Nat.zero_le _)
  rw [imp_iff_right hkvm, ← hloop, hd]
  show Yields (_ >>= _) (fun r ↦ Returned t r ∧ Own r.written) ↔ _
  rw [yields_bind]
  refine yields_congr fun l _ ↦ ?_
  rw [yields_bind, ← yields_and_left]
  refine yields_congr fun r _ ↦ ?_
  rw [yields_ok]
  exact and_comm

/-! ### Linked programs -/

/-- A program as a linker makes it: the segments start at page boundaries above the first two pages
and end at `top` at the latest. -/
def Linked (f : File) (top : ℕ) : Prop :=
  ∀ ph, some ph ∈ f.phdrs → ph.type = ELF_PROG_LOAD →
    ph.va % PGSIZE = 0 ∧ 2 * PGSIZE ≤ ph.va ∧ ph.va + ph.memsz ≤ top

theorem segmentOk_of_linked {ph : Proghdr} {top : ℕ} (htop : top ≤ USERTOP)
    (hva : ph.va % PGSIZE = 0) (hlo : 2 * PGSIZE ≤ ph.va) (hhi : ph.va + ph.memsz ≤ top)
    (hmem : ph.filesz ≤ ph.memsz) (hsz : ph.va + ph.memsz ≤ sz) : SegmentOk f free sz ph := by
  refine ⟨hva, fun i hi ↦ ?_⟩
  obtain ⟨l, rfl, hlt⟩ := Vm.mem_pages.1 hi
  have hlow : ph.va + (0 + l * PGSIZE) < USERTOP := by omega
  have haddr : uint ((ph.va : ℤ) + (0 + l * PGSIZE : ℕ)) = ph.va + (0 + l * PGSIZE) :=
    uint_add (lt_of_le_USERTOP hlow.le)
  rw [Lands, haddr]
  constructor
  · have hzero : PDX (ph.va + (0 + l * PGSIZE)) = 0 :=
      Nat.div_eq_of_lt (hlow.trans (by decide))
    rw [hzero]
    exact fun _ ↦ by decide
  · intro _
    rw [InImage, if_pos hlow]
    omega

theorem programOk_of_linked {phs : List (Option Proghdr)} {top : ℕ} (hsz : sz ≤ top)
    (htop : top + 6 * PGSIZE ≤ USERTOP) (hmem : pagesOf top < free.length)
    (hlinked : ∀ ph, some ph ∈ phs → ph.type = ELF_PROG_LOAD →
      ph.va % PGSIZE = 0 ∧ 2 * PGSIZE ≤ ph.va ∧ ph.va + ph.memsz ≤ top) :
    ProgramOk f free (FinishOk free argv) phs sz := by
  have htop₁ : top ≤ USERTOP := (Nat.le_add_right _ _).trans htop
  induction phs generalizing sz with
  | nil =>
    refine ⟨⟨(pagesOf_mono hsz).trans_lt hmem, ?_⟩, fun _ ↦ ?_⟩ <;>
    · unfold USERTOP PGSIZE at *
      omega
  | cons oph phs ih =>
    have hrest := fun ph hph ↦ hlinked ph (List.mem_cons_of_mem _ hph)
    rcases oph with - | ph
    · exact trivial
    rw [ProgramOk]
    rcases em (ph.type = ELF_PROG_LOAD) with htype | htype
    swap
    · rw [if_pos htype]
      exact ih hsz hrest
    rw [if_neg (not_not_intro htype)]
    rcases em (ph.memsz < ph.filesz ∨ ¬ Grows free sz (uint (ph.va + ph.memsz))) with hstop | hstop
    · rw [if_pos hstop]
      trivial
    · rw [if_neg hstop]
      obtain ⟨hva, hlo, hhi⟩ := hlinked ph List.mem_cons_self htype
      obtain ⟨hfilesz, -⟩ := not_or.1 hstop
      have hend : uint ((ph.va : ℤ) + ph.memsz) = ph.va + ph.memsz :=
        uint_add (lt_of_le_USERTOP (hhi.trans htop₁))
      rw [hend]
      exact ⟨segmentOk_of_linked htop₁ hva hlo hhi (Nat.le_of_not_lt hfilesz)
        (Nat.le_max_right _ _),
        fun _ ↦ ih (Nat.max_le.2 ⟨hsz, hhi⟩) hrest⟩

/-- A linked program that leaves room for the gap and the stack, with memory enough for it, meets
the condition. -/
theorem execOk_of_linked {top : ℕ} (h : Linked f top) (hlo : 2 * PGSIZE ≤ top)
    (htop : top + 6 * PGSIZE ≤ USERTOP) (hmem : kvmPages + pagesOf top < freelist.length) :
    ExecOk freelist (some f) argv := by
  refine fun _ _ ↦ programOk_of_linked hlo htop ?_ h
  rw [List.length_drop]
  omega

/-! ### Programs of one segment -/

/-- An ELF file of its two headers only, for a program of one segment. -/
def oneSegment (offset va filesz memsz : ℕ) : File where
  byte i := UInt8.ofNat
    ([ELF_MAGIC, 0, 0, 0, 0, 0, 0x2000, Elfhdr.sizeof, 0, 0, 0, 1, 0,
      ELF_PROG_LOAD, offset, va, 0, filesz, memsz, 0, 0].getD (i / 4) 0 / 256 ^ (i % 4))
  size := Elfhdr.sizeof + Proghdr.sizeof
  size_le := by decide

/-- Twenty pages from the end of the first megabyte on. -/
def pool : List ℕ := (List.range 20).map fun i ↦ 0x100000 + i * PGSIZE

/-- A process with a page of code and heap and the page of its stack. -/
def caller : Task where
  pgdir :=
    { user := fun n ↦ if n = 2 then some 0x200000 else if n = 159 then some 0x201000 else none
      dir := 0x202000
      tables := (List.range kernelTables.length).map fun i ↦ 0x203000 + i * PGSIZE }
  sz := 3 * PGSIZE
  stackHead := USERTOP - PGSIZE
  tf := ⟨0x2000, 0x9F000⟩

theorem caller_wellFormed : WellFormed caller pool where
  free := by decide
  user n pa h := by
    have hpte : (if n = 2 then some 0x200000 else if n = 159 then some 0x201000 else none) =
        some pa := h
    split_ifs at hpte <;>
    · cases hpte
      decide
  dir := by decide
  tables := by decide
  null := rfl

theorem loaded_allOrNothing :
    AllOrNothing caller (exec caller pool (some (oneSegment 0 0x2000 84 5000)) [3, 4]) :=
  (exec_allOrNothing_iff caller_wellFormed (by decide) (by decide)).2 (by decide +kernel)

/-- A segment that does not start at a page boundary makes the kernel panic. -/
theorem unaligned_not_allOrNothing :
    ¬ AllOrNothing caller (exec caller pool (some (oneSegment 0 0x2004 84 5000)) []) := by
  rintro ⟨r, hr, -⟩
  have hpanic : (match exec caller pool (some (oneSegment 0 0x2004 84 5000)) [] with
      | .ok _ => false
      | .error why => why == .panic ⟨"loaduvm: addr must be page aligned"⟩) = true := by
    decide +kernel
  rw [hr] at hpanic
  cases hpanic

/-- A segment whose end wraps is written to the text of the kernel, and the program is run. -/
example : (match exec caller pool (some (oneSegment 0 0x100000 84 0xFFF00000)) [] with
    | .ok r => r.ret == 0 && r.written == [⟨0x100000, []⟩]
    | .error _ => false) = true := by
  decide +kernel

/-- There is no memory left for the stack. -/
example : (match exec caller (pool.take 15) (some (oneSegment 0 0x2000 84 5000)) [] with
    | .ok _ => false
    | .error why => why == .panic ⟨"allocate new stack failed"⟩) = true := by
  decide +kernel

end StackReloc.Elf
