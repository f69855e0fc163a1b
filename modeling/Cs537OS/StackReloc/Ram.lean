import Mathlib.Data.List.Perm.Basic
import Mathlib.Data.List.Perm.Subperm
import Cs537OS.StackReloc.AllOrNothing
import Cs537OS.StackReloc.Sbrk
import Cs537OS.Xv6.Words

/-!
# Pages and what is in them

The functions of `kalloc.c` and `vm.c` that `fork` and `exec` are built on, with the contents of the
pages. A page is known by its physical address. The pages that hold page tables are counted, but
what is written to them is the page table itself (`Space.pte`), so their bytes are left out; so are
those of the kernel stacks.

Mapping and unmapping move pages between the table and the list of free pages and lose none
(`Space.pool`); `freevm_perm` is what this comes to when everything is freed.
-/

open Xv6

namespace StackReloc

/-- What is in a page: its bytes, by offset. -/
abbrev Page := ℕ → UInt8

/-- Physical memory: the list of free pages, and what is in every page. -/
structure Ram where
  freelist : List ℕ
  mem : ℕ → Page

namespace Ram

/-- Allocate one page of physical memory. -/
def kalloc (r : Ram) : Option (ℕ × Ram) :=
  match r.freelist with
  | [] => none
  | v :: next => some (v, { r with freelist := next })

/-- What a free page holds: junk, and at its start the address of the next free page. -/
def freePage (next : Option ℕ) : Page := Patch.write (fun _ ↦ 1) ⟨0, wordBytes (next.getD 0)⟩

/-- Free the page of physical memory at `v`. -/
def kfree (r : Ram) (v : ℕ) : Ram where
  freelist := v :: r.freelist
  mem := Function.update r.mem v (freePage r.freelist.head?)

/-- `memmove(dst, src, PGSIZE)`, for two pages. -/
def movePage (r : Ram) (dst src : ℕ) : Ram :=
  { r with mem := Function.update r.mem dst (r.mem src) }

end Ram

/-- The user part of a page table, by page number, over physical memory. -/
structure Space where
  pte : ℕ → Option ℕ
  ram : Ram

namespace Space

/-- The pages that are mapped, without their contents. -/
def vm (s : Space) : Vm := ⟨s.pte, s.ram.freelist⟩

/-- One turn of the loop of `mappages`. From `USERTOP` on every page is mapped already. -/
def mapPage (s : Space) (a pa : ℕ) : Except Panic Space :=
  if USERTOP ≤ a ∨ (s.pte (a / PGSIZE)).isSome then
    .error ⟨"remap"⟩
  else
    .ok { s with pte := Function.update s.pte (a / PGSIZE) (some pa) }

/-- Map the pages that the `size` bytes at `la` lie in to the physical pages from `pa` on. -/
def mappages (s : Space) (la size pa : ℕ) : Except Panic Space :=
  (Vm.pages (la / PGSIZE * PGSIZE) (la + size)).foldlM
    (fun s a ↦ s.mapPage a (pa + (a - la / PGSIZE * PGSIZE))) s

/-- One turn of the loop of `deallocuvm`. -/
def deallocPage (s : Space) (a : ℕ) : Except Panic Space :=
  match s.pte (a / PGSIZE) with
  | none => .ok s
  | some pa =>
    if pa = 0 then
      .error ⟨"kfree"⟩
    else
      .ok ⟨Function.update s.pte (a / PGSIZE) none, s.ram.kfree pa⟩

/-- Deallocate user pages to bring the process size from `oldsz` to `newsz`. -/
def deallocuvm (s : Space) (oldsz newsz : ℕ) : Except Panic (ℕ × Space) :=
  if newsz ≥ oldsz then
    .ok (oldsz, s)
  else do
    let s' ← (Vm.pages (PGROUNDUP newsz) oldsz).foldlM deallocPage s
    .ok (newsz, s')

/-- All pages of a process and of the allocator. -/
def pool (s : Space) : List ℕ := Elf.userPages s.vm ++ s.ram.freelist

end Space

/-- Set up the kernel part of a page table. -/
def setupkvm (r : Ram) : Option Elf.Pgdir × Ram :=
  ((Elf.setupkvm r.freelist).1, { r with freelist := (Elf.setupkvm r.freelist).2.freelist })

/-- Free a page table and all the physical memory pages in the user part. -/
def freevm (d : Elf.Pgdir) (r : Ram) : Except Panic Ram := do
  let s ← Space.deallocuvm ⟨d.user, r⟩ USERTOP 0
  .ok ((d.tables.foldl Ram.kfree s.2.ram).kfree d.dir)

/-! ### No page is lost -/

section

variable {pte : ℕ → Option ℕ} {freelist freelist' : List ℕ} {n pa : ℕ}

/-- One more page is mapped. -/
theorem userPages_update_some (hn : n < USERTOP / PGSIZE) (hnone : pte n = none) :
    (Elf.userPages ⟨Function.update pte n (some pa), freelist⟩).Perm
      (pa :: Elf.userPages ⟨pte, freelist'⟩) := by
  have hsplit : (List.range (USERTOP / PGSIZE)).Perm
      (n :: (List.range (USERTOP / PGSIZE)).erase n) :=
    List.perm_cons_erase (List.mem_range.2 hn)
  have hrest : ((List.range (USERTOP / PGSIZE)).erase n).filterMap
      (Function.update pte n (some pa)) =
      ((List.range (USERTOP / PGSIZE)).erase n).filterMap pte := by
    refine List.filterMap_congr fun k hk ↦ Function.update_of_ne ?_ _ _
    exact ((List.nodup_range).mem_erase_iff.1 hk).1
  have hnew := hsplit.filterMap (Function.update pte n (some pa))
  rw [List.filterMap_cons, Function.update_self, hrest] at hnew
  have hold := hsplit.filterMap pte
  rw [List.filterMap_cons, hnone] at hold
  exact hnew.trans (hold.symm.cons pa)

/-- One page is unmapped. -/
theorem userPages_update_none (hn : n < USERTOP / PGSIZE) (hsome : pte n = some pa) :
    (pa :: Elf.userPages ⟨Function.update pte n none, freelist⟩).Perm
      (Elf.userPages ⟨pte, freelist'⟩) := by
  have hself : Function.update (Function.update pte n none) n (some pa) = pte := by
    rw [Function.update_idem, ← hsome, Function.update_eq_self]
  have hperm : (Elf.userPages
      ⟨Function.update (Function.update pte n none) n (some pa), freelist'⟩).Perm
        (pa :: Elf.userPages ⟨Function.update pte n none, freelist⟩) :=
    userPages_update_some hn (Function.update_self n none pte)
  rw [hself] at hperm
  exact hperm.symm

end

namespace Space

variable {s s' : Space} {a pa : ℕ}

/-- Nothing is mapped. -/
theorem pool_empty (r : Ram) : pool ⟨fun _ ↦ none, r⟩ = r.freelist := by
  have hempty : Elf.userPages ⟨fun _ ↦ none, r.freelist⟩ = [] :=
    List.filterMap_eq_nil_iff.2 fun _ _ ↦ rfl
  exact congrArg (· ++ r.freelist) hempty

/-- A page from the allocator is mapped. -/
theorem pool_mapPage (h : s.mapPage a pa = .ok s') : s'.pool.Perm (pa :: s.pool) := by
  rw [mapPage] at h
  obtain ⟨hno, h⟩ := GuardedLoop.guard_eq_ok_iff.1 h
  obtain ⟨htop, hnone⟩ := not_or.1 hno
  cases h
  have hn : a / PGSIZE < USERTOP / PGSIZE := by
    unfold USERTOP PGSIZE at *
    omega
  exact (userPages_update_some hn (Option.not_isSome_iff_eq_none.1 hnone)).append_right _

/-- An address at a page boundary. -/
theorem mappages_eq (halign : PGSIZE ∣ a) (pa : ℕ) : s.mappages a PGSIZE pa = s.mapPage a pa := by
  have hround : a / PGSIZE * PGSIZE = a := Nat.div_mul_cancel halign
  have hone : Vm.pages a (a + PGSIZE) = [a] := by
    rw [Vm.pages_of_lt (Nat.lt_add_of_pos_right (by decide)), Vm.pages_of_le le_rfl]
  rw [mappages, hround, hone, List.foldlM_cons, Nat.sub_self, Nat.add_zero]
  rcases s.mapPage a pa with e | s' <;> rfl

theorem pool_deallocPage (ha : a < USERTOP) (h : s.deallocPage a = .ok s') :
    s'.pool.Perm s.pool := by
  rw [deallocPage] at h
  rcases hpte : s.pte (a / PGSIZE) with - | pa
  · rw [hpte] at h
    cases h
    exact .refl _
  · rw [hpte] at h
    obtain ⟨-, h⟩ := GuardedLoop.guard_eq_ok_iff.1 h
    cases h
    have hn : a / PGSIZE < USERTOP / PGSIZE := by
      unfold USERTOP PGSIZE at *
      omega
    have hperm : (pa :: Elf.userPages
        ⟨Function.update s.pte (a / PGSIZE) none, pa :: s.ram.freelist⟩).Perm
          (Elf.userPages s.vm) := userPages_update_none hn hpte
    exact List.perm_middle.trans (hperm.append_right s.ram.freelist)

theorem deallocPage_pte (h : s.deallocPage a = .ok s') :
    s'.pte = Function.update s.pte (a / PGSIZE) none := by
  rw [deallocPage] at h
  rcases hpte : s.pte (a / PGSIZE) with - | pa
  · rw [hpte] at h
    cases h
    rw [← hpte, Function.update_eq_self]
  · rw [hpte] at h
    obtain ⟨-, h⟩ := GuardedLoop.guard_eq_ok_iff.1 h
    cases h
    rfl

/-- The loop of `deallocuvm` unmaps the pages it goes over, and gives them back. -/
theorem deallocPages_spec {as : List ℕ} (has : ∀ a ∈ as, a < USERTOP)
    (h : as.foldlM deallocPage s = .ok s') :
    s'.pool.Perm s.pool ∧ ∀ k, s'.pte k = if k ∈ as.map (· / PGSIZE) then none else s.pte k := by
  induction as generalizing s with
  | nil =>
    cases h
    exact ⟨.refl _, fun _ ↦ rfl⟩
  | cons a as ih =>
    obtain ⟨ha, has⟩ := List.forall_mem_cons.1 has
    rw [List.foldlM_cons] at h
    obtain ⟨s₁, hstep, h⟩ := GuardedLoop.bind_eq_ok_iff.1 h
    obtain ⟨hpool, hpte⟩ := ih has h
    refine ⟨hpool.trans (pool_deallocPage ha hstep), fun k ↦ ?_⟩
    rw [hpte, deallocPage_pte hstep, List.map_cons]
    rcases eq_or_ne k (a / PGSIZE) with rfl | hne
    · rw [Function.update_self, ite_self, if_pos List.mem_cons_self]
    · rw [Function.update_of_ne hne]
      exact if_congr (List.mem_cons.trans (or_iff_right hne)).symm rfl rfl

/-- **All of user memory is given back.** -/
theorem deallocuvm_perm {x : ℕ × Space} (h : s.deallocuvm USERTOP 0 = .ok x) :
    x.2.ram.freelist.Perm s.pool := by
  rw [deallocuvm, if_neg (by decide)] at h
  obtain ⟨s', hloop, h⟩ := GuardedLoop.bind_eq_ok_iff.1 h
  cases h
  have hall : ∀ a ∈ Vm.pages (PGROUNDUP 0) USERTOP, a < USERTOP := fun a ha ↦ by
    obtain ⟨i, -, hlt⟩ := Vm.mem_pages.1 ha
    exact hlt
  obtain ⟨hpool, hpte⟩ := deallocPages_spec hall hloop
  have hempty : Elf.userPages s'.vm = [] := by
    refine List.filterMap_eq_nil_iff.2 fun k hk ↦ ?_
    have hmem : k ∈ (Vm.pages (PGROUNDUP 0) USERTOP).map (· / PGSIZE) := by
      refine (Vm.mem_pages_map (Vm.dvd_PGROUNDUP 0)).2 ⟨Nat.zero_le _, ?_⟩
      have hlt := List.mem_range.1 hk
      unfold USERTOP PGSIZE at *
      omega
    exact (hpte k).trans (if_pos hmem)
  rw [pool, hempty, List.nil_append] at hpool
  exact hpool

end Space

variable {r r' : Ram} {d : Elf.Pgdir}

theorem foldl_kfree_freelist (pas : List ℕ) (r : Ram) :
    (pas.foldl Ram.kfree r).freelist = pas.reverse ++ r.freelist := by
  induction pas generalizing r with
  | nil => rfl
  | cons pa pas ih =>
    rw [List.foldl_cons, ih, List.reverse_cons, List.append_assoc]
    rfl

/-- **`freevm` gives back every page of the address space**: those of user memory, those of the page
tables and that of the directory. -/
theorem freevm_perm (h : freevm d r = .ok r') :
    r'.freelist.Perm (d.dir :: d.tables ++ Space.pool ⟨d.user, r⟩) := by
  obtain ⟨x, hde, h⟩ := GuardedLoop.bind_eq_ok_iff.1 h
  cases h
  have hfree : ((d.tables.foldl Ram.kfree x.2.ram).kfree d.dir).freelist =
      d.dir :: (d.tables.reverse ++ x.2.ram.freelist) :=
    congrArg (d.dir :: ·) (foldl_kfree_freelist d.tables x.2.ram)
  rw [hfree]
  exact ((List.reverse_perm d.tables).append (Space.deallocuvm_perm hde)).cons d.dir

/-! ### A new page directory -/

/-- With memory enough, the first page is the directory and the next ones are its tables. -/
theorem setupkvm_of_le (h : Elf.kvmPages ≤ r.freelist.length) :
    ∃ dir tables rest, r.freelist = dir :: tables ++ rest ∧
      setupkvm r = (some ⟨fun _ ↦ none, dir, tables⟩, { r with freelist := rest }) := by
  obtain ⟨freelist, mem⟩ := r
  rcases freelist with - | ⟨dir, freelist⟩
  · exact absurd h (Nat.not_succ_le_zero _)
  · have htables : Elf.mapTables Elf.kernelTables ⟨fun _ ↦ none, freelist⟩ =
        (some (freelist.take Elf.kernelTables.length),
          ⟨fun _ ↦ none, freelist.drop Elf.kernelTables.length⟩) :=
      Elf.mapTables_of_le (Nat.le_of_succ_le_succ h)
    refine ⟨dir, freelist.take Elf.kernelTables.length, freelist.drop Elf.kernelTables.length,
      ?_, ?_⟩
    · rw [List.cons_append, List.take_append_drop]
    · have hkvm : Elf.setupkvm (dir :: freelist) =
          ((Elf.mapTables Elf.kernelTables ⟨fun _ ↦ none, freelist⟩).1.map
              fun tables ↦ ⟨fun _ ↦ none, dir, tables⟩,
            (Elf.mapTables Elf.kernelTables ⟨fun _ ↦ none, freelist⟩).2) := rfl
      rw [setupkvm, hkvm, htables]
      rfl

/-- Without, what has been taken stays taken. -/
theorem setupkvm_of_lt (h : r.freelist.length < Elf.kvmPages) :
    setupkvm r = (none, { r with freelist := [] }) := by
  rw [setupkvm, Elf.setupkvm_of_lt h]

end StackReloc
