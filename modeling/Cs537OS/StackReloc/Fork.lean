import Cs537OS.StackReloc.Copy

/-!
# A fork that fails

`fork` with all that it takes from the allocator: a kernel stack, a page directory with its tables,
and a page for every page of the parent. When memory runs out it has to give back what it has.
`allocproc` gives back the entry of the process table, `copyuvm` the new address space with
`freevm`, and `fork` the kernel stack. Only `setupkvm`, when it has a directory and no memory for
all of its tables, returns without the directory and the tables that it has, and nobody else knows
them.

* `fork_leakless_iff` — a fork that fails leaves the free pages and the table as they were unless
  `setupkvm` runs out of memory after its first page (`Starved`);
* `starvedKernel_leaks` — a fork with two free pages.

The registers, the open files and the name of a process are left out: `fork` copies them when
nothing can fail any more. The steps are those of one processor, with nobody else in between.
-/

open Xv6

namespace StackReloc

/-- An entry of the process table. A page directory at address 0 is none. -/
structure Entry where
  state : ProcState
  pid : ℤ
  parent : Option Slot
  kstack : ℕ
  pgdir : Elf.Pgdir
  sz : ℕ
  stackHead : ℕ

/-- The process table and physical memory. -/
structure Kernel where
  ptable : Slot → Entry
  nextpid : ℤ
  ram : Ram

namespace Kernel

/-- Change one entry of the table. -/
def modify (k : Kernel) (p : Slot) (f : Entry → Entry) : Kernel :=
  { k with ptable := Function.update k.ptable p (f (k.ptable p)) }

/-- Look in the process table for an UNUSED entry, make it an EMBRYO and give it a kernel stack. -/
def allocproc (k : Kernel) : Option Slot × Kernel :=
  match (List.finRange NPROC).find? fun p ↦ (k.ptable p).state = .unused with
  | none => (none, k)
  | some p =>
    let k := { k with nextpid := k.nextpid + 1 }.modify p fun a ↦
      { a with state := .embryo, pid := k.nextpid }
    match k.ram.kalloc with
    | none => (none, k.modify p fun a ↦ { a with kstack := 0, state := .unused })
    | some (v, ram) => (some p, { k with ram := ram }.modify p fun a ↦ { a with kstack := v })

/-- Create a new process copying `p` as the parent: the pid of the child, or -1. -/
def fork (k : Kernel) (p : Slot) : Except Panic (ℤ × Kernel) :=
  match k.allocproc with
  | (none, k) => .ok (-1, k)
  | (some np, k) => do
    let c ← copyuvm (k.ptable p).pgdir (k.ptable p).sz (k.ptable p).stackHead k.ram
    match c.1 with
    | none =>
      .ok (-1, { k with ram := c.2.kfree (k.ptable np).kstack }.modify np fun a ↦
        { a with pgdir := ⟨fun _ ↦ none, 0, []⟩, kstack := 0, state := .unused })
    | some d =>
      .ok ((k.ptable np).pid, { k with ram := c.2 }.modify np fun a ↦
        { a with
          pgdir := d
          sz := (k.ptable p).sz
          stackHead := (k.ptable p).stackHead
          parent := some p
          state := .runnable })

/-- The free pages are the same, and so is the process table but for what UNUSED entries hold. -/
structure Restored (k k' : Kernel) : Prop where
  free : k'.ram.freelist.Perm k.ram.freelist
  table : ∀ i, k'.ptable i = k.ptable i ∨
    (k.ptable i).state = .unused ∧ (k'.ptable i).state = .unused

/-- There is an entry for the child and memory for its kernel stack and its page directory, but not
for all of the page tables of the kernel. -/
def Starved (k : Kernel) : Prop :=
  (∃ i, (k.ptable i).state = .unused) ∧
    2 ≤ k.ram.freelist.length ∧ k.ram.freelist.length < Elf.kvmPages + 1

instance (k : Kernel) : Decidable k.Starved := inferInstanceAs (Decidable (_ ∧ _ ∧ _))

variable {k k' : Kernel} {p np i : Slot} {f g : Entry → Entry} {r : ℤ × Kernel}

@[simp]
theorem modify_ptable_self : (k.modify p f).ptable p = f (k.ptable p) := Function.update_self ..

theorem modify_ptable_of_ne (h : i ≠ p) : (k.modify p f).ptable i = k.ptable i :=
  Function.update_of_ne h ..

@[simp]
theorem modify_ram : (k.modify p f).ram = k.ram := rfl

theorem Restored.refl (k : Kernel) : Restored k k := ⟨.refl _, fun _ ↦ .inl rfl⟩

/-- Only an entry that was UNUSED has changed, and it is UNUSED again. -/
theorem Restored.of_modify (hfree : k'.ram.freelist.Perm k.ram.freelist)
    (hunused : (k.ptable p).state = .unused) (hothers : ∀ i, i ≠ p → k'.ptable i = k.ptable i)
    (hagain : (k'.ptable p).state = .unused) : Restored k k' := by
  refine ⟨hfree, fun i ↦ ?_⟩
  rcases eq_or_ne i p with rfl | hne
  · exact .inr ⟨hunused, hagain⟩
  · exact .inl (hothers i hne)

/-! ### allocproc -/

/-- The kernel after `allocproc` has taken the entry `p` and the page `v`. -/
def embryo (k : Kernel) (p : Slot) (v : ℕ) (next : List ℕ) : Kernel where
  ptable := Function.update k.ptable p
    { k.ptable p with state := .embryo, pid := k.nextpid, kstack := v }
  nextpid := k.nextpid + 1
  ram := ⟨next, k.ram.mem⟩

theorem embryo_ptable_self (k : Kernel) (p : Slot) (v : ℕ) (next : List ℕ) :
    (k.embryo p v next).ptable p =
      { k.ptable p with state := .embryo, pid := k.nextpid, kstack := v } :=
  Function.update_self ..

/-- What `allocproc` comes to: there is no entry, or no page for the kernel stack, or an EMBRYO with
the first free page. -/
theorem allocproc_cases (k : Kernel) :
    k.allocproc = (none, k) ∧ (∀ i, (k.ptable i).state ≠ .unused) ∨
      (∃ k', k.allocproc = (none, k') ∧ k.ram.freelist = [] ∧ Restored k k') ∨
      ∃ np v next, k.allocproc = (some np, k.embryo np v next) ∧ k.ram.freelist = v :: next ∧
        (k.ptable np).state = .unused := by
  rw [allocproc]
  rcases hfind : (List.finRange NPROC).find? fun p ↦
    decide ((k.ptable p).state = .unused) with - | np
  · refine .inl ⟨rfl, fun i hi ↦ ?_⟩
    exact List.find?_eq_none.1 hfind i (List.mem_finRange i) (decide_eq_true hi)
  · have hunused : (k.ptable np).state = .unused := of_decide_eq_true (List.find?_some hfind :)
    obtain ⟨ptable, nextpid, freelist, mem⟩ := k
    rcases freelist with - | ⟨v, next⟩
    · refine .inr (.inl ⟨_, rfl, rfl, .of_modify (.refl _) hunused (fun i hne ↦ ?_) ?_⟩)
      · exact (modify_ptable_of_ne hne).trans (modify_ptable_of_ne hne)
      · exact congrArg Entry.state modify_ptable_self
    · refine .inr (.inr ⟨np, v, next, ?_, rfl, hunused⟩)
      simp [Ram.kalloc, modify, embryo]

end Kernel

/-! ### copyuvm -/

/-- The loops of `copyuvm` lose no page, whether there is memory enough or not. -/
theorem copyPages_perm {user : ℕ → Option ℕ} {is : List ℕ} {s : Space} {c : Bool × Space}
    (hdvd : ∀ i ∈ is, PGSIZE ∣ i) (h : copyPages user is s = .ok c) : c.2.pool.Perm s.pool := by
  induction is generalizing s with
  | nil =>
    cases h
    exact .refl _
  | cons i is ih =>
    obtain ⟨hi, hdvd⟩ := List.forall_mem_cons.1 hdvd
    rw [copyPages] at h
    obtain ⟨pa, -, h⟩ := GuardedLoop.bind_eq_ok_iff.1 h
    obtain ⟨pte, freelist, mem⟩ := s
    rcases freelist with - | ⟨f, next⟩
    · cases h
      exact .refl _
    · obtain ⟨s', hmap, h⟩ := GuardedLoop.bind_eq_ok_iff.1 h
      rw [Space.mappages_eq hi] at hmap
      exact (ih hdvd h).trans ((Space.pool_mapPage hmap).trans List.perm_middle.symm)

/-- What `copyuvm` has made when it fails is given back, unless it is the directory that fails. -/
theorem copyuvm_perm {pgdir : Elf.Pgdir} {sz stackHead : ℕ} {r r' : Ram}
    (halign : PGSIZE ∣ stackHead)
    (hkvm : Elf.kvmPages ≤ r.freelist.length) (h : copyuvm pgdir sz stackHead r = .ok (none, r')) :
    r'.freelist.Perm r.freelist := by
  obtain ⟨dir, tables, rest, hlist, hsetup⟩ := setupkvm_of_le hkvm
  rw [copyuvm, hsetup] at h
  obtain ⟨c, hc, h⟩ := GuardedLoop.bind_eq_ok_iff.1 h
  have hdvd : ∀ i ∈ Vm.pages (2 * PGSIZE) sz ++ Vm.pages stackHead USERTOP, PGSIZE ∣ i :=
    fun i hi ↦ by
    rcases List.mem_append.1 hi with hi | hi <;> obtain ⟨j, rfl, -⟩ := Vm.mem_pages.1 hi
    · exact Nat.dvd_add (Nat.dvd_mul_left _ _) (Nat.dvd_mul_left _ _)
    · exact Nat.dvd_add halign (Nat.dvd_mul_left _ _)
  have hpool : c.2.pool.Perm rest :=
    (copyPages_perm hdvd hc).trans (.of_eq (Space.pool_empty { r with freelist := rest }))
  rcases hok : c.1 with - | -
  · rw [hok, if_neg Bool.false_ne_true] at h
    obtain ⟨r₁, hfree, h⟩ := GuardedLoop.bind_eq_ok_iff.1 h
    cases h
    rw [hlist]
    exact (freevm_perm hfree).trans (hpool.append_left (dir :: tables))
  · rw [hok, if_pos rfl] at h
    cases h

theorem copyuvm_of_lt {pgdir : Elf.Pgdir} {sz stackHead : ℕ} {r : Ram}
    (hkvm : r.freelist.length < Elf.kvmPages) :
    copyuvm pgdir sz stackHead r = .ok (none, { r with freelist := [] }) := by
  rw [copyuvm, setupkvm_of_lt hkvm]

/-! ### fork -/

namespace Kernel

variable {k k' : Kernel} {p np : Slot} {v : ℕ} {next : List ℕ}

/-- The kernel after a fork has given the entry `np` back, with the memory that `copyuvm` left. -/
def giveBack (k : Kernel) (np : Slot) (v : ℕ) (next : List ℕ) (r : Ram) : Kernel :=
  { k.embryo np v next with ram := r.kfree v }.modify np fun a ↦
    { a with pgdir := ⟨fun _ ↦ none, 0, []⟩, kstack := 0, state := .unused }

/-- A fork that has a kernel stack fails when `copyuvm` does, and only then. -/
theorem fork_eq_neg_one_iff (halloc : k.allocproc = (some np, k.embryo np v next))
    (hpid : k.nextpid ≠ -1) :
    k.fork p = .ok (-1, k') ↔ ∃ r, k' = k.giveBack np v next r ∧
      copyuvm ((k.embryo np v next).ptable p).pgdir ((k.embryo np v next).ptable p).sz
        ((k.embryo np v next).ptable p).stackHead ⟨next, k.ram.mem⟩ = .ok (none, r) := by
  have hnp := k.embryo_ptable_self np v next
  rw [fork, halloc]
  constructor
  · intro h
    obtain ⟨⟨pgdir, r⟩, hc, h⟩ := GuardedLoop.bind_eq_ok_iff.1 h
    rcases pgdir with - | d
    · refine ⟨r, ?_, hc⟩
      rw [giveBack, ← (Prod.mk.inj (Except.ok.inj h)).2, hnp]
    · have hneg := (Prod.mk.inj (Except.ok.inj h)).1
      rw [hnp] at hneg
      exact absurd hneg hpid
  · rintro ⟨r, rfl, hc⟩
    refine GuardedLoop.bind_eq_ok_iff.2 ⟨(none, r), hc, ?_⟩
    rw [giveBack, hnp]

/-- **When a failed fork leaks nothing.** -/
theorem fork_leakless_iff (halign : PGSIZE ∣ (k.ptable p).stackHead) (hpid : k.nextpid ≠ -1) :
    (∀ k', k.fork p = .ok (-1, k') → Restored k k') ↔ ¬ k.Starved := by
  rcases k.allocproc_cases with ⟨halloc, hnone⟩ | ⟨k₁, halloc, hfree, hrestored⟩ |
    ⟨np, v, next, halloc, hfree, hunused⟩
  · refine iff_of_true (fun k' h ↦ ?_) fun ⟨⟨i, hi⟩, _⟩ ↦ hnone i hi
    rw [fork, halloc] at h
    obtain rfl := (Prod.mk.inj (Except.ok.inj h)).2
    exact .refl k
  · refine iff_of_true (fun k' h ↦ ?_) fun ⟨_, hlen, _⟩ ↦ ?_
    · rw [fork, halloc] at h
      obtain rfl := (Prod.mk.inj (Except.ok.inj h)).2
      exact hrestored
    · rw [hfree] at hlen
      exact absurd hlen (by decide)
  · have hstack : ((k.embryo np v next).ptable p).stackHead = (k.ptable p).stackHead := by
      rcases eq_or_ne p np with rfl | hne
      · rw [embryo_ptable_self]
      · exact congrArg Entry.stackHead (Function.update_of_ne hne ..)
    rw [← hstack] at halign
    have hlen : k.ram.freelist.length = next.length + 1 := by
      rw [hfree, List.length_cons]
    rcases Nat.lt_or_ge next.length Elf.kvmPages with hfew | hkvm
    · -- the directory fails, and the pages that it has taken are not given back
      have hfork := (fork_eq_neg_one_iff (p := p) halloc hpid).2
        ⟨_, rfl, copyuvm_of_lt (r := ⟨next, k.ram.mem⟩) hfew⟩
      have hleft : (k.giveBack np v next ⟨[], k.ram.mem⟩).ram.freelist = [v] := rfl
      constructor
      · intro h
        have hperm := (h _ hfork).free.length_eq
        rw [hleft, hlen] at hperm
        rintro ⟨-, htwo, -⟩
        rw [hlen, ← hperm] at htwo
        exact absurd htwo (Nat.not_succ_le_self 1)
      · intro hno k' h
        rw [hfork] at h
        obtain rfl := (Prod.mk.inj (Except.ok.inj h)).2
        have hnil : next = [] := by
          by_contra hne
          refine hno ⟨⟨np, hunused⟩, ?_, ?_⟩ <;> rw [hlen]
          · exact Nat.succ_le_succ (List.length_pos_iff.2 hne)
          · exact Nat.succ_lt_succ hfew
        refine .of_modify ?_ hunused (fun i hi ↦ ?_) ?_
        · rw [hleft, hfree, hnil]
        · exact (modify_ptable_of_ne hi).trans (Function.update_of_ne hi ..)
        · exact congrArg Entry.state modify_ptable_self
    · refine iff_of_true (fun k' h ↦ ?_) fun ⟨_, _, hlt⟩ ↦ ?_
      · obtain ⟨r, rfl, hc⟩ := (fork_eq_neg_one_iff halloc hpid).1 h
        refine .of_modify ?_ hunused (fun i hi ↦ ?_) ?_
        · rw [hfree]
          exact (copyuvm_perm halign hkvm hc).cons v
        · exact (modify_ptable_of_ne hi).trans (Function.update_of_ne hi ..)
        · exact congrArg Entry.state modify_ptable_self
      · rw [hlen] at hlt
        exact absurd (Nat.lt_of_succ_lt_succ hlt) (Nat.not_lt.2 hkvm)

/-- A kernel with one process, of a page of code and a page of stack, and two free pages. -/
def starvedKernel : Kernel where
  ptable i :=
    if i = initproc then ⟨.running, 1, none, 0x250000, twoPages, 3 * PGSIZE, USERTOP - PGSIZE⟩
    else ⟨.unused, 0, none, 0, ⟨fun _ ↦ none, 0, []⟩, 0, 0⟩
  nextpid := 2
  ram := ⟨[0x100000, 0x101000], fun _ _ ↦ 1⟩

/-- One of the two pages is gone. -/
theorem starvedKernel_leaks :
    ¬ ∀ k', starvedKernel.fork initproc = .ok (-1, k') → Restored starvedKernel k' := by
  intro h
  obtain ⟨x, hx, hlen⟩ := GuardedLoop.exists_eq_ok (x := starvedKernel.fork initproc)
    (p := fun x ↦ x.1 = -1 ∧ x.2.ram.freelist.length = 1) (by decide +kernel)
  obtain ⟨hneg, hone⟩ := of_decide_eq_true hlen
  have hperm := (h x.2 (by rw [hx, ← hneg])).free.length_eq
  rw [hone] at hperm
  exact absurd hperm (by decide +kernel)

/-- The same kernel with memory for the directory, the tables and a kernel stack, but for no page of
the parent. -/
def tightKernel : Kernel := { starvedKernel with ram := ⟨Elf.pool.take 14, fun _ _ ↦ 1⟩ }

/-- Its fork fails, and gives everything back. -/
theorem tightKernel_leakless :
    ∃ k', tightKernel.fork initproc = .ok (-1, k') ∧ Restored tightKernel k' := by
  obtain ⟨x, hx, hneg⟩ := GuardedLoop.exists_eq_ok (x := tightKernel.fork initproc)
    (p := fun x ↦ x.1 = -1) (by decide +kernel)
  have hfork : tightKernel.fork initproc = .ok (-1, x.2) := by
    rw [hx, ← of_decide_eq_true hneg]
  exact ⟨x.2, hfork, (fork_leakless_iff (k := tightKernel) (p := initproc) (by decide +kernel)
    (by decide +kernel)).2 (by decide +kernel) x.2 hfork⟩

end Kernel

end StackReloc
