import Cs537OS.Threads.UserMemory

/-!
# thread_create

`thread_create` of the thread library asks `malloc` for a stack of 4096 bytes and hands it to
`clone`. It looks at neither result: a stack that `malloc` did not find is handed on as address 0,
which is an address like any other, and when `clone` fails the stack is not given back.

`threadCreate_clean_iff` says when that goes well. The two steps have to fail together.
-/

open Xv6

namespace Threads.Paged

/-- `thread_create`, from the point where `malloc` has returned `stack`. The blocks are those that
`malloc` has handed out and that have not been freed; it returns 0 or one that is not among them.
Returns what `clone` returns; the message that goes to the console when it fails is left out. -/
def threadCreate (s : Paged) (blocks : Finset ℕ) (p : Slot) (start_routine arg stack : UInt32) :
    ℤ × Paged × Finset ℕ :=
  let blocks := if stack = 0 then blocks else insert stack.toNat blocks
  match s.sysClone p start_routine arg stack with
  | none => (-1, s, blocks)
  | some r => (r.1, r.2, blocks)

/-- The pid that is returned is that of a new thread of `p`, with its stack in a new block. -/
structure Started (s : Paged) (blocks : Finset ℕ) (p : Slot) (r : ℤ × Paged × Finset ℕ) : Prop where
  positive : 0 < r.1
  thread : ∃ i, (s.kernel.ptable i).state = .unused ∧ (r.2.1.kernel.ptable i).state = .runnable ∧
    (r.2.1.kernel.ptable i).pid = r.1 ∧ r.2.1.kernel.Joined p i ∧
    ∃ b ∈ r.2.2, b ∉ blocks ∧
      Set.Ico (r.2.1.kernel.ptable i).stack ((r.2.1.kernel.ptable i).stack + PGSIZE) ⊆
        Set.Ico b (b + PGSIZE)

/-- There is a new thread, or an error that has left nothing behind in user space. -/
def Clean (s : Paged) (blocks : Finset ℕ) (p : Slot) (r : ℤ × Paged × Finset ℕ) : Prop :=
  s.Started blocks p r ∨ r.1 < 0 ∧ r.2.2 = blocks ∧ r.2.1.pte = s.pte ∧ r.2.1.mem = s.mem

/-- `clone` succeeds: its words are let through, there are an entry and a page for the kernel stack,
and the top of the thread's stack is in user pages. -/
def CloneGoes (s : Paged) (p : Slot) (fcn arg stack : UInt32) : Prop :=
  (fcn.toNat < s.sz p ∧ arg.toNat < s.sz p ∧ stack.toNat < s.sz p) ∧
    (∃ i, (s.kernel.ptable i).state = .unused) ∧ s.freelist ≠ [] ∧ s.StackMapped p stack.toNat

instance (s : Paged) (p : Slot) (fcn arg stack : UInt32) :
    Decidable (s.CloneGoes p fcn arg stack) :=
  inferInstanceAs (Decidable (_ ∧ (∃ _, _) ∧ _ ∧ ∀ i < 8, _))

variable {s : Paged} {p np : Slot} {fcn arg stack : UInt32} {blocks : Finset ℕ}

/-! ### What clone comes to -/

/-- Both words go to one page when the stack is at address 0. -/
theorem stackMapped_zero_iff : s.StackMapped p 0 ↔ (s.userPte p 0).isSome := by
  have hpage : ∀ i < 8, uint (sptop 0 + i : ℕ) / PGSIZE = 0 := by decide
  refine ⟨fun h ↦ h 0 (by decide), fun h i hi ↦ ?_⟩
  rw [hpage i hi]
  exact h

/-- A copy that does not find its first page writes nothing. -/
theorem copyout_of_none {pte : ℕ → Option ℕ} {va : ℕ} {buf : List UInt8} {mem : ℕ → ℕ → UInt8}
    (hbuf : buf ≠ []) (hpte : pte (va / PGSIZE) = none) :
    copyout pte va buf mem = (false, mem) := by
  obtain ⟨n, hn⟩ := Nat.exists_eq_succ_of_ne_zero (List.length_pos_iff.2 hbuf).ne'
  rw [copyout, hn, copyoutLoop_succ hbuf, hpte]

/-- A `clone` that goes makes a runnable thread with the next pid. -/
theorem sysClone_of_goes (hrun : s.kernel.Running p) (hgoes : s.CloneGoes p fcn arg stack) :
    ∃ np s', (s.kernel.ptable np).state = .unused ∧
      s.sysClone p fcn arg stack = some (s.kernel.nextpid, s') ∧ s'.kernel.Joined p np ∧
      (s'.kernel.ptable np).state = .runnable ∧ (s'.kernel.ptable np).pid = s.kernel.nextpid ∧
      (s'.kernel.ptable np).stack = stack.toNat := by
  obtain ⟨hwords, ⟨i, hi⟩, hfree, hmapped⟩ := hgoes
  rcases s.allocproc_cases with ⟨-, hnone⟩ | ⟨np, hold, -, ⟨hnil, -⟩ | ⟨v, next, -, halloc⟩⟩
  · exact absurd hi (hnone i)
  · exact absurd hnil hfree
  have hne : np ≠ p := by
    rintro rfl
    rw [hrun] at hold
    cases hold
  have hcopied := (s.copied_iff v next arg.toNat stack.toNat hne.symm).2 hmapped
  have hclone := s.clone_taken (p := p) arg.toNat stack.toNat halloc
  rw [hcopied] at hclone
  -- the entry of the thread and that of the caller after the two halves of `clone`
  have hself : (((s.taken np v next).kernel.cloneCopy p np stack.toNat).cloneReturn np
      true).1.ptable np = { (s.taken np v next).kernel.ptable np with
        pgdir := ((s.taken np v next).kernel.ptable p).pgdir
        sz := ((s.taken np v next).kernel.ptable p).sz
        state := .runnable
        parent := some p
        stack := stack.toNat } := by
    rw [Kernel.cloneReturn_ptable_self, Kernel.cloneCopy_ptable_self hne]
    rfl
  have hcaller : ((((s.taken np v next).kernel.cloneCopy p np stack.toNat).cloneReturn np
      true).1.ptable p).pgdir = ((s.taken np v next).kernel.ptable p).pgdir := by
    rw [Kernel.cloneReturn_ptable_of_ne hne.symm, Kernel.cloneCopy_ptable_parent hne]
  have hpid : ((s.taken np v next).kernel.ptable np).pid = s.kernel.nextpid :=
    congrArg Proc.pid (allocEntry_ptable_self s.kernel np)
  have hresult : (((s.taken np v next).kernel.cloneCopy p np stack.toNat).cloneReturn np true).2 =
      s.kernel.nextpid := by
    show (((s.taken np v next).kernel.cloneCopy p np stack.toNat).ptable np).pid = _
    rw [Kernel.cloneCopy_ptable_self hne, hpid]
  refine ⟨np, _, hold,
    sysClone_eq_some_iff.2 ⟨hwords, hclone.trans (Prod.ext hresult rfl)⟩, ⟨?_, ?_⟩, ?_, ?_, ?_⟩
  · exact congrArg Proc.parent hself
  · exact (congrArg Proc.pgdir hself).trans hcaller.symm
  · exact congrArg Proc.state hself
  · exact (congrArg Proc.pid hself).trans hpid
  · exact congrArg Proc.stack hself

/-- A `clone` that does not go returns -1. It may have written a word by then, but not when the
stack is at address 0. -/
theorem sysClone_of_not_goes (hrun : s.kernel.Running p) (hgoes : ¬ s.CloneGoes p fcn arg stack) :
    s.sysClone p fcn arg stack = none ∨ ∃ s', s.sysClone p fcn arg stack = some (-1, s') ∧
      s'.pte = s.pte ∧ (stack = 0 → s'.mem = s.mem) := by
  rcases hsys : s.sysClone p fcn arg stack with - | ⟨pid, s'⟩
  · exact .inl rfl
  obtain ⟨hwords, hclone⟩ := sysClone_eq_some_iff.1 hsys
  refine .inr ⟨s', ?_⟩
  rcases s.allocproc_cases with ⟨halloc, -⟩ |
    ⟨np, hold, -, ⟨-, halloc⟩ | ⟨v, next, hfree, halloc⟩⟩
  · rw [clone, halloc] at hclone
    cases hclone
    exact ⟨rfl, rfl, fun _ ↦ rfl⟩
  · rw [clone, halloc] at hclone
    cases hclone
    exact ⟨rfl, rfl, fun _ ↦ rfl⟩
  have hne : p ≠ np := by
    rintro rfl
    rw [hrun] at hold
    cases hold
  have hmapped : ¬ s.StackMapped p stack.toNat := fun hmapped ↦
    hgoes ⟨hwords, ⟨np, hold⟩, by rw [hfree]; exact List.cons_ne_nil v next, hmapped⟩
  have hcopied := mt (s.copied_iff v next arg.toNat stack.toNat hne).1 hmapped
  have htaken := s.clone_taken (p := p) arg.toNat stack.toNat halloc
  rw [Bool.not_eq_true] at hcopied
  rw [hcopied] at htaken
  obtain ⟨rfl, rfl⟩ := Prod.mk.inj (hclone.symm.trans htaken)
  refine ⟨rfl, rfl, fun hzero ↦ ?_⟩
  subst hzero
  have hpage : s.userPte p 0 = none :=
    Option.not_isSome_iff_eq_none.1 (mt stackMapped_zero_iff.2 hmapped)
  have hfirst : (s.taken np v next).userPte p (sptop 0 / PGSIZE) = none :=
    (congrFun (taken_userPte s p np v next) _).trans hpage
  have hbuf : ustack arg.toNat ≠ [] := List.cons_ne_nil _ _
  exact congrArg Prod.snd (copyout_of_none hbuf hfirst)

/-! ### What thread_create comes to -/

/-- The blocks after `thread_create` has called `malloc`. -/
theorem blocks_eq_iff (hfresh : stack ≠ 0 → stack.toNat ∉ blocks) :
    (if stack = 0 then blocks else insert stack.toNat blocks) = blocks ↔ stack = 0 := by
  split_ifs with hzero
  · exact iff_of_true rfl hzero
  · exact iff_of_false (fun heq ↦ hfresh hzero (Finset.insert_eq_self.1 heq)) hzero

/-- **When `thread_create` is clean**: `malloc` finds a block and `clone` goes, or neither. -/
theorem threadCreate_clean_iff (hrun : s.kernel.Running p) (hnext : 0 < s.kernel.nextpid)
    (hfresh : stack ≠ 0 → stack.toNat ∉ blocks) :
    s.Clean blocks p (s.threadCreate blocks p fcn arg stack) ↔
      (stack ≠ 0 ↔ s.CloneGoes p fcn arg stack) := by
  have hblocks := blocks_eq_iff hfresh
  by_cases hgoes : s.CloneGoes p fcn arg stack
  · obtain ⟨np, s', hold, hsys, hjoined, hstate, hpid, hstack⟩ := sysClone_of_goes hrun hgoes
    rw [threadCreate, hsys, iff_true_right hgoes]
    constructor
    · rintro (⟨-, i, -, -, -, -, b, hb, hb', -⟩ | ⟨hneg, -⟩) hzero
      · exact hb' (hblocks.2 hzero ▸ hb)
      · exact absurd hneg (not_lt.2 hnext.le)
    · intro hne
      refine .inl ⟨hnext, np, hold, hstate, hpid, hjoined, stack.toNat, ?_, hfresh hne, ?_⟩
      · rw [if_neg hne]
        exact Finset.mem_insert_self _ _
      · rw [hstack]
  · -- nobody gives the block back
    have hfailed : ∀ s', s'.pte = s.pte → (stack = 0 → s'.mem = s.mem) →
        (s.Clean blocks p (-1, s', if stack = 0 then blocks else insert stack.toNat blocks) ↔
          (stack ≠ 0 ↔ s.CloneGoes p fcn arg stack)) := by
      intro s' hpte hmem
      have hneg : (-1 : ℤ) < 0 := by decide
      rw [iff_false_right hgoes, not_not]
      constructor
      · rintro (⟨hpos, -⟩ | ⟨-, hsame, -⟩)
        · exact absurd hpos hneg.le.not_gt
        · exact hblocks.1 hsame
      · exact fun hzero ↦ .inr ⟨hneg, hblocks.2 hzero, hpte, hmem hzero⟩
    rcases sysClone_of_not_goes hrun hgoes with hsys | ⟨s', hsys, hpte, hmem⟩
    · rw [threadCreate, hsys]
      exact hfailed s rfl fun _ ↦ rfl
    · rw [threadCreate, hsys]
      exact hfailed s' hpte hmem

end Threads.Paged
