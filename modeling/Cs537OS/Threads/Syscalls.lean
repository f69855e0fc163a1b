import Cs537OS.Threads.Spawning
import Cs537OS.Xv6.Copyout
import Cs537OS.Xv6.Words

/-!
# The system calls of threads

What stands between a thread that makes a system call and the functions of the kernel: `argptr`,
which checks the words of the arguments, and the wrappers `sys_clone`, `sys_join`, `sys_cond_init`,
`sys_cond_wait` and `sys_cond_signal`. The wrappers mean to pass the size of what a word points to,
but it is the comparison `sizeof(x) < 0` that is passed, which is 0, and what `argptr` returns is
taken for the condition. So a word is let through when it is below the size of the process.

`clone` is followed through with the pages behind it (`Paged`): the kernel stack that `allocproc`
takes from the allocator and the two words that `copyout` writes to the stack of the thread. It runs
on one processor, with nobody else in between.
-/

open Xv6

namespace Threads

/-- The kernel with the pages that it hands out: the kernel stack of each entry, the free pages, the
user pages that each page directory maps, and what is in every page of user memory. -/
structure Paged where
  kernel : Kernel
  /-- 0 for none. -/
  kstack : Slot → ℕ
  freelist : List ℕ
  pte : ℕ → ℕ → Option ℕ
  mem : ℕ → ℕ → UInt8

/-- Check the word `i` of an argument as a pointer to a block of memory of `size` bytes, in a
process of size `sz`. -/
def argptr (sz : ℕ) (i : UInt32) (size : ℕ) : Option ℕ :=
  if i.toNat ≥ sz ∨ uint (i.toNat + size) > sz then none else some i.toNat

/-- What the wrappers pass for a size: `sizeof(x) < 0`. -/
def sizeArgument : ℕ := 0

namespace Paged

/-- The user memory of `p`: the frames that its pages are mapped to. -/
def userPte (s : Paged) (p : Slot) : ℕ → Option ℕ := s.pte (s.kernel.ptable p).pgdir

/-- User memory as `p` sees it. -/
def userView (s : Paged) (p : Slot) : ℕ → Option UInt8 := Paging.view PGSIZE (s.userPte p) s.mem

def sz (s : Paged) (p : Slot) : ℕ := (s.kernel.ptable p).sz

/-- Look in the process table for an UNUSED entry, make it an EMBRYO and give it a kernel stack. -/
def allocproc (s : Paged) : Option Slot × Paged :=
  match (List.finRange NPROC).find? fun p ↦ (s.kernel.ptable p).state = .unused with
  | none => (none, s)
  | some p =>
    match s.freelist with
    | [] => (none, { s with
        kernel := (s.kernel.allocEntry p).noKstack p
        kstack := Function.update s.kstack p 0 })
    | v :: next => (some p, { s with
        kernel := s.kernel.allocEntry p
        kstack := Function.update s.kstack p v
        freelist := next })

/-- The two words that the thread finds at the top of its stack. -/
def ustack (arg : ℕ) : List UInt8 := [0xffffffff, arg].flatMap wordBytes

/-- Where they go. -/
def sptop (stack : ℕ) : ℕ := uint (uint (stack + PGSIZE) - 2 * 4)

/-- `clone` of process `p`. The entry point of the thread goes to its trap frame. -/
def clone (s : Paged) (p : Slot) (arg stack : ℕ) : ℤ × Paged :=
  match s.allocproc with
  | (none, s) => (-1, s)
  | (some np, s) =>
    let k := s.kernel.cloneCopy p np stack
    let c := copyout (s.userPte p) (sptop stack) (ustack arg) s.mem
    let r := k.cloneReturn np c.1
    (r.2, { s with kernel := r.1, mem := c.2 })

/-- What `sys_clone` passes on, none when it returns -1 itself. -/
def sysClone (s : Paged) (p : Slot) (fcn arg stack : UInt32) : Option (ℤ × Paged) := do
  let _ ← argptr (s.sz p) fcn sizeArgument
  let arg ← argptr (s.sz p) arg sizeArgument
  let stack ← argptr (s.sz p) stack sizeArgument
  some (s.clone p arg stack)

end Paged

/-! ### What the wrappers check -/

/-- An argument is accepted if it lies in the process. -/
theorem argptr_eq_some_iff {sz j : ℕ} {i : UInt32} :
    argptr sz i sizeArgument = some j ↔ i.toNat < sz ∧ i.toNat = j := by
  have hsize : uint ((i.toNat : ℤ) + sizeArgument) = i.toNat := uint_add i.toNat_lt
  rw [argptr, hsize]
  split_ifs with hbad
  · refine iff_of_false (fun h ↦ by cases h) ?_
    omega
  · rw [Option.some_inj]
    exact (and_iff_right (by omega)).symm

namespace Paged

variable {s s' : Paged} {p i : Slot} {fcn arg stack : UInt32} {r : ℤ × Paged}

/-- **What `sys_clone` lets through**: three words below the size of the process. -/
theorem sysClone_eq_some_iff : s.sysClone p fcn arg stack = some r ↔
    (fcn.toNat < s.sz p ∧ arg.toNat < s.sz p ∧ stack.toNat < s.sz p) ∧
      s.clone p arg.toNat stack.toNat = r := by
  rw [sysClone]
  simp only [Option.bind_eq_bind, Option.bind_eq_some_iff, argptr_eq_some_iff, Option.some_inj]
  constructor
  · rintro ⟨_, ⟨hf, _⟩, _, ⟨ha, rfl⟩, _, ⟨hs, rfl⟩, rfl⟩
    exact ⟨⟨hf, ha, hs⟩, rfl⟩
  · rintro ⟨⟨hf, ha, hs⟩, rfl⟩
    exact ⟨fcn.toNat, ⟨hf, rfl⟩, arg.toNat, ⟨ha, rfl⟩, stack.toNat, ⟨hs, rfl⟩, rfl⟩

/-! ### allocproc -/

/-- What `allocproc` comes to: there is no entry, or no page for the kernel stack, or an EMBRYO with
the first free page. The entry is the one that is taken in the model without pages. -/
theorem allocproc_cases (s : Paged) :
    s.allocproc = (none, s) ∧ (∀ i, (s.kernel.ptable i).state ≠ .unused) ∨
      ∃ np, (s.kernel.ptable np).state = .unused ∧
        s.kernel.allocproc = (some np, s.kernel.allocEntry np) ∧
        (s.freelist = [] ∧ s.allocproc = (none, { s with
            kernel := (s.kernel.allocEntry np).noKstack np
            kstack := Function.update s.kstack np 0 }) ∨
          ∃ v next, s.freelist = v :: next ∧ s.allocproc = (some np, { s with
            kernel := s.kernel.allocEntry np
            kstack := Function.update s.kstack np v
            freelist := next })) := by
  rw [allocproc]
  rcases hfind : (List.finRange NPROC).find? fun p ↦ decide ((s.kernel.ptable p).state = .unused)
    with - | np
  · refine .inl ⟨rfl, fun i hi ↦ ?_⟩
    exact List.find?_eq_none.1 hfind i (List.mem_finRange i) (decide_eq_true hi)
  · refine .inr ⟨np, of_decide_eq_true (List.find?_some hfind :), ?_, ?_⟩
    · rw [Kernel.allocproc, hfind]
    obtain ⟨kernel, kstack, freelist, pte, mem⟩ := s
    rcases freelist with - | ⟨v, next⟩
    · exact .inl ⟨rfl, rfl⟩
    · exact .inr ⟨v, next, rfl, rfl⟩

end Paged

end Threads
