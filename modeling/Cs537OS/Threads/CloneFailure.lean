import Cs537OS.Threads.Syscalls

/-!
# A clone that fails

`clone` has two ways to fail. `allocproc` finds no entry or no page, and leaves everything as it
was. Or `copyout` comes to a page of the thread's stack that is not there. By then the entry has a
kernel stack, the caller for its parent, and is counted, and nothing of this is undone: the entry
stays an EMBRYO that `join` of the caller waits for and that never becomes a ZOMBIE.

`clone_unchanged_iff` says exactly when a failed `clone` changes nothing.
-/

open Xv6

namespace Threads.Paged

/-- Nothing has changed for `p` and for all others: what is free, what the entries hold (but those
that are not in use before and after), user memory, and that `join` returns when there is no thread
to wait for. -/
structure Unchanged (s : Paged) (p : Slot) (s' : Paged) : Prop where
  count : (s'.kernel.ptable p).countThread = (s.kernel.ptable p).countThread
  table : ∀ i, s'.kernel.ptable i = s.kernel.ptable i ∧ s'.kstack i = s.kstack i ∨
    (s.kernel.ptable i).state = .unused ∧ (s'.kernel.ptable i).state = .unused
  free : s'.freelist.Perm s.freelist
  pages : s'.pte = s.pte
  memory : s'.mem = s.mem
  join : (∀ q, ¬ s.kernel.Joined p q) → (s'.kernel.join p).2 = some (-1, none)

/-- The two words at the top of the thread's stack are in pages of user memory. -/
def StackMapped (s : Paged) (p : Slot) (stack : ℕ) : Prop :=
  ∀ i < 8, (s.userPte p (uint (sptop stack + i : ℕ) / PGSIZE)).isSome

/-- `clone` fails in `allocproc`, or finds the top of the stack. -/
def CloneSound (s : Paged) (p : Slot) (stack : ℕ) : Prop :=
  (∀ i, (s.kernel.ptable i).state ≠ .unused) ∨ s.freelist = [] ∨ s.StackMapped p stack

instance (s : Paged) (p : Slot) (stack : ℕ) : Decidable (s.CloneSound p stack) :=
  inferInstanceAs (Decidable (_ ∨ _ ∨ ∀ i < 8, _))

variable {s s' : Paged} {p np : Slot} {v : ℕ} {next : List ℕ} {r : ℤ × Paged}

/-- `join` has nothing to wait for when no entry is that of a thread of `p`. -/
theorem join_of_forall_not {k : Kernel} (h : ∀ q, ¬ k.Joined p q) :
    (k.join p).2 = some (-1, none) := by
  have hnone : k.zombieThread p = none :=
    List.find?_eq_none.2 fun q _ hq ↦ h q (of_decide_eq_true hq).1
  rw [Kernel.join, hnone]
  exact congrArg Prod.snd (if_pos (.inl h))

/-- A change of one entry that was UNUSED and is so again, which keeps its parent and its
directory. -/
theorem Unchanged.of_entry (hold : (s.kernel.ptable np).state = .unused)
    (hrun : (s.kernel.ptable p).state = .running)
    (hothers : ∀ i, i ≠ np → s'.kernel.ptable i = s.kernel.ptable i ∧ s'.kstack i = s.kstack i)
    (hnew : (s'.kernel.ptable np).state = .unused)
    (hparent : (s'.kernel.ptable np).parent = (s.kernel.ptable np).parent)
    (hpgdir : (s'.kernel.ptable np).pgdir = (s.kernel.ptable np).pgdir)
    (hfree : s'.freelist.Perm s.freelist) (hpages : s'.pte = s.pte) (hmem : s'.mem = s.mem) :
    Unchanged s p s' := by
  have hne : p ≠ np := by
    rintro rfl
    rw [hrun] at hold
    cases hold
  have hp := (hothers p hne).1
  refine ⟨by rw [hp], fun i ↦ ?_, hfree, hpages, hmem, fun h ↦ join_of_forall_not fun q hq ↦ h q ?_⟩
  · rcases eq_or_ne i np with rfl | hi
    · exact .inr ⟨hold, hnew⟩
    · exact .inl (hothers i hi)
  · rcases eq_or_ne q np with rfl | hq'
    · rwa [Kernel.Joined, hparent, hpgdir, hp] at hq
    · rwa [Kernel.Joined, (hothers q hq').1, hp] at hq

/-- The state of `clone` when it has an entry and a kernel stack. -/
def taken (s : Paged) (np : Slot) (v : ℕ) (next : List ℕ) : Paged :=
  { s with
    kernel := s.kernel.allocEntry np
    kstack := Function.update s.kstack np v
    freelist := next }

/-- The state of `clone` when there is no page for a kernel stack. -/
def givenBack (s : Paged) (np : Slot) : Paged :=
  { s with
    kernel := (s.kernel.allocEntry np).noKstack np
    kstack := Function.update s.kstack np 0 }

theorem allocEntry_ptable_self (k : Kernel) (np : Slot) :
    (k.allocEntry np).ptable np =
      { k.ptable np with state := .embryo, pid := k.nextpid, countThread := 0 } := by
  rw [Kernel.allocEntry, Kernel.modify_ptable_self]

theorem givenBack_ptable_self (s : Paged) (np : Slot) :
    (s.givenBack np).kernel.ptable np =
      { s.kernel.ptable np with state := .unused, pid := s.kernel.nextpid, countThread := 0 } := by
  rw [givenBack, Kernel.noKstack, Kernel.setState, Kernel.modify_ptable_self,
    allocEntry_ptable_self]

theorem givenBack_ptable_of_ne {i : Slot} (hi : i ≠ np) :
    (s.givenBack np).kernel.ptable i = s.kernel.ptable i := by
  rw [givenBack, Kernel.noKstack, Kernel.setState, Kernel.modify_ptable_of_ne hi,
    Kernel.allocEntry_ptable_of_ne hi]

/-- An entry that goes back leaves nothing behind. -/
theorem givenBack_unchanged (hold : (s.kernel.ptable np).state = .unused)
    (hrun : (s.kernel.ptable p).state = .running) : Unchanged s p (s.givenBack np) := by
  have hself := s.givenBack_ptable_self np
  refine .of_entry hold hrun
    (fun i hi ↦ ⟨givenBack_ptable_of_ne hi, Function.update_of_ne hi ..⟩) ?_
    ?_ ?_ (.refl _) rfl rfl <;> rw [hself]

/-- `copyout` of `clone`, after the thread has been filled in. -/
def copied (s : Paged) (p np : Slot) (v : ℕ) (next : List ℕ) (arg stack : ℕ) :
    Bool × (ℕ → ℕ → UInt8) :=
  copyout ((s.taken np v next).userPte p) (sptop stack) (ustack arg) s.mem

/-- What `clone` comes to when it has an entry and a kernel stack. -/
theorem clone_taken (arg stack : ℕ) (halloc : s.allocproc = (some np, s.taken np v next)) :
    s.clone p arg stack =
      ((((s.taken np v next).kernel.cloneCopy p np stack).cloneReturn np
          (s.copied p np v next arg stack).1).2,
        { s.taken np v next with
          kernel := (((s.taken np v next).kernel.cloneCopy p np stack).cloneReturn np
            (s.copied p np v next arg stack).1).1
          mem := (s.copied p np v next arg stack).2 }) := by
  rw [clone, halloc]
  rfl

theorem taken_ptable_of_ne {i : Slot} (hi : i ≠ np) :
    (s.taken np v next).kernel.ptable i = s.kernel.ptable i :=
  Kernel.allocEntry_ptable_of_ne hi

/-- What `copyout` of `clone` comes to. -/
theorem copied_iff (v : ℕ) (next : List ℕ) (arg stack : ℕ) (hne : p ≠ np) :
    (s.copied p np v next arg stack).1 = true ↔ s.StackMapped p stack := by
  have hpte : (s.taken np v next).userPte p = s.userPte p :=
    congrArg (fun a : Proc ↦ s.pte a.pgdir) (taken_ptable_of_ne hne)
  have hlen : (ustack arg).length = 8 := length_flatMap_wordBytes _
  have hva : sptop stack < 2 ^ 32 := uint_lt _
  rw [copied, hpte, copyout_iff hva, hlen]
  rfl

/-- **When a failed `clone` changes nothing**, for all words that `sys_clone` lets through. -/
theorem clone_unchanged_iff {fcn arg stack : UInt32}
    (hlet : s.sysClone p fcn arg stack = some r)
    (hrun : (s.kernel.ptable p).state = .running) (hpid : s.kernel.nextpid ≠ -1) :
    (r.1 = -1 → Unchanged s p r.2) ↔ s.CloneSound p stack.toNat := by
  obtain ⟨-, rfl⟩ := sysClone_eq_some_iff.1 hlet
  rcases s.allocproc_cases with ⟨halloc, hnone⟩ | ⟨np, hold, -, hfull⟩
  · refine iff_of_true (fun _ ↦ ?_) (.inl hnone)
    have hclone : s.clone p arg.toNat stack.toNat = (-1, s) := by
      rw [clone, halloc]
    rw [hclone]
    exact ⟨rfl, fun _ ↦ .inl ⟨rfl, rfl⟩, .refl _, rfl, rfl, join_of_forall_not⟩
  rcases hfull with ⟨hnil, halloc⟩ | ⟨v, next, hfree, halloc⟩
  · refine iff_of_true (fun _ ↦ ?_) (.inr (.inl hnil))
    have hclone : s.clone p arg.toNat stack.toNat = (-1, s.givenBack np) := by
      rw [clone, halloc]
      rfl
    rw [hclone]
    exact givenBack_unchanged hold hrun
  · have hne : p ≠ np := by
      rintro rfl
      rw [hrun] at hold
      cases hold
    have hmapped := s.copied_iff v next arg.toNat stack.toNat hne
    rw [clone_taken arg.toNat stack.toNat halloc]
    rcases hok : (s.copied p np v next arg.toNat stack.toNat).1 with - | -
    · -- the thread is counted, and nobody takes that back
      rw [hok] at hmapped
      refine iff_of_false (fun h ↦ ?_) ?_
      · have hcount := (h rfl).count
        have hone := congrArg Proc.countThread
          (Kernel.cloneCopy_ptable_parent (k := (s.taken np v next).kernel)
            hne.symm stack.toNat)
        rw [taken_ptable_of_ne hne] at hone
        have habsurd : (s.kernel.ptable p).countThread + 1 = (s.kernel.ptable p).countThread :=
          hone.symm.trans hcount
        omega
      · rintro (hnone | hnil | hstack)
        · exact hnone np hold
        · rw [hfree] at hnil
          cases hnil
        · exact Bool.false_ne_true (hmapped.2 hstack)
    · rw [hok] at hmapped
      refine iff_of_true (fun h ↦ absurd ?_ hpid) (.inr (.inr (hmapped.1 rfl)))
      have hpid' : (((s.taken np v next).kernel.cloneCopy p np stack.toNat).ptable np).pid =
          s.kernel.nextpid := by
        rw [Kernel.cloneCopy_ptable_self hne.symm]
        exact congrArg Proc.pid (allocEntry_ptable_self s.kernel np)
      exact hpid'.symm.trans h

/-- Init with three pages, and an allocator with some free pages. -/
def initPages (freelist : List ℕ) : Paged where
  kernel := ((Kernel.userinit 1).setState initproc .running).modify initproc fun a ↦
    { a with sz := 3 * PGSIZE }
  kstack _ := 0
  freelist := freelist
  pte _ n := if n < 3 then some (0x100000 + n * PGSIZE) else none
  mem _ _ := 0

/-- A stack whose top is above the last page: the words are let through, and `clone` fails and
counts the thread. -/
theorem initPages_changed :
    ¬ ∀ r, (initPages [0x200000]).sysClone initproc 0 0 0x2008 = some r → r.1 = -1 →
      Unchanged (initPages [0x200000]) initproc r.2 := by
  intro h
  obtain ⟨r, hr⟩ : ∃ r, (initPages [0x200000]).sysClone initproc 0 0 0x2008 = some r :=
    Option.isSome_iff_exists.1 (by decide +kernel)
  have hfail : ∀ r ∈ (initPages [0x200000]).sysClone initproc 0 0 0x2008,
      r.1 = -1 ∧ (r.2.kernel.ptable initproc).countThread = 1 := by decide +kernel
  obtain ⟨hneg, hcount⟩ := hfail r hr
  have hsame := (h r hr hneg).count
  rw [hcount] at hsame
  exact absurd hsame (by decide +kernel)

/-- The same with no UNUSED entry left. -/
def fullPages (freelist : List ℕ) : Paged :=
  { initPages freelist with
    kernel := { (initPages freelist).kernel with
      ptable i := if i = initproc then (initPages freelist).kernel.ptable i else
        { (initPages freelist).kernel.ptable i with state := .sleeping, pid := i + 1 } } }

/-- With no page for a kernel stack nothing changes, and with no entry for the thread neither. When
the top of the stack is mapped the thread is made. -/
theorem initPages_unchanged :
    (∃ r, (initPages []).sysClone initproc 0 0 0x2008 = some r ∧
        r.1 = -1 ∧ Unchanged (initPages []) initproc r.2) ∧
      (∃ r, (fullPages [0x200000]).sysClone initproc 0 0 0x2008 = some r ∧
        r.1 = -1 ∧ Unchanged (fullPages [0x200000]) initproc r.2) ∧
      ∃ r, (initPages [0x200000]).sysClone initproc 0 0 0x2000 = some r ∧
        r.1 = 2 ∧ (r.1 = -1 → Unchanged (initPages [0x200000]) initproc r.2) := by
  have hlet : ∀ (s : Paged) (stack : UInt32), (s.sysClone initproc 0 0 stack).isSome →
      ∃ r, s.sysClone initproc 0 0 stack = some r := fun s stack ↦ Option.isSome_iff_exists.1
  obtain ⟨r, hr⟩ := hlet (initPages []) 0x2008 (by decide +kernel)
  obtain ⟨r', hr'⟩ := hlet (fullPages [0x200000]) 0x2008 (by decide +kernel)
  obtain ⟨r'', hr''⟩ := hlet (initPages [0x200000]) 0x2000 (by decide +kernel)
  have hneg : ∀ r ∈ (initPages []).sysClone initproc 0 0 0x2008, r.1 = -1 := by decide +kernel
  have hneg' : ∀ r ∈ (fullPages [0x200000]).sysClone initproc 0 0 0x2008, r.1 = -1 := by
    decide +kernel
  have hpid : ∀ r ∈ (initPages [0x200000]).sysClone initproc 0 0 0x2000, r.1 = 2 := by
    decide +kernel
  have hfull : (fullPages [0x200000]).CloneSound initproc 0x2008 := by decide +kernel
  have hmapped : (initPages [0x200000]).CloneSound initproc 0x2000 := by decide +kernel
  refine ⟨⟨r, hr, hneg r hr, ?_⟩, ⟨r', hr', hneg' r' hr', ?_⟩, ⟨r'', hr'', hpid r'' hr'', ?_⟩⟩
  · exact (clone_unchanged_iff hr (by decide +kernel) (by decide +kernel)).2 (.inr (.inl rfl))
      (hneg r hr)
  · exact (clone_unchanged_iff hr' (by decide +kernel) (by decide +kernel)).2 hfull (hneg' r' hr')
  · exact (clone_unchanged_iff hr'' (by decide +kernel) (by decide +kernel)).2 hmapped

end Threads.Paged
