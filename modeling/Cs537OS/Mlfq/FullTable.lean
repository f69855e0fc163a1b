import Cs537OS.Mlfq.Scheduler

/-!
# `fork` on a full table

When `allocproc` finds no UNUSED entry its search has gone one entry past the table, and the levels
and counts that it initialises before it returns are those of this entry, which the table does not
have. `allocprocWrites` lists what `allocproc` writes to, path by path.

* `fork_not_harmless` — on every full table `fork` writes behind the table;
* `fork_of_full` — it returns -1 and leaves the entries of the table alone all the same, and what it
  writes behind them are the values that a new process starts with.
-/

open Xv6

namespace Mlfq

/-- What `allocproc` writes to in an entry. -/
inductive Field where
  | state
  | pid
  | inuse
  | priority
  | ticks (l : Fin 4)
  | waitTicks (l : Fin 4)
  | kstack
  | tf
  | context
deriving DecidableEq

/-- What `allocproc` writes to: the lock of the table, the next pid, a field of the entry with this
index, or the kernel stack of the new process. -/
inductive Place where
  | lock
  | nextpid
  | proc (i : ℕ) (f : Field)
  | kernelStack
deriving DecidableEq

/-- The place is in an entry of the table or in its lock. -/
def Place.InTable : Place → Prop
  | .lock => True
  | .proc i _ => i < NPROC
  | _ => False

/-- The level and the counts of the entry with index `i`. -/
def levelPlaces (i : ℕ) : List Place :=
  .proc i .priority :: (List.finRange 4).map (fun l ↦ .proc i (.ticks l)) ++
    (List.finRange 4).map fun l ↦ .proc i (.waitTicks l)

/-- What `allocproc` writes to, in order. The entry behind the table has the index NPROC. -/
def allocprocWrites (t : Table) (kstack : Bool) : List Place :=
  match (List.finRange NPROC).find? fun p ↦ (t p).state = .unused with
  | none => .lock :: levelPlaces NPROC ++ [.lock]
  | some p =>
    [.lock, .proc p .state, .proc p .pid, .nextpid, .proc p .inuse] ++ levelPlaces p ++
      [.lock, .proc p .kstack] ++
        if kstack then
          [.proc p .tf, .kernelStack, .proc p .context, .kernelStack]
        else
          [.proc p .state]

namespace Kernel

/-- What `fork` returns before the copy of the address space: -1 when `allocproc` has failed. -/
def forkReturn (k : Kernel) (kstack : Bool) : Option ℤ :=
  match (k.allocproc kstack).1 with
  | none => some (-1)
  | some _ => none

/-- The call of `fork` does no harm. -/
structure ForkHarmless (k : Kernel) (p : Slot) (kstack : Bool) : Prop where
  fails : k.forkReturn kstack = some (-1)
  entries : ∀ q, (k.fork p kstack).ptable q = k.ptable q
  writes : ∀ x ∈ allocprocWrites k.ptable kstack, x.InTable

variable {k : Kernel} {p : Slot} {kstack : Bool}

/-- The search of `allocproc` in a full table. -/
theorem find?_of_full (hfull : ∀ q, (k.ptable q).state ≠ .unused) :
    ((List.finRange NPROC).find? fun p ↦ (k.ptable p).state = .unused) = none :=
  List.find?_eq_none.2 fun q _ hq ↦ hfull q (of_decide_eq_true hq)

/-- **What `fork` does on a full table**: it fails and keeps the entries, and the entry behind the
table gets the values of a new process. -/
theorem fork_of_full (hfull : ∀ q, (k.ptable q).state ≠ .unused) :
    k.forkReturn kstack = some (-1) ∧ k.fork p kstack = { k with past := k.past.startLevels } := by
  have hnone : k.allocproc kstack = (none, { k with past := k.past.startLevels }) := by
    rw [allocproc, find?_of_full hfull]
  refine ⟨?_, ?_⟩
  · rw [forkReturn, hnone]
  · rw [fork, hnone]

/-- The level of the entry behind the table is written. -/
theorem past_written (hfull : ∀ q, (k.ptable q).state ≠ .unused) (kstack : Bool) :
    .proc NPROC .priority ∈ allocprocWrites k.ptable kstack := by
  rw [allocprocWrites, find?_of_full hfull]
  exact List.mem_append_left _ (List.mem_cons_of_mem _ (List.mem_append_left _ List.mem_cons_self))

/-- **`fork` on a full table is never harmless**: whatever the entries are, it writes behind
them. -/
theorem fork_not_harmless (hfull : ∀ q, (k.ptable q).state ≠ .unused) (p : Slot) (kstack : Bool) :
    ¬ k.ForkHarmless p kstack := fun hharmless ↦
  lt_irrefl NPROC (hharmless.writes _ (past_written hfull kstack))

/-- The first process runs and all the others sleep. -/
def allAsleep : Kernel :=
  { zeroed with ptable := fun q ↦
      { zeroProc with state := if q = initproc then .running else .sleeping } }

/-- No entry is UNUSED. -/
theorem allAsleep_full (q : Slot) : (allAsleep.ptable q).state ≠ .unused := by
  revert q
  decide

/-- A `fork` from the full table changes the memory behind it. -/
theorem allAsleep_fork_not_harmless : ¬ allAsleep.ForkHarmless initproc true :=
  fork_not_harmless allAsleep_full initproc true

/-- **A `fork` that writes behind the table.** -/
theorem fork_harmful : ¬ ∀ (k : Kernel) (p : Slot) (kstack : Bool),
    (∀ q, (k.ptable q).state ≠ .unused) → k.ForkHarmless p kstack := by
  intro hall
  have hharmless := hall allAsleep initproc true allAsleep_full
  exact lt_irrefl NPROC (hharmless.writes _ (past_written allAsleep_full true))

end Kernel

end Mlfq
