import Mathlib.Data.Fintype.Basic
import Mathlib.Data.List.FinRange
import Cs537OS.Xv6.Basic

/-!
# Processes of the MLFQ kernel

The process table of the kernel with the multi-level feedback queue and the calls that work on it.
An entry carries its priority level and, for each level, the ticks it has used and the ticks it has
waited.

`fork` takes three steps, as a process can lose the processor between them: `allocproc` marks an
entry as EMBRYO, the copy of the memory makes it RUNNABLE or gives it up, and the call returns. Page
tables, files and names are left out, and so is the reset of the channel when a process returns from
`sleep`, because nobody looks at the channel of a process that does not sleep.

When the table is full `allocproc` initialises the entry behind the last one, which the table does
not have; `Kernel.past` is the memory there.
-/

open Xv6

namespace Mlfq

/-- The quantum of each level. -/
def clkPerPrio (l : ℕ) : ℕ := [1000, 32, 16, 8].getD l 0

/-- How long an entry waits at each level before it is raised. -/
def clkWait (l : ℕ) : ℤ := [500, 320, 160, 0].getD l 0

/-- An entry of the process table. -/
structure Proc where
  state : ProcState
  pid : ℤ
  parent : Option Slot
  chan : Chan
  killed : Bool
  priority : ℕ
  /-- The ticks used at each level, as `int`. -/
  ticks : ℕ → ℤ
  /-- The ticks waited at each level. -/
  waitTicks : ℕ → ℤ
  inuse : Bool

/-- A process starts at the highest level with all counts zero. -/
def Proc.startLevels (a : Proc) : Proc :=
  { a with priority := 3, ticks := fun _ ↦ 0, waitTicks := fun _ ↦ 0 }

/-- The process table. -/
abbrev Table := Slot → Proc

/-- The call a process is in the middle of. -/
inductive Call where
  | user
  | fork (np : Slot)
  /-- At the end of `fork`: the child is RUNNABLE, or there is none. -/
  | forked
  | wait
deriving DecidableEq

/-- The processes of the kernel. -/
structure Kernel where
  ptable : Table
  /-- The memory behind the table, read as an entry. -/
  past : Proc
  nextpid : ℤ
  call : Slot → Call

/-- Change one entry of a table. -/
def Table.modify (t : Table) (p : Slot) (f : Proc → Proc) : Table :=
  Function.update t p (f (t p))

theorem Table.modify_self {t : Table} {p : Slot} {f : Proc → Proc} :
    Table.modify t p f p = f (t p) :=
  Function.update_self _ _ _

theorem Table.modify_of_ne {t : Table} {p q : Slot} {f : Proc → Proc} (hq : q ≠ p) :
    Table.modify t p f q = t q :=
  Function.update_of_ne hq _ _

namespace Kernel

def modify (k : Kernel) (p : Slot) (f : Proc → Proc) : Kernel :=
  { k with ptable := Table.modify k.ptable p f }

def setState (k : Kernel) (p : Slot) (s : ProcState) : Kernel :=
  k.modify p fun a ↦ { a with state := s }

def setCall (k : Kernel) (p : Slot) (c : Call) : Kernel :=
  { k with call := Function.update k.call p c }

/-! ### Sleeping and waking -/

/-- Wake up all processes sleeping on `chan`. -/
def wakeup1 (k : Kernel) (chan : Chan) : Kernel :=
  { k with
    ptable := fun i ↦
      if (k.ptable i).state = .sleeping ∧ (k.ptable i).chan = chan then
        { k.ptable i with state := .runnable }
      else
        k.ptable i }

/-- Go to sleep on `chan`. -/
def sleep (k : Kernel) (p : Slot) (chan : Chan) : Kernel :=
  k.modify p fun a ↦ { a with chan := chan, state := .sleeping }

/-- Kill the process with the given pid: the first entry with it, woken if it sleeps. -/
def kill (k : Kernel) (pid : ℤ) : Kernel :=
  match (List.finRange NPROC).find? fun p ↦ (k.ptable p).pid = pid with
  | none => k
  | some p => k.modify p fun a ↦
      { a with
        killed := true
        state := if a.state = .sleeping then .runnable else a.state }

/-! ### New processes -/

/-- What `allocproc` does to the entry it has found. -/
def allocEntry (k : Kernel) (p : Slot) : Kernel :=
  { k with nextpid := k.nextpid + 1 }.modify p fun a ↦
    { a with state := .embryo, pid := k.nextpid, inuse := false }.startLevels

/-- Look in the process table for an UNUSED entry and make it an EMBRYO; it goes back when no kernel
stack is to be had. -/
def allocproc (k : Kernel) (kstack : Bool) : Option Slot × Kernel :=
  match (List.finRange NPROC).find? fun p ↦ (k.ptable p).state = .unused with
  | none => (none, { k with past := k.past.startLevels })
  | some p =>
    if kstack then (some p, k.allocEntry p) else (none, (k.allocEntry p).setState p .unused)

/-- `fork` up to the copy. -/
def fork (k : Kernel) (p : Slot) (kstack : Bool) : Kernel :=
  match k.allocproc kstack with
  | (none, k') => k'
  | (some np, k') => k'.setCall p (.fork np)

/-- `fork` from the copy of the address space, which succeeds or fails, to the point where the child
is RUNNABLE. Returns the pid of the child or -1. -/
def forkCopy (k : Kernel) (p np : Slot) (copied : Bool) : Kernel × ℤ :=
  if copied then
    (k.modify np fun a ↦ { a with parent := some p, state := .runnable }, (k.ptable np).pid)
  else
    (k.setState np .unused, -1)

/-! ### Exiting and waiting -/

/-- One turn of the loop of `exit` of `p`, which passes abandoned children to init. -/
def passChild (p : Slot) (k : Kernel) (q : Slot) : Kernel :=
  if (k.ptable q).parent = some p then
    let k' := k.modify q fun a ↦ { a with parent := some initproc }
    if (k'.ptable q).state = .zombie then k'.wakeup1 (.proc initproc) else k'
  else
    k

/-- Exit the process `p`, which is not the first one. -/
def exit (k : Kernel) (p : Slot) : Kernel :=
  let k' := k.wakeup1 (.ofProc (k.ptable p).parent)
  let k' := (List.finRange NPROC).foldl (passChild p) k'
  k'.setState p .zombie

/-- The zombie that one scan of `wait` finds. -/
def zombieChild (k : Kernel) (p : Slot) : Option Slot :=
  (List.finRange NPROC).find? fun q ↦
    (k.ptable q).parent = some p ∧ (k.ptable q).state = .zombie

/-- One scan of `wait`: returns the pid of a child that has exited, -1 when there is none to wait
for, or goes to sleep. -/
def wait (k : Kernel) (p : Slot) : Kernel × Option ℤ :=
  match k.zombieChild p with
  | some q =>
    (k.modify q fun a ↦ { a with state := .unused, pid := 0, parent := none, killed := false },
      some (k.ptable q).pid)
  | none =>
    if (∀ q, (k.ptable q).parent ≠ some p) ∨ (k.ptable p).killed then
      (k, some (-1))
    else
      (k.sleep p (.proc p), none)

end Kernel

/-! ### What the calls leave alone -/

/-- The entry keeps its level and its counts, and if it is in use it was in use before, by the same
process. -/
structure Proc.Kept (a b : Proc) : Prop where
  priority : b.priority = a.priority
  ticks : b.ticks = a.ticks
  waitTicks : b.waitTicks = a.waitTicks
  same : b.state ≠ .unused → b.pid = a.pid ∧ a.state ≠ .unused

theorem Proc.Kept.refl (a : Proc) : a.Kept a := ⟨rfl, rfl, rfl, fun h ↦ ⟨rfl, h⟩⟩

theorem Proc.Kept.trans {a b c : Proc} (hab : a.Kept b) (hbc : b.Kept c) : a.Kept c where
  priority := hbc.priority.trans hab.priority
  ticks := hbc.ticks.trans hab.ticks
  waitTicks := hbc.waitTicks.trans hab.waitTicks
  same hc := by
    obtain ⟨hpid, hb⟩ := hbc.same hc
    obtain ⟨hpid', ha⟩ := hab.same hb
    exact ⟨hpid.trans hpid', ha⟩

/-- Nobody but its parent, or the process itself, changes the state of the entry. -/
def Proc.Settled (a : Proc) : Prop := a.state = .embryo ∨ a.state = .running

/-- A settled entry is not free, asleep or dead. -/
theorem Proc.Settled.ne {a : Proc} (ha : a.Settled) :
    a.state ≠ .unused ∧ a.state ≠ .sleeping ∧ a.state ≠ .zombie := by
  rcases ha with h | h <;> rw [h] <;> exact ⟨nofun, nofun, nofun⟩

namespace Kernel

variable {k : Kernel} {p q : Slot}

theorem modify_ptable_self {f : Proc → Proc} : (k.modify p f).ptable p = f (k.ptable p) :=
  Table.modify_self

theorem modify_ptable_of_ne {f : Proc → Proc} (hq : q ≠ p) :
    (k.modify p f).ptable q = k.ptable q :=
  Table.modify_of_ne hq

theorem modify_kept {f : Proc → Proc} (hf : (k.ptable p).Kept (f (k.ptable p))) (q : Slot) :
    (k.ptable q).Kept ((k.modify p f).ptable q) := by
  rcases eq_or_ne q p with rfl | hq
  · rwa [modify_ptable_self]
  · rw [modify_ptable_of_ne hq]
    exact .refl _

/-- An entry that is in use can get any state. -/
theorem setState_kept (hp : (k.ptable p).state ≠ .unused) (s : ProcState) (q : Slot) :
    (k.ptable q).Kept ((k.setState p s).ptable q) :=
  modify_kept ⟨rfl, rfl, rfl, fun _ ↦ ⟨rfl, hp⟩⟩ q

theorem setState_unused_kept (p q : Slot) : (k.ptable q).Kept ((k.setState p .unused).ptable q) :=
  modify_kept ⟨rfl, rfl, rfl, fun h ↦ absurd rfl h⟩ q

theorem sleep_kept (hp : (k.ptable p).state ≠ .unused) (c : Chan) (q : Slot) :
    (k.ptable q).Kept ((k.sleep p c).ptable q) :=
  modify_kept ⟨rfl, rfl, rfl, fun _ ↦ ⟨rfl, hp⟩⟩ q

theorem wakeup1_kept (c : Chan) (q : Slot) : (k.ptable q).Kept ((k.wakeup1 c).ptable q) := by
  dsimp only [wakeup1]
  split_ifs with h
  · refine ⟨rfl, rfl, rfl, fun _ ↦ ⟨rfl, ?_⟩⟩
    rw [h.1]
    exact nofun
  · exact .refl _

theorem wakeup1_of_settled {c : Chan} (hq : (k.ptable q).Settled) :
    (k.wakeup1 c).ptable q = k.ptable q :=
  if_neg fun h ↦ hq.ne.2.1 h.1

theorem kill_kept (pid : ℤ) (q : Slot) : (k.ptable q).Kept ((k.kill pid).ptable q) := by
  rw [kill]
  split
  · exact .refl _
  · refine modify_kept ⟨rfl, rfl, rfl, fun h ↦ ⟨rfl, fun hun ↦ h ?_⟩⟩ q
    show (if _ then _ else _) = _
    rw [hun]
    rfl

theorem kill_call (pid : ℤ) : (k.kill pid).call = k.call := by
  rw [kill]
  split <;> rfl

theorem kill_nextpid (pid : ℤ) : (k.kill pid).nextpid = k.nextpid := by
  rw [kill]
  split <;> rfl

/-- Only a sleeping process gets another state when it is killed. -/
theorem kill_state_of_settled {pid : ℤ} (hq : (k.ptable q).Settled) :
    ((k.kill pid).ptable q).state = (k.ptable q).state := by
  rw [kill]
  split
  · rfl
  · next p _ =>
    rcases eq_or_ne q p with rfl | hqp
    · rw [modify_ptable_self]
      exact if_neg hq.ne.2.1
    · rw [modify_ptable_of_ne hqp]

/-- An UNUSED entry that `allocproc` has given to a new process. -/
structure Fresh (k k' : Kernel) (q : Slot) : Prop where
  unused : (k.ptable q).state = .unused
  priority : (k'.ptable q).priority = 3
  ticks : (k'.ptable q).ticks = fun _ ↦ 0
  pid : (k'.ptable q).pid = k.nextpid
  nextpid : k'.nextpid = k.nextpid + 1

/-- What a call does to the table: every entry is kept, or it is a new process. -/
structure Frame (k k' : Kernel) : Prop where
  nextpid : k.nextpid ≤ k'.nextpid
  entry : ∀ q, (k.ptable q).Kept (k'.ptable q) ∨ Fresh k k' q

theorem Frame.of_kept {k' : Kernel} (hpid : k'.nextpid = k.nextpid)
    (h : ∀ q, (k.ptable q).Kept (k'.ptable q)) : Frame k k' :=
  ⟨hpid.ge, fun q ↦ .inl (h q)⟩

/-- An entry in use is kept. -/
theorem Frame.kept {k' : Kernel} (h : Frame k k') (hq : (k.ptable q).state ≠ .unused) :
    (k.ptable q).Kept (k'.ptable q) :=
  (h.entry q).resolve_right fun hfresh ↦ hq hfresh.unused

/-- The entry that `allocproc` has found is a new process, in whatever state it leaves it. -/
theorem allocEntry_frame {k' : Kernel} (hp : (k.ptable p).state = .unused)
    (hself : ∃ s, k'.ptable p = { (k.allocEntry p).ptable p with state := s })
    (hne : ∀ q ≠ p, k'.ptable q = k.ptable q) (hpid : k'.nextpid = k.nextpid + 1) : Frame k k' := by
  refine ⟨by omega, fun q ↦ ?_⟩
  rcases eq_or_ne q p with rfl | hq
  · obtain ⟨s, hself⟩ := hself
    have hentry : (k.allocEntry q).ptable q =
        { k.ptable q with state := .embryo, pid := k.nextpid, inuse := false }.startLevels :=
      modify_ptable_self
    rw [hentry] at hself
    exact .inr ⟨hp, by rw [hself]; rfl, by rw [hself]; rfl, by rw [hself]; rfl, hpid⟩
  · rw [hne q hq]
    exact .inl (.refl _)

/-- `allocproc` makes at most one new process. -/
theorem allocproc_frame (kstack : Bool) : Frame k (k.allocproc kstack).2 := by
  rw [allocproc]
  split
  · exact .of_kept rfl fun q ↦ .refl _
  · next p hfind =>
    have hp := List.find?_some hfind
    have hunused : (k.ptable p).state = .unused := of_decide_eq_true hp
    have hne : ∀ q ≠ p, (k.allocEntry p).ptable q = k.ptable q := fun q hq ↦ modify_ptable_of_ne hq
    split_ifs
    · exact allocEntry_frame hunused ⟨_, rfl⟩ hne rfl
    · refine allocEntry_frame hunused ⟨.unused, modify_ptable_self⟩ (fun q hq ↦ ?_) rfl
      exact (modify_ptable_of_ne hq).trans (hne q hq)

theorem allocproc_call (kstack : Bool) : (k.allocproc kstack).2.call = k.call := by
  rw [allocproc]
  split
  · rfl
  · split_ifs <;> rfl

/-- The entry that `allocproc` finds is not a settled one. -/
theorem allocproc_of_settled {kstack : Bool} (hq : (k.ptable q).Settled) :
    (k.allocproc kstack).2.ptable q = k.ptable q := by
  rw [allocproc]
  split
  · rfl
  · next np hfind =>
    have hnp := List.find?_some hfind
    have hne : q ≠ np := by
      rintro rfl
      exact hq.ne.1 (of_decide_eq_true hnp)
    have halloc : (k.allocEntry np).ptable q = k.ptable q := modify_ptable_of_ne hne
    split_ifs
    · exact halloc
    · exact (modify_ptable_of_ne hne).trans halloc

/-- The entry that `allocproc` returns was UNUSED and is an EMBRYO. -/
theorem state_of_allocproc {kstack : Bool} {np : Slot} {k' : Kernel}
    (h : k.allocproc kstack = (some np, k')) :
    (k.ptable np).state = .unused ∧ (k'.ptable np).state = .embryo := by
  rw [allocproc] at h
  split at h
  · cases h
  · next found hfind =>
    have hfound := List.find?_some hfind
    split_ifs at h
    · obtain ⟨hnp, rfl⟩ := Prod.mk.inj h
      obtain rfl : found = np := Option.some.inj hnp
      refine ⟨of_decide_eq_true hfound, ?_⟩
      show (Kernel.ptable (Kernel.modify _ found _) found).state = _
      rw [modify_ptable_self]
      rfl
    · cases (Prod.mk.inj h).1

/-- To the table the first part of `fork` is `allocproc`. -/
theorem fork_ptable (kstack : Bool) : (k.fork p kstack).ptable = (k.allocproc kstack).2.ptable := by
  rw [fork]
  split <;> next h => exact (congrArg (fun r ↦ r.2.ptable) h).symm

theorem fork_frame (kstack : Bool) : Frame k (k.fork p kstack) := by
  have h : Frame k (k.allocproc kstack).2 := allocproc_frame kstack
  rw [fork]
  split <;> rename_i halloc <;> rw [halloc] at h
  · exact h
  · exact ⟨h.nextpid, fun q ↦ (h.entry q).imp_right fun hf ↦ ⟨hf.1, hf.2, hf.3, hf.4, hf.5⟩⟩

/-- The calls that processes are in the middle of, after `fork`. -/
theorem fork_call {kstack : Bool} {c : Slot} (h : (k.fork p kstack).call q = .fork c) :
    k.call q = .fork c ∨
      q = p ∧ (k.ptable c).state = .unused ∧ ((k.fork p kstack).ptable c).state = .embryo := by
  have hcall : (k.allocproc kstack).2.call = k.call := allocproc_call kstack
  rw [fork] at h ⊢
  split at h <;> rename_i halloc <;> rw [halloc] at hcall
  · rw [hcall] at h
    exact .inl h
  · next np k' =>
    change Function.update k'.call p (.fork np) q = .fork c at h
    rcases eq_or_ne q p with rfl | hq
    · rw [Function.update_self] at h
      cases h
      obtain ⟨hunused, hembryo⟩ := state_of_allocproc halloc
      exact .inr ⟨rfl, hunused, hembryo⟩
    · rw [Function.update_of_ne hq, hcall] at h
      exact .inl h

/-- The copy makes the child RUNNABLE or gives its entry up, -/
theorem forkCopy_kept {np : Slot} (hnp : (k.ptable np).state ≠ .unused) (copied : Bool) (q : Slot) :
    (k.ptable q).Kept ((k.forkCopy p np copied).1.ptable q) := by
  rw [forkCopy]
  split_ifs
  · exact modify_kept ⟨rfl, rfl, rfl, fun _ ↦ ⟨rfl, hnp⟩⟩ q
  · exact setState_unused_kept np q

/-- and touches no other entry. -/
theorem forkCopy_ptable_of_ne {np : Slot} {copied : Bool} (hq : q ≠ np) :
    (k.forkCopy p np copied).1.ptable q = k.ptable q := by
  rw [forkCopy]
  split_ifs <;> exact modify_ptable_of_ne hq

theorem forkCopy_call (np : Slot) (copied : Bool) : (k.forkCopy p np copied).1.call = k.call := by
  rw [forkCopy]
  split_ifs <;> rfl

theorem forkCopy_nextpid (np : Slot) (copied : Bool) :
    (k.forkCopy p np copied).1.nextpid = k.nextpid := by
  rw [forkCopy]
  split_ifs <;> rfl

/-! ### `exit` and `wait` -/

/-- What the turns of the loop of `exit` have in common with its other steps. -/
structure Quiet (k k' : Kernel) : Prop where
  kept : ∀ q, (k.ptable q).Kept (k'.ptable q)
  state : ∀ q, (k.ptable q).Settled → (k'.ptable q).state = (k.ptable q).state
  call : k'.call = k.call
  nextpid : k'.nextpid = k.nextpid

theorem Quiet.refl (k : Kernel) : Quiet k k := ⟨fun _ ↦ .refl _, fun _ _ ↦ rfl, rfl, rfl⟩

theorem Quiet.settled {k' : Kernel} (h : Quiet k k') (hq : (k.ptable q).Settled) :
    (k'.ptable q).Settled := by
  rw [Proc.Settled, h.state q hq]
  exact hq

theorem Quiet.trans {k₁ k₂ k₃ : Kernel} (h : Quiet k₁ k₂) (h' : Quiet k₂ k₃) : Quiet k₁ k₃ where
  kept q := (h.kept q).trans (h'.kept q)
  state q hq := (h'.state q (h.settled hq)).trans (h.state q hq)
  call := h'.call.trans h.call
  nextpid := h'.nextpid.trans h.nextpid

theorem wakeup1_quiet (c : Chan) : Quiet k (k.wakeup1 c) :=
  ⟨wakeup1_kept c, fun _ hq ↦ congrArg Proc.state (wakeup1_of_settled hq), rfl, rfl⟩

theorem kill_quiet (pid : ℤ) : Quiet k (k.kill pid) :=
  ⟨kill_kept pid, fun _ ↦ kill_state_of_settled, kill_call pid, kill_nextpid pid⟩

theorem passChild_quiet (p q : Slot) : Quiet k (passChild p k q) := by
  have hparent : Quiet k (k.modify q fun a ↦ { a with parent := some initproc }) := by
    refine ⟨modify_kept ⟨rfl, rfl, rfl, fun h ↦ ⟨rfl, h⟩⟩, fun r _ ↦ ?_, rfl, rfl⟩
    rcases eq_or_ne r q with rfl | hr
    · rw [modify_ptable_self]
    · rw [modify_ptable_of_ne hr]
  rw [passChild]
  dsimp only
  split_ifs
  · exact hparent.trans (wakeup1_quiet _)
  · exact hparent
  · exact .refl k

/-- `exit` but for the last assignment. -/
theorem exit_eq (p : Slot) : ∃ k', Quiet k k' ∧ k.exit p = k'.setState p .zombie := by
  refine ⟨_, ?_, rfl⟩
  generalize List.finRange NPROC = l
  have hwake : Quiet k (k.wakeup1 (.ofProc (k.ptable p).parent)) := wakeup1_quiet _
  generalize k.wakeup1 (.ofProc (k.ptable p).parent) = k' at hwake ⊢
  induction l generalizing k' with
  | nil => exact hwake
  | cons q l ih => exact ih _ (hwake.trans (passChild_quiet p q))

/-- What one scan of `wait` does. -/
theorem wait_cases {k' : Kernel} {r : Option ℤ} (h : k.wait p = (k', r)) :
    (r.isSome ∧ Quiet k k') ∨ r = none ∧ k' = k.sleep p (.proc p) := by
  rw [wait] at h
  split at h
  · next z hfind =>
    have hz := List.find?_some hfind
    have hzombie : (k.ptable z).state = .zombie := (of_decide_eq_true hz).2
    obtain ⟨rfl, rfl⟩ := Prod.mk.inj h
    refine .inl ⟨rfl, modify_kept ⟨rfl, rfl, rfl, fun h ↦ absurd rfl h⟩, fun q hq ↦ ?_, rfl, rfl⟩
    rw [modify_ptable_of_ne]
    rintro rfl
    exact hq.ne.2.2 hzombie
  · split_ifs at h
    · obtain ⟨rfl, rfl⟩ := Prod.mk.inj h
      exact .inl ⟨rfl, .refl k⟩
    · obtain ⟨rfl, rfl⟩ := Prod.mk.inj h
      exact .inr ⟨rfl, rfl⟩

end Kernel

end Mlfq
