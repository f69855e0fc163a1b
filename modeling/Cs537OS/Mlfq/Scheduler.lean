import Cs537OS.Foundation.Transitions
import Cs537OS.Mlfq.Proc

/-!
# The MLFQ scheduler

`scheduler` on one processor. It holds the lock of the process table, with interrupts off, from the
start of a pass over the table to the next `swtch` into a process, and again from the `swtch` back;
so what it does in between is one step (`schedule`, `resume`), and all the others act either while a
process runs or between two passes.

A pass looks for the highest level among the RUNNABLE entries (`highest`) and then goes through the
table once for the entries of that level (`pass`). An entry of a level above zero is dispatched
again and again until its ticks reach the quantum or it is not RUNNABLE (the slice), one of level
zero once. When a process has used its quantum it moves down a level, and the slice goes on with the
quantum of the new level.

`Machine.log` is a ledger of what the scheduler does, newest entry first; the code has nothing like
it and no step depends on it.
-/

open Xv6

namespace Mlfq

/-- Where the scheduler stands: between two passes, or in the middle of one, waiting for process `p`
to come back. -/
inductive Sched where
  | idle
  /-- `cou` counts in the slice of `p`; a process of level zero has none. -/
  | running (p : Slot) (maxPri : ℕ) (cou : Option ℤ)

/-- What the ledger records. -/
inductive Event where
  /-- A pass starts with this table. -/
  | scan (t : Table)
  /-- The pass has come to `p`, which is of the highest level. -/
  | select (p : Slot)
  /-- The processor switches to `p`; the table at this moment. -/
  | dispatch (p : Slot) (t : Table)
  /-- `p` has used its quantum and moves down. -/
  | demote (p : Slot)

/-- Where the scheduler's code has come to. -/
structure Point where
  table : Table
  sched : Sched
  log : List Event

/-- The highest level of the RUNNABLE entries. -/
def highest (t : Table) : ℕ :=
  (List.finRange NPROC).foldl (fun maxPri p ↦
    if (t p).state = .runnable ∧ (t p).priority > maxPri then (t p).priority else maxPri) 0

/-- An entry waits for another tick, and is raised when it has waited long enough. -/
def boost (a : Proc) : Proc :=
  let waited := { a with
    waitTicks := Function.update a.waitTicks a.priority (a.waitTicks a.priority + 1) }
  if a.priority < 3 ∧ waited.waitTicks a.priority ≥ clkWait a.priority then
    { waited with
      priority := a.priority + 1
      waitTicks := Function.update waited.waitTicks (a.priority + 1) 0 }
  else
    waited

/-- What happens to the table before the processor switches to `p`. -/
def dispatch (t : Table) (p : Slot) : Table :=
  let t' := Table.modify t p fun a ↦
    { a with waitTicks := Function.update a.waitTicks a.priority (-1) }
  let t'' : Table := fun s ↦ boost (t' s)
  Table.modify t'' p fun a ↦
    { a with
      ticks := Function.update a.ticks a.priority (incr (a.ticks a.priority))
      inuse := true
      state := .running }

/-- Switch to `p`. -/
def swtch (t : Table) (log : List Event) (p : Slot) (maxPri : ℕ) (cou : Option ℤ) : Point where
  table := dispatch t p
  sched := .running p maxPri cou
  log := .dispatch p (dispatch t p) :: log

/-- A quantum that is used up starts again. -/
def refill (t : Table) (p : Slot) : Table :=
  if (t p).ticks (t p).priority = clkPerPrio (t p).priority then
    Table.modify t p fun a ↦ { a with ticks := Function.update a.ticks a.priority 0 }
  else
    t

/-- The slice of `p` goes on at count `cou`. -/
def SliceGoesOn (t : Table) (p : Slot) (cou : ℤ) : Prop :=
  cou < clkPerPrio (t p).priority ∧ (t p).state = .runnable

instance (t : Table) (p : Slot) (cou : ℤ) : Decidable (SliceGoesOn t p cou) :=
  inferInstanceAs (Decidable (_ ∧ _))

/-- The pass over the entries that are left, up to the next `swtch` or the end of the pass. -/
def pass (maxPri : ℕ) : List Slot → Table → List Event → Point
  | [], t, log => ⟨t, .idle, log⟩
  | p :: ps, t, log =>
    if (t p).state = .runnable ∧ (t p).priority = maxPri then
      if (t p).priority > 0 then
        let t' := refill t p
        let cou := (t' p).ticks (t' p).priority
        if SliceGoesOn t' p cou then
          swtch t' (.select p :: log) p maxPri (some cou)
        else
          pass maxPri ps t' (.select p :: log)
      else
        swtch t (.select p :: log) p maxPri none
    else
      pass maxPri ps t log

/-- The entries after `p`. -/
def slotsAfter (p : Slot) : List Slot := (List.finRange NPROC).drop (p + 1)

/-- Process `p` has used its quantum. -/
def QuantumUsed (t : Table) (p : Slot) : Prop :=
  (t p).priority > 0 ∧ (t p).ticks (t p).priority ≥ clkPerPrio (t p).priority

instance (t : Table) (p : Slot) : Decidable (QuantumUsed t p) :=
  inferInstanceAs (Decidable (_ ∧ _))

/-- A process moves down a level. -/
def demote (t : Table) (p : Slot) : Table :=
  Table.modify t p fun a ↦
    { a with priority := a.priority - 1, ticks := Function.update a.ticks (a.priority - 1) 0 }

/-- The slice of `p` after a process has come back: another turn, or the rest of the pass. -/
def nextTurn (t : Table) (log : List Event) (p : Slot) (maxPri : ℕ) (cou : ℤ) : Point :=
  if SliceGoesOn t p cou then
    swtch t log p maxPri (some cou)
  else
    pass maxPri (slotsAfter p) t log

/-- The scheduler goes on when a process has switched back to it. -/
def resume (t : Table) (log : List Event) : Sched → Point
  | .idle => ⟨t, .idle, log⟩
  | .running p maxPri none => pass maxPri (slotsAfter p) t log
  | .running p maxPri (some cou) =>
    if QuantumUsed t p then
      nextTurn (demote t p) (.demote p :: log) p maxPri (cou + 1)
    else
      nextTurn t log p maxPri (cou + 1)

/-- The scheduler starts a pass. -/
def schedule (t : Table) (log : List Event) : Point :=
  pass (highest t) (List.finRange NPROC) t (.scan t :: log)

/-! ### Runs -/

/-- The kernel on one processor. -/
structure Machine where
  kernel : Kernel
  sched : Sched
  log : List Event

/-- Why a step is not taken. -/
inductive Fault where
  /-- The action is not possible in this state. -/
  | blocked
  | panic
deriving DecidableEq

/-- What can happen next: the scheduler starts a pass, a device wakes processes, or the process that
runs does something. -/
inductive Action where
  | schedule
  | wakeup (c : Chan)
  | yield
  | sleep (a : ℕ)
  | fork (kstack : Bool)
  | forkCopy (copied : Bool)
  | forkReturn
  | exit
  | wait
  | kill (pid : ℤ)
deriving DecidableEq

namespace Machine

/-- The machine at a point of the scheduler. -/
def atPoint (m : Machine) (pt : Point) : Machine where
  kernel := { m.kernel with ptable := pt.table }
  sched := pt.sched
  log := pt.log

/-- The process that runs has left the kernel as `k` and switches back to the scheduler. -/
def leave (m : Machine) (k : Kernel) : Machine :=
  { m with kernel := k }.atPoint (resume k.ptable m.log m.sched)

/-- One step while process `p` runs. -/
def stepOf (m : Machine) (p : Slot) : Action → Except Fault Machine
  | .schedule => .error .blocked
  | .wakeup c => .ok { m with kernel := m.kernel.wakeup1 c }
  | .yield => .ok (m.leave (m.kernel.setState p .runnable))
  | .kill pid => .ok { m with kernel := m.kernel.kill pid }
  | .sleep a =>
    if m.kernel.call p = .user then
      .ok (m.leave (m.kernel.sleep p (.addr a)))
    else
      .error .blocked
  | .fork kstack =>
    if m.kernel.call p = .user then
      .ok { m with kernel := m.kernel.fork p kstack }
    else
      .error .blocked
  | .forkCopy copied =>
    match m.kernel.call p with
    | .fork np => .ok { m with kernel := (m.kernel.forkCopy p np copied).1.setCall p .forked }
    | _ => .error .blocked
  | .forkReturn =>
    if m.kernel.call p = .forked then
      .ok { m with kernel := m.kernel.setCall p .user }
    else
      .error .blocked
  | .exit =>
    if m.kernel.call p = .user then
      if p = initproc then .error .panic else .ok (m.leave (m.kernel.exit p))
    else
      .error .blocked
  | .wait =>
    if m.kernel.call p = .user ∨ m.kernel.call p = .wait then
      match m.kernel.wait p with
      | (k, some _) => .ok { m with kernel := k.setCall p .user }
      | (k, none) => .ok (m.leave (k.setCall p .wait))
    else
      .error .blocked

/-- One step of the kernel. -/
def step (m : Machine) (a : Action) : Except Fault Machine :=
  match m.sched with
  | .running p _ _ => m.stepOf p a
  | .idle =>
    match a with
    | .schedule => .ok (m.atPoint (Mlfq.schedule m.kernel.ptable m.log))
    | .wakeup c => .ok { m with kernel := m.kernel.wakeup1 c }
    | _ => .error .blocked

end Machine

/-- An entry, or the memory behind the table, before anything is written to it. -/
def zeroProc : Proc := ⟨.unused, 0, none, .null, false, 0, fun _ ↦ 0, fun _ ↦ 0, false⟩

/-- The kernel before the first process: everything is zero. -/
def Kernel.zeroed : Kernel where
  ptable _ := zeroProc
  past := zeroProc
  nextpid := 1
  call _ := .user

/-- The kernel with the first process. -/
def Kernel.userinit : Kernel :=
  (zeroed.allocproc true).2.setState initproc .runnable

/-- The machine when the scheduler starts. -/
def boot : Machine := ⟨Kernel.userinit, .idle, []⟩

/-- The runs of the kernel from boot. -/
def system : System Machine Action where
  init m := m = boot
  next m a m' := m.step a = .ok m'

end Mlfq
