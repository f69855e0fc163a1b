import Mathlib.Data.Finset.Basic
import Mathlib.Data.Fintype.Basic
import Mathlib.Data.List.FinRange
import Cs537OS.Foundation.Transitions
import Cs537OS.Xv6.Basic

/-!
# Processes and threads

The process table of the kernel with threads and the calls that work on it: `allocproc`, `fork`,
`clone`, `exec`, `exit`, `wait` and `join`, with the scheduler's moves, `sleep`, `wakeup`, `kill`
and `growproc` around them.

What is done under the lock of the table is one step: `exit` from the first wake-up to the end, and
one scan of `wait` or `join`, which then return or go to sleep and scan again when they are woken.
What is done without the lock is cut where others can come in between:

* `fork` and `clone` take three steps. `allocproc` marks an entry of the table as EMBRYO and gives
  up the lock; the entry has no parent yet and still shows what its last user left there, in
  particular a page directory. Then it is filled in, or goes back when there is no kernel stack.
  `fork` makes the child RUNNABLE in this step and sets its `count_thread` in a third, when the
  child may have run and cloned; `clone` has copied the size of its caller, and makes the thread
  RUNNABLE in a third step, when that size may have changed.
* `growproc` reads the size in one step, stores the new one for the caller in the next, and takes
  one more for every entry that its loop visits.

The statements that fill in an EMBRYO stand together, since nobody else looks at it until it is
RUNNABLE, and so do those of `exec`, which are taken to happen when it frees the old page directory.

What the machine decides is an input of the step: whether a kernel stack, a page directory or
memory was to be had, whether `copyout` found the page it writes to, how large the program to be
executed is. Page directories are known by their address. The kernel stack, the trap frame, the open
files and the name of a process are left out, none of the functions here depends on them.

`freevm` is monitored: the model stops with a fault of its own when the directory is not allocated,
or when an entry that is not a zombie still has it. The C function does neither.
-/

open Xv6

namespace Threads

/-- An entry of the process table. -/
structure Proc where
  sz : ℕ
  pgdir : ℕ
  state : ProcState
  pid : ℤ
  parent : Option Slot
  chan : Chan
  killed : Bool
  /-- The thread's stack. -/
  stack : ℕ
  /-- The number of threads cloned and not yet joined. -/
  countThread : ℤ

/-- The call a process is in the middle of, with what the kernel remembers for it. -/
inductive Call where
  | user
  | fork (np : Slot)
  /-- The child is RUNNABLE, and its `count_thread` is set next. -/
  | forkReturn (np : Slot)
  | clone (np : Slot) (stack : ℕ)
  /-- The thread is filled in, and becomes RUNNABLE next. -/
  | cloneReturn (np : Slot)
  | wait
  | join (stack : ℕ)
  /-- The new size is computed, and stored for the caller next. -/
  | growproc (sz : ℕ)
  /-- The loop of `growproc`, with the entries that it has not visited. -/
  | growLoop (sz : ℕ) (rest : List Slot)
deriving DecidableEq

/-- The state of the kernel. -/
structure Kernel where
  ptable : Slot → Proc
  nextpid : ℤ
  /-- The page directories that are allocated. -/
  pgdirs : Finset ℕ
  call : Slot → Call

/-- Why a step is not taken. -/
inductive Fault where
  /-- The action is not possible in this state. -/
  | blocked
  | panic
  /-- `freevm` of a page directory that an entry still has. -/
  | inUse
  /-- `freevm` of a page directory that is not allocated. -/
  | notAllocated
deriving DecidableEq

/-- What comes of the attempt to set up an address space: no page directory, one that is given
back because memory ran out or the program was bad, or one that is complete, with its size. -/
inductive NewSpace where
  | none
  | aborted (d : ℕ)
  | ready (d sz : ℕ)

/-- The entry uses its page directory. -/
def Proc.Uses (a : Proc) : Prop :=
  a.state = .embryo ∨ a.state = .sleeping ∨ a.state = .runnable ∨ a.state = .running

instance (a : Proc) : Decidable a.Uses :=
  inferInstanceAs (Decidable (_ ∨ _ ∨ _ ∨ _))

namespace Kernel

/-- Change one entry of the table. -/
def modify (k : Kernel) (p : Slot) (f : Proc → Proc) : Kernel :=
  { k with ptable := Function.update k.ptable p (f (k.ptable p)) }

def setState (k : Kernel) (p : Slot) (s : ProcState) : Kernel :=
  k.modify p fun a ↦ { a with state := s }

def setCall (k : Kernel) (p : Slot) (c : Call) : Kernel :=
  { k with call := Function.update k.call p c }

/-- `setupkvm`: page directory `d` is allocated. -/
def setupkvm (k : Kernel) (d : ℕ) : Kernel :=
  { k with pgdirs := insert d k.pgdirs }

/-- Free a page directory. -/
def freevm (k : Kernel) (d : ℕ) : Except Fault Kernel :=
  if d = 0 then
    .error .panic
  else if ∃ i, (k.ptable i).Uses ∧ (k.ptable i).pgdir = d then
    .error .inUse
  else if d ∉ k.pgdirs then
    .error .notAllocated
  else
    .ok { k with pgdirs := k.pgdirs.erase d }

/-! ### Sleeping and waking -/

/-- Wake up all processes sleeping on `chan`. -/
def wakeup1 (k : Kernel) (chan : Chan) : Kernel where
  ptable i :=
    if (k.ptable i).state = .sleeping ∧ (k.ptable i).chan = chan then
      { k.ptable i with state := .runnable }
    else
      k.ptable i
  nextpid := k.nextpid
  pgdirs := k.pgdirs
  call := k.call

/-- Go to sleep on `chan`. -/
def sleep (k : Kernel) (p : Slot) (chan : Chan) : Kernel :=
  k.modify p fun a ↦ { a with chan := chan, state := .sleeping }

/-- A runnable process gets a processor; it resets the address it slept on, if it did. -/
def dispatch (k : Kernel) (p : Slot) : Kernel :=
  k.modify p fun a ↦ { a with state := .running, chan := .null }

/-- Kill the process with the given pid: the first entry with it, woken if it sleeps. -/
def kill (k : Kernel) (pid : ℤ) : Kernel :=
  match (List.finRange NPROC).find? fun p ↦ (k.ptable p).pid = pid with
  | none => k
  | some p => k.modify p fun a ↦
      { a with
        killed := true
        state := if a.state = .sleeping then .runnable else a.state }

/-! ### New processes and threads -/

/-- What `allocproc` does to the entry it has found. -/
def allocEntry (k : Kernel) (p : Slot) : Kernel :=
  { k with nextpid := k.nextpid + 1 }.modify p fun a ↦
    { a with state := .embryo, pid := k.nextpid, countThread := 0 }

/-- Look in the process table for an UNUSED entry and make it an EMBRYO. This is `allocproc` as far
as it holds the lock of the table. -/
def allocproc (k : Kernel) : Option Slot × Kernel :=
  match (List.finRange NPROC).find? fun p ↦ (k.ptable p).state = .unused with
  | none => (none, k)
  | some p => (some p, k.allocEntry p)

/-- The end of `allocproc` when there is no kernel stack: the entry goes back. -/
def noKstack (k : Kernel) (np : Slot) : Kernel := k.setState np .unused

/-- The first step of `fork`. -/
def fork (k : Kernel) (p : Slot) : Kernel :=
  match k.allocproc with
  | (none, k') => k'
  | (some np, k') => k'.setCall p (.fork np)

/-- `fork` when `copyuvm` has failed. -/
def giveUp (k : Kernel) (np : Slot) : Kernel :=
  k.modify np fun a ↦ { a with pgdir := 0, state := .unused }

/-- The second step of `fork`: copy the address space and fill in the entry `np`, or give it up.
Returns the pid of the child, or none for -1. -/
def forkCopy (k : Kernel) (p np : Slot) (space : NewSpace) : Except Fault (Kernel × Option ℤ) :=
  match space with
  | .none => .ok (k.giveUp np, none)
  | .aborted d => do
    -- `copyuvm` frees the directory itself; `np` is still an EMBRYO
    let k' ← (k.setupkvm d).freevm d
    .ok (k'.giveUp np, none)
  | .ready d _ =>
    .ok ((k.setupkvm d).modify np fun a ↦
      { a with
        pgdir := d
        sz := (k.ptable p).sz
        parent := some p
        state := .runnable }, some (k.ptable np).pid)

/-- The last step of `fork`, after the child `np` has become RUNNABLE. -/
def forkReturn (k : Kernel) (np : Slot) : Kernel :=
  k.modify np fun a ↦ { a with countThread := 0 }

/-- The first step of `clone`. -/
def clone (k : Kernel) (p : Slot) (stack : ℕ) : Kernel :=
  match k.allocproc with
  | (none, k') => k'
  | (some np, k') => k'.setCall p (.clone np stack)

/-- The second step of `clone`: the thread gets the address space of `p`, which counts it. -/
def cloneCopy (k : Kernel) (p np : Slot) (stack : ℕ) : Kernel :=
  let k' := k.modify np fun a ↦
    { a with pgdir := (k.ptable p).pgdir, sz := (k.ptable p).sz, parent := some p }
  let k' := k'.modify p fun a ↦ { a with countThread := a.countThread + 1 }
  k'.modify np fun a ↦ { a with stack := stack }

/-- The last step of `clone`: the thread becomes RUNNABLE. When the first words cannot be written to
its stack the entry stays as it is. Returns the pid of the thread or -1. -/
def cloneReturn (k : Kernel) (np : Slot) (copied : Bool) : Kernel × ℤ :=
  if copied then (k.setState np .runnable, (k.ptable np).pid) else (k, -1)

/-- Replace the address space of `p`. -/
def exec (k : Kernel) (p : Slot) (space : NewSpace) : Except Fault (Kernel × ℤ) :=
  match space with
  | .none => .ok (k, -1)
  | .aborted d => do
    let k' ← (k.setupkvm d).freevm d
    .ok (k', -1)
  | .ready d sz => do
    let oldpgdir := (k.ptable p).pgdir
    let k' ← ((k.setupkvm d).modify p fun a ↦ { a with pgdir := d, sz := sz }).freevm oldpgdir
    .ok (k', 0)

/-! ### Exiting and waiting -/

/-- One turn of the loop of `exit` of `p`, which passes abandoned children to init. -/
def passChild (p : Slot) (k : Kernel) (q : Slot) : Kernel :=
  if (k.ptable q).parent = some p then
    let k' := k.modify q fun a ↦ { a with parent := some initproc }
    if (k'.ptable q).state = .zombie then k'.wakeup1 (.proc initproc) else k'
  else
    k

/-- Exit the current process. -/
def exit (k : Kernel) (p : Slot) : Except Fault Kernel :=
  if p = initproc then
    .error .panic
  else
    let k' := k.wakeup1 (.ofProc (k.ptable p).parent)
    let k' := (List.finRange NPROC).foldl (passChild p) k'
    .ok (k'.setState p .zombie)

/-- Entry `q` is a child of `p` in another address space, which `wait` looks for. -/
def Awaited (k : Kernel) (p q : Slot) : Prop :=
  (k.ptable q).parent = some p ∧ (k.ptable q).pgdir ≠ (k.ptable p).pgdir

/-- Entry `q` is a child of `p` in the same address space, which `join` looks for. -/
def Joined (k : Kernel) (p q : Slot) : Prop :=
  (k.ptable q).parent = some p ∧ (k.ptable q).pgdir = (k.ptable p).pgdir

instance (k : Kernel) (p q : Slot) : Decidable (k.Awaited p q) :=
  inferInstanceAs (Decidable (_ ∧ _))

instance (k : Kernel) (p q : Slot) : Decidable (k.Joined p q) :=
  inferInstanceAs (Decidable (_ ∧ _))

/-- The zombie that one scan of `wait` finds. -/
def zombieChild (k : Kernel) (p : Slot) : Option Slot :=
  (List.finRange NPROC).find? fun q ↦ k.Awaited p q ∧ (k.ptable q).state = .zombie

/-- The zombie that one scan of `join` finds. -/
def zombieThread (k : Kernel) (p : Slot) : Option Slot :=
  (List.finRange NPROC).find? fun q ↦ k.Joined p q ∧ (k.ptable q).state = .zombie

/-- Clear a reaped entry. -/
def reap (k : Kernel) (q : Slot) : Kernel :=
  k.modify q fun a ↦ { a with state := .unused, pid := 0, parent := none, killed := false }

/-- One scan of `wait`: returns the pid of a child that has exited, -1 when there is none to wait
for, or goes to sleep. -/
def wait (k : Kernel) (p : Slot) : Except Fault (Kernel × Option ℤ) :=
  match k.zombieChild p with
  | some q => do
    -- only free when this is the last one
    let k' ← if (k.ptable q).countThread = 0 then k.freevm (k.ptable q).pgdir else .ok k
    .ok (k'.reap q, some (k.ptable q).pid)
  | none =>
    if (∀ q, ¬ k.Awaited p q) ∨ (k.ptable p).killed then
      .ok (k, some (-1))
    else
      .ok (k.sleep p (.proc p), none)

/-- The check of the argument of `join`, in 32-bit arithmetic. -/
def joinArgument (k : Kernel) (p : Slot) (stack : ℕ) : Prop :=
  (stack + 4) % 2 ^ 32 ≤ (k.ptable p).sz

instance (k : Kernel) (p : Slot) (stack : ℕ) : Decidable (k.joinArgument p stack) :=
  inferInstanceAs (Decidable (_ ≤ _))

/-- One scan of `join`: returns the pid of a thread that has exited, with the stack that is stored
for the caller, or -1, or goes to sleep. -/
def join (k : Kernel) (p : Slot) : Kernel × Option (ℤ × Option ℕ) :=
  match k.zombieThread p with
  | some q =>
    ((k.reap q).modify p fun a ↦ { a with countThread := a.countThread - 1 },
      some ((k.ptable q).pid, some (k.ptable q).stack))
  | none =>
    if (∀ q, ¬ k.Joined p q) ∨ (k.ptable p).killed then
      (k, some (-1, none))
    else
      (k.sleep p (.proc p), none)

/-! ### Memory -/

/-- The size `allocuvm` returns, 0 for an error. -/
def allocuvm (oldsz newsz : ℕ) (memory : Bool) : ℕ :=
  if newsz > USERTOP then 0 else if newsz < oldsz then oldsz else if memory then newsz else 0

/-- The size `deallocuvm` returns. -/
def deallocuvm (oldsz newsz : ℕ) : ℕ :=
  if newsz ≥ oldsz then oldsz else newsz

/-- The first step of `growproc`: grow the memory of `p` by `n` bytes. Returns the size that it
comes to, or none for -1. -/
def growproc (k : Kernel) (p : Slot) (n : ℤ) (memory : Bool) : Option ℕ :=
  let oldsz := (k.ptable p).sz
  let newsz := uint (oldsz + n)
  let sz := if n > 0 then allocuvm oldsz newsz memory
    else if n < 0 then deallocuvm oldsz newsz else oldsz
  if n ≠ 0 ∧ sz = 0 then none else some sz

/-- The size of the caller of `growproc`. -/
def growSelf (k : Kernel) (p : Slot) (sz : ℕ) : Kernel :=
  k.modify p fun a ↦ { a with sz := sz }

/-- One turn of the loop of `growproc` of `p`: the size of a child in the same address space. -/
def growChild (k : Kernel) (p : Slot) (sz : ℕ) (q : Slot) : Kernel :=
  if k.Joined p q then k.modify q fun a ↦ { a with sz := sz } else k

/-- The next step of `growproc` of `p`. -/
def growNext (k : Kernel) (p : Slot) : Except Fault Kernel :=
  match k.call p with
  | .growproc sz => .ok ((k.growSelf p sz).setCall p (.growLoop sz (List.finRange NPROC)))
  | .growLoop sz (q :: rest) => .ok ((k.growChild p sz q).setCall p (.growLoop sz rest))
  | .growLoop _ [] => .ok (k.setCall p .user)
  | _ => .error .blocked

end Kernel

/-! ### Runs -/

/-- What can happen next. -/
inductive Action where
  | dispatch (p : Slot)
  | yield (p : Slot)
  | sleep (p : Slot) (a : ℕ)
  | wakeup (a : ℕ)
  | kill (pid : ℤ)
  | growproc (p : Slot) (n : ℤ) (memory : Bool)
  | growNext (p : Slot)
  | fork (p : Slot)
  | noKstack (p : Slot)
  | forkCopy (p : Slot) (space : NewSpace)
  | forkReturn (p : Slot)
  | clone (p : Slot) (stack : ℕ)
  | cloneCopy (p : Slot)
  | cloneReturn (p : Slot) (copied : Bool)
  | exec (p : Slot) (space : NewSpace)
  | exit (p : Slot)
  | wait (p : Slot)
  | join (p : Slot) (stack : ℕ)

/-- The page directory of a new address space is one that is free. -/
def NewSpace.Fresh (k : Kernel) : NewSpace → Prop
  | .none => True
  | .aborted d => d ≠ 0 ∧ d ∉ k.pgdirs
  | .ready d _ => d ≠ 0 ∧ d ∉ k.pgdirs

instance (k : Kernel) : (space : NewSpace) → Decidable (space.Fresh k)
  | .none => inferInstanceAs (Decidable True)
  | .aborted _ => inferInstanceAs (Decidable (_ ∧ _))
  | .ready _ _ => inferInstanceAs (Decidable (_ ∧ _))

/-- Go on as `x` says when the condition holds. -/
def require (c : Prop) [Decidable c] (x : Except Fault Kernel) : Except Fault Kernel :=
  if c then x else .error .blocked

namespace Kernel

def Running (k : Kernel) (p : Slot) : Prop := (k.ptable p).state = .running

/-- Process `p` runs and is not in the middle of a call. -/
def InUser (k : Kernel) (p : Slot) : Prop := k.Running p ∧ k.call p = .user

instance (k : Kernel) (p : Slot) : Decidable (k.Running p) :=
  inferInstanceAs (Decidable (_ = _))

instance (k : Kernel) (p : Slot) : Decidable (k.InUser p) :=
  inferInstanceAs (Decidable (_ ∧ _))

/-- One step of the kernel. -/
def step (k : Kernel) : Action → Except Fault Kernel
  | .dispatch p => require ((k.ptable p).state = .runnable) (.ok (k.dispatch p))
  | .yield p => require (k.Running p) (.ok (k.setState p .runnable))
  | .sleep p a => require (k.Running p) (.ok (k.sleep p (.addr a)))
  | .wakeup a => .ok (k.wakeup1 (.addr a))
  | .kill pid => .ok (k.kill pid)
  | .growproc p n memory => require (k.InUser p) (
    match k.growproc p n memory with
    | some sz => .ok (k.setCall p (.growproc sz))
    | none => .ok k)
  | .growNext p => require (k.Running p) (k.growNext p)
  | .fork p => require (k.InUser p) (.ok (k.fork p))
  | .noKstack p =>
    match k.call p with
    | .fork np => require (k.Running p) (.ok ((k.noKstack np).setCall p .user))
    | .clone np _ => require (k.Running p) (.ok ((k.noKstack np).setCall p .user))
    | _ => .error .blocked
  | .forkCopy p space =>
    match k.call p with
    | .fork np => require (k.Running p ∧ space.Fresh k) do
      let r ← k.forkCopy p np space
      .ok (r.1.setCall p (if r.2.isSome then .forkReturn np else .user))
    | _ => .error .blocked
  | .forkReturn p =>
    match k.call p with
    | .forkReturn np => require (k.Running p) (.ok ((k.forkReturn np).setCall p .user))
    | _ => .error .blocked
  | .clone p stack => require (k.InUser p) (.ok (k.clone p stack))
  | .cloneCopy p =>
    match k.call p with
    | .clone np stack =>
      require (k.Running p) (.ok ((k.cloneCopy p np stack).setCall p (.cloneReturn np)))
    | _ => .error .blocked
  | .cloneReturn p copied =>
    match k.call p with
    | .cloneReturn np =>
      require (k.Running p) (.ok ((k.cloneReturn np copied).1.setCall p .user))
    | _ => .error .blocked
  | .exec p space => require (k.InUser p ∧ space.Fresh k) do
    let r ← k.exec p space
    .ok r.1
  | .exit p => require (k.InUser p) (k.exit p)
  | .wait p => require (k.Running p ∧ (k.call p = .user ∨ k.call p = .wait)) do
    let r ← k.wait p
    .ok (r.1.setCall p (if r.2.isSome then .user else .wait))
  | .join p stack => require (k.Running p ∧ (k.call p = .user ∨ k.call p = .join stack)) (
    if k.call p = .user ∧ ¬ k.joinArgument p stack then
      .ok k
    else
      let r := k.join p
      .ok (r.1.setCall p (if r.2.isSome then .user else .join stack)))

/-- The kernel before the first process: everything is zero. -/
def zeroed : Kernel where
  ptable _ := ⟨0, 0, .unused, 0, none, .null, false, 0, 0⟩
  nextpid := 1
  pgdirs := ∅
  call _ := .user

/-- The kernel with the first process, which has page directory `d`. -/
def userinit (d : ℕ) : Kernel :=
  (zeroed.allocproc.2.setupkvm d).modify initproc fun a ↦
    { a with pgdir := d, sz := PGSIZE, state := .runnable }

end Kernel

/-- The runs of the kernel from boot. -/
def system : System Kernel Action where
  init k := ∃ d, d ≠ 0 ∧ k = Kernel.userinit d
  next k a k' := k.step a = .ok k'

end Threads
