import Cs537OS.Foundation.Monitor
import Cs537OS.Foundation.Transitions
import Mathlib.Data.Nat.Notation
import Mathlib.Data.Int.Notation

/-!
# Pipes

A pipe is a ring of `PIPESIZE` bytes with two counters that only go up, modulo `2 ^ 32`, and a flag
for each of its two ends. It is protected by one spinlock; who finds it full sleeps on the address
of `nwrite`, who finds it empty on that of `nread`.

The processes reach the pipe through the two `struct file`s that `pipealloc` made, one for each end.
A file is kept by its reference count, and `fileclose` of the last reference closes the end.

A step is one statement of `pipewrite`, `piperead` or `pipeclose` (`Pipe.next`), or what a process
does in between: it calls one of them, duplicates a descriptor, forks, closes, is killed. `sleep`
gives the lock back and falls asleep in one step, since both are done under the lock of the process
table, which `wakeup` and `kill` take; and it takes the lock of the pipe again in a later step.

`written`, `taken` and `freed` are histories that no statement reads.
-/

namespace Pipes

/-- The channels: the addresses of the two counters. -/
inductive Chan
  | nread
  | nwrite
deriving DecidableEq

def PIPESIZE : UInt32 := 512

structure Pipe where
  data : ℕ → UInt8
  nread : UInt32
  nwrite : UInt32
  readopen : Bool
  writeopen : Bool
  written : List UInt8
  taken : List UInt8
  /-- How often `kfree` was called on the page of the pipe. -/
  freed : ℕ

/-- The flag of an end. -/
def Pipe.isOpen (p : Pipe) : Bool → Bool
  | true => p.writeopen
  | false => p.readopen

/-- The statements of `pipewrite`. -/
inductive WritePlace
  | acquire
  /-- `i < n`. -/
  | test
  /-- `p->nwrite == p->nread + PIPESIZE`. -/
  | full
  /-- `p->readopen == 0 || proc->killed`. -/
  | check
  /-- `release` and `return -1`. -/
  | fail
  | wakeupFull
  | sleep
  | sleeping
  | put
  | wakeup
  | release
deriving DecidableEq

/-- The statements of `piperead`. -/
inductive ReadPlace
  | acquire
  /-- `p->nread == p->nwrite && p->writeopen`. -/
  | empty
  /-- `proc->killed`. -/
  | check
  /-- `release` and `return -1`. -/
  | fail
  | sleep
  | sleeping
  /-- `i < n`. -/
  | test
  /-- `p->nread == p->nwrite`, which breaks the loop. -/
  | drained
  | get
  | wakeup
  | release
deriving DecidableEq

/-- The statements of `pipeclose`. -/
inductive ClosePlace
  | acquire
  | clear
  | wakeup
  /-- `p->readopen == 0 && p->writeopen == 0`. -/
  | test
  | release
  /-- The `release` before `kfree`. -/
  | releaseFree
  | free
deriving DecidableEq

/-- Where a process is, with its arguments and locals. -/
inductive Place
  /-- Not in a call on the pipe. -/
  | user
  /-- With the number of bytes that had been written to the pipe when the call began. -/
  | write (at_ : WritePlace) (addr : ℕ → UInt8) (n : ℤ) (start i : ℕ)
  /-- With the bytes that were copied to `addr`, `i` of them. -/
  | read (at_ : ReadPlace) (n : ℤ) (got : List UInt8)
  | close (at_ : ClosePlace) (writable : Bool)

namespace Place

def isUser : Place → Bool
  | user => true
  | _ => false

/-- What the call is about to return. -/
def returns : Place → Option ℤ
  | write .fail _ _ _ _ => some (-1)
  | write .release _ n _ _ => some n
  | read .fail _ _ => some (-1)
  | read .release _ got => some got.length
  | _ => none

end Place

namespace Pipe

variable (p : Pipe)

/-- `p->data[p->nwrite++ % PIPESIZE] = c`. -/
def put (c : UInt8) : Pipe :=
  { p with
    data := Function.update p.data (p.nwrite % PIPESIZE).toNat c
    nwrite := p.nwrite + 1
    written := p.written ++ [c] }

/-- The byte `p->data[p->nread % PIPESIZE]`. -/
def front : UInt8 := p.data (p.nread % PIPESIZE).toNat

/-- `p->nread++`. -/
def get : Pipe := { p with nread := p.nread + 1, taken := p.taken ++ [p.front] }

/-- The flag of an end is cleared. -/
def clear : Bool → Pipe
  | true => { p with writeopen := false }
  | false => { p with readopen := false }

def isFull : Bool := p.nwrite == p.nread + PIPESIZE

def isEmpty : Bool := p.nread == p.nwrite

/-- The next statement of a process: what it does to the pipe, where the process is then, and what
it does with the lock and the sleepers. -/
def next (killed : Bool) : Place → Option (Pipe × Place × Monitor.Op Chan)
  | .user => none
  | .write .acquire addr n start i => some (p, .write .test addr n start i, .acquire)
  | .write .test addr n start i =>
    some (p, .write (if (i : ℤ) < n then .full else .wakeup) addr n start i, .stay)
  | .write .full addr n start i =>
    some (p, .write (if p.isFull then .check else .put) addr n start i, .stay)
  | .write .check addr n start i =>
    some (p, .write (if !p.readopen || killed then .fail else .wakeupFull) addr n start i, .stay)
  | .write .fail _ _ _ _ => some (p, .user, .release)
  | .write .wakeupFull addr n start i => some (p, .write .sleep addr n start i, .wakeup .nread)
  | .write .sleep addr n start i => some (p, .write .sleeping addr n start i, .sleep .nwrite)
  | .write .sleeping addr n start i => some (p, .write .full addr n start i, .acquire)
  | .write .put addr n start i => some (p.put (addr i), .write .test addr n start (i + 1), .stay)
  | .write .wakeup addr n start i => some (p, .write .release addr n start i, .wakeup .nread)
  | .write .release _ _ _ _ => some (p, .user, .release)
  | .read .acquire n got => some (p, .read .empty n got, .acquire)
  | .read .empty n got =>
    some (p, .read (if p.isEmpty && p.writeopen then .check else .test) n got, .stay)
  | .read .check n got => some (p, .read (if killed then .fail else .sleep) n got, .stay)
  | .read .fail _ _ => some (p, .user, .release)
  | .read .sleep n got => some (p, .read .sleeping n got, .sleep .nread)
  | .read .sleeping n got => some (p, .read .empty n got, .acquire)
  | .read .test n got =>
    some (p, .read (if (got.length : ℤ) < n then .drained else .wakeup) n got, .stay)
  | .read .drained n got =>
    some (p, .read (if p.isEmpty then .wakeup else .get) n got, .stay)
  | .read .get n got => some (p.get, .read .test n (got ++ [p.front]), .stay)
  | .read .wakeup n got => some (p, .read .release n got, .wakeup .nwrite)
  | .read .release _ _ => some (p, .user, .release)
  | .close .acquire writable => some (p, .close .clear writable, .acquire)
  | .close .clear writable => some (p.clear writable, .close .wakeup writable, .stay)
  | .close .wakeup writable =>
    some (p, .close .test writable, .wakeup (if writable then .nread else .nwrite))
  | .close .test writable =>
    some (p, .close (if !p.readopen && !p.writeopen then .releaseFree else .release) writable,
      .stay)
  | .close .release _ => some (p, .user, .release)
  | .close .releaseFree writable => some (p, .close .free writable, .release)
  | .close .free _ => some ({ p with freed := p.freed + 1 }, .user, .stay)

end Pipe

/-- The pipe, its two files and the processes. The files and what a process has of them are indexed
by `writable`. -/
structure State (τ : Type*) where
  pipe : Pipe
  /-- `f->ref`. -/
  ref : Bool → ℕ
  /-- How many entries of `ofile` point to the file. -/
  ofile : τ → Bool → ℕ
  killed : τ → Bool
  monitor : Monitor τ Chan
  place : τ → Place

/-- What can happen next. -/
inductive Act (τ : Type*)
  | write (t : τ) (addr : ℕ → UInt8) (n : ℤ)
  | read (t : τ) (n : ℤ)
  | dup (t : τ) (writable : Bool)
  /-- The new process is in a slot of the process table that is not in use. -/
  | fork (t np : τ)
  | close (t : τ) (writable : Bool)
  | kill (t : τ)
  /-- The next statement of a process that is in a call. -/
  | run (t : τ)

namespace State

variable {τ : Type*} [DecidableEq τ] (s : State τ)

/-- What `pipe` leaves behind: the process `t` has one descriptor of each end. The page that
`kalloc` gave is not cleared. -/
def Starts : Prop :=
  s.pipe.nread = 0 ∧ s.pipe.nwrite = 0 ∧ s.pipe.readopen = true ∧ s.pipe.writeopen = true ∧
    s.pipe.written = [] ∧ s.pipe.taken = [] ∧ s.pipe.freed = 0 ∧ s.monitor = .idle ∧
    (∀ t, s.place t = .user) ∧ (∀ w, s.ref w = 1) ∧
    ∃ t, ∀ u w, s.ofile u w = if u = t then 1 else 0

/-- The process `t` calls a function of the pipe. -/
def call (t : τ) (writable : Bool) (l : Place) : Except Unit (State τ) :=
  if (s.place t).isUser ∧ 0 < s.ofile t writable then
    .ok { s with place := Function.update s.place t l }
  else .error ()

/-- The entries of `ofile` for one end. -/
def setOfile (t : τ) (writable : Bool) (k : ℕ) : τ → Bool → ℕ :=
  Function.update s.ofile t (Function.update (s.ofile t) writable k)

/-- `filedup`. -/
def dup (t : τ) (writable : Bool) : Except Unit (State τ) :=
  if (s.place t).isUser ∧ 0 < s.ofile t writable then
    .ok { s with
      ref := Function.update s.ref writable (s.ref writable + 1)
      ofile := s.setOfile t writable (s.ofile t writable + 1) }
  else .error ()

/-- `fork` duplicates every entry of `ofile`. -/
def fork (t np : τ) : Except Unit (State τ) :=
  if (s.place t).isUser ∧ (s.place np).isUser ∧ t ≠ np ∧ ∀ w, s.ofile np w = 0 then
    .ok { s with
      ref := fun w ↦ s.ref w + s.ofile t w
      ofile := Function.update s.ofile np (s.ofile t)
      killed := Function.update s.killed np false }
  else .error ()

/-- `fileclose`: the last reference calls `pipeclose`. -/
def close (t : τ) (writable : Bool) : Except Unit (State τ) :=
  if (s.place t).isUser ∧ 0 < s.ofile t writable then
    .ok { s with
      ref := Function.update s.ref writable (s.ref writable - 1)
      ofile := s.setOfile t writable (s.ofile t writable - 1)
      place := if 0 < s.ref writable - 1 then s.place
        else Function.update s.place t (.close .acquire writable) }
  else .error ()

/-- The next statement of `t`. -/
def run (t : τ) : Except Unit (State τ) :=
  match s.pipe.next (s.killed t) (s.place t) with
  | none => .error ()
  | some (pipe, l, op) =>
    match s.monitor.perform t op with
    | none => .error ()
    | some monitor =>
      .ok { s with pipe := pipe, place := Function.update s.place t l, monitor := monitor }

/-- A step; an error means that the step is not possible here. -/
def step : Act τ → Except Unit (State τ)
  | .write t addr n => s.call t true (.write .acquire addr n s.pipe.written.length 0)
  | .read t n => s.call t false (.read .acquire n [])
  | .dup t writable => s.dup t writable
  | .fork t np => s.fork t np
  | .close t writable => s.close t writable
  | .kill t =>
    .ok { s with
      killed := Function.update s.killed t true
      monitor := s.monitor.wake [t] }
  | .run t => s.run t

end State

/-- The processes `τ` and one pipe. -/
def system (τ : Type*) [DecidableEq τ] : System (State τ) (Act τ) where
  init := State.Starts
  next s a t := s.step a = .ok t

end Pipes
