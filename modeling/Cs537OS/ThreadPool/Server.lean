import Cs537OS.Foundation.Monitor
import Cs537OS.Foundation.Transitions
import Mathlib.Data.Nat.Notation
import Mathlib.Data.Int.Notation

/-!
# The thread-pool server

The accepting thread puts connection descriptors into a ring buffer of `bufferlen` places, the
workers take them out. The buffer with its three variables is protected by one mutex; `fill` and
`empty` are condition variables used with it.

A step is one statement of one thread. `pthread_cond_wait` gives the mutex back and falls asleep in
one step, and takes it again in a later one; in between the thread stands at `waiting`. What a
signal wakes is part of the label of the step, as is the descriptor that `Accept` returns.

`accepted` and `dequeued` are histories that no step reads.
-/

namespace ThreadPool

/-- The condition variables. -/
inductive Cond
  | fill
  | empty
deriving DecidableEq

/-- The statements of `main`. -/
inductive MainPlace
  /-- `Thread_create`, with the loop counter. -/
  | create (i : ℕ)
  | accept
  | lock
  /-- `while(count==bufferlen)`. -/
  | test
  | wait
  | waiting
  /-- `workBuffer[rear] = connfd`. -/
  | write
  | advance
  | inc
  | signal
  | unlock
deriving DecidableEq

/-- The statements of `processRequest`; from the read on with the local `connfd`. -/
inductive WorkerPlace
  /-- Not created yet. -/
  | unborn
  | lock
  /-- `while(count==0)`. -/
  | test
  | wait
  | waiting
  /-- `connfd = workBuffer[front]`. -/
  | read
  | advance (connfd : ℤ)
  | dec (connfd : ℤ)
  | signal (connfd : ℤ)
  | unlock (connfd : ℤ)
  /-- `requestHandle` and `Close`. -/
  | handle (connfd : ℤ)
deriving DecidableEq

/-- The accepting thread, `none`, and the workers. -/
abbrev Thread (n : ℕ) := Option (Fin n)

/-- The process with `n` workers. -/
structure Server (n : ℕ) where
  workBuffer : ℕ → ℤ
  front : ℕ
  rear : ℕ
  count : ℤ
  monitor : Monitor (Thread n) Cond
  main : MainPlace
  /-- The local of `main`. -/
  connfd : ℤ
  worker : Fin n → WorkerPlace
  accepted : List ℤ
  dequeued : List ℤ

/-- What can happen next. -/
inductive Act (n : ℕ)
  /-- The next statement of `main`, if it is neither `Accept` nor a signal. -/
  | main
  | accept (connfd : ℤ)
  /-- The next statement of a worker, if it is not a signal. -/
  | worker (w : Fin n)
  /-- The next statement of a thread, a signal that wakes `woken`. -/
  | signal (t : Thread n) (woken : List (Thread n))
  /-- A thread wakes up without a signal. -/
  | wakeup (t : Thread n)

namespace Server

variable {n : ℕ} (bufferlen : ℕ) (s : Server n)

/-- When `main` has set up the buffer. What `malloc` returns is not initialised. -/
def Starts : Prop :=
  s.front = 0 ∧ s.rear = 0 ∧ s.count = 0 ∧ s.monitor = .idle ∧ s.main = .create 0 ∧
    (∀ w, s.worker w = .unborn) ∧ s.accepted = [] ∧ s.dequeued = []

/-- A statement of `main`. -/
def mainStep : Except Unit (Server n) :=
  match s.main with
  | .create i =>
    if h : i < n then
      .ok { s with main := .create (i + 1), worker := Function.update s.worker ⟨i, h⟩ .lock }
    else .ok { s with main := .accept }
  | .lock =>
    if s.monitor.CanLock none then .ok { s with main := .test, monitor := s.monitor.lock none }
    else .error ()
  | .test => .ok { s with main := if s.count = bufferlen then .wait else .write }
  | .wait => .ok { s with main := .waiting, monitor := s.monitor.wait none .empty }
  | .waiting =>
    if s.monitor.CanLock none then .ok { s with main := .test, monitor := s.monitor.lock none }
    else .error ()
  | .write =>
    .ok { s with main := .advance, workBuffer := Function.update s.workBuffer s.rear s.connfd }
  | .advance => .ok { s with main := .inc, rear := (s.rear + 1) % bufferlen }
  | .inc => .ok { s with main := .signal, count := s.count + 1 }
  | .unlock => .ok { s with main := .accept, monitor := s.monitor.unlock }
  | .accept | .signal => .error ()

/-- A statement of worker `w`. -/
def workerStep (w : Fin n) : Except Unit (Server n) :=
  match s.worker w with
  | .lock | .waiting =>
    if s.monitor.CanLock (some w) then
      .ok { s with
        worker := Function.update s.worker w .test, monitor := s.monitor.lock (some w) }
    else .error ()
  | .test =>
    .ok { s with worker := Function.update s.worker w (if s.count = 0 then .wait else .read) }
  | .wait =>
    .ok { s with
      worker := Function.update s.worker w .waiting, monitor := s.monitor.wait (some w) .fill }
  | .read =>
    .ok { s with
      worker := Function.update s.worker w (.advance (s.workBuffer s.front))
      dequeued := s.dequeued ++ [s.workBuffer s.front] }
  | .advance connfd =>
    .ok { s with
      worker := Function.update s.worker w (.dec connfd), front := (s.front + 1) % bufferlen }
  | .dec connfd =>
    .ok { s with worker := Function.update s.worker w (.signal connfd), count := s.count - 1 }
  | .unlock connfd =>
    .ok { s with
      worker := Function.update s.worker w (.handle connfd), monitor := s.monitor.unlock }
  | .handle _ => .ok { s with worker := Function.update s.worker w .lock }
  | .unborn | .signal _ => .error ()

/-- A signal of thread `t` that wakes `woken`. -/
def signalStep (t : Thread n) (woken : List (Thread n)) : Except Unit (Server n) :=
  match t with
  | none =>
    if s.main = .signal ∧ s.monitor.Signals .fill woken then
      .ok { s with main := .unlock, monitor := s.monitor.wake woken }
    else .error ()
  | some w =>
    match s.worker w with
    | .signal connfd =>
      if s.monitor.Signals .empty woken then
        .ok { s with
          worker := Function.update s.worker w (.unlock connfd), monitor := s.monitor.wake woken }
      else .error ()
    | _ => .error ()

/-- A step; an error means that the step is not possible here. -/
def step : Act n → Except Unit (Server n)
  | .main => s.mainStep bufferlen
  | .accept connfd =>
    if s.main = .accept then
      .ok { s with main := .lock, connfd := connfd, accepted := s.accepted ++ [connfd] }
    else .error ()
  | .worker w => s.workerStep bufferlen w
  | .signal t woken => s.signalStep t woken
  | .wakeup t => .ok { s with monitor := s.monitor.wake [t] }

end Server

/-- The server, with `n` workers and a buffer of `bufferlen` places. -/
def system (n bufferlen : ℕ) : System (Server n) (Act n) where
  init := Server.Starts
  next s a t := s.step bufferlen a = .ok t

end ThreadPool
