import Cs537OS.Foundation.Monitor
import Cs537OS.Foundation.Transitions
import Cs537OS.SharedMemory.Page

/-!
# The clients of the shared page

A client claims the first free slot, then updates its elapsed time in it once a second, and gives
the slot back in `exit_handler`. Claims and releases happen under the mutex in the page; the update
looks for the slot and writes to it without.

A step is one statement of one client, the bytes that come from the clock are part of its label, as
are the process id and the arguments with which a client starts. The clients are the processes
that are ever started; `κ` may be infinite. The lines a client prints are left out.

A signal is delivered at any place behind the first `sigaction`. `newact` is not initialised there,
so nothing is known about the signals blocked while the handler runs, and the handler may be
entered once more from within itself. If it then has the mutex already, it waits for itself for ever
(`stuck`). A client does not end otherwise than in the handler or by a failed claim.
-/

namespace SharedMemory

/-- The statements of a client. -/
inductive Place
  /-- Not started yet. -/
  | absent
  /-- `pthread_mutex_lock` in `main`. -/
  | lock
  /-- The claim loop, with its counter. -/
  | scan (i : ℕ)
  /-- `pid=getpid()`. -/
  | take (i : ℕ)
  /-- `strcpy` of the client string. -/
  | name (i : ℕ)
  /-- `strftime` of the birth time. -/
  | born (i : ℕ)
  /-- `find==0`. -/
  | fail
  | unlock
  /-- `sigaction(SIGINT, ..)`. -/
  | sigint
  /-- `sigaction(SIGTERM, ..)`. -/
  | sigterm
  /-- `sleep(1)`, and the printing of the active clients. -/
  | idle
  /-- The update loop. -/
  | update (i : ℕ)
  /-- `elapsed_sec=..`. -/
  | sec (i : ℕ)
  /-- `elapsed_msec=..`. -/
  | msec (i : ℕ)
  /-- `pthread_mutex_lock` in `exit_handler`. -/
  | hlock
  /-- The loop of `exit_handler`. -/
  | hscan (i : ℕ)
  /-- `pid=-1`. -/
  | hpid (i : ℕ)
  /-- `elapsed_sec=0`. -/
  | hsec (i : ℕ)
  /-- `elapsed_msec=0`. -/
  | hmsec (i : ℕ)
  /-- `memset` of the birth time. -/
  | hbirth (i : ℕ)
  /-- `memset` of the client string. -/
  | hname (i : ℕ)
  | hunlock
  /-- `exit(0)` of `exit_handler`. -/
  | hexit
  /-- `exit_handler` waits for the mutex that it has. -/
  | stuck
  | gone
deriving DecidableEq

namespace Place

/-- The places at which a client has the mutex. -/
def inside : Place → Bool
  | scan _ | take _ | name _ | born _ | fail | unlock => true
  | hscan _ | hpid _ | hsec _ | hmsec _ | hbirth _ | hname _ | hunlock | stuck => true
  | _ => false

/-- The process exists. -/
def live : Place → Bool
  | absent | gone => false
  | _ => true

/-- The claim has succeeded and the handler does not run yet. -/
def claimed : Place → Bool
  | name _ | born _ | unlock | sigint | sigterm | idle | update _ | sec _ | msec _ => true
  | _ => false

/-- Where `exit_handler` begins when a signal comes in, if the handler is installed. -/
def handled : Place → Option Place
  | sigterm | idle | update _ | sec _ | msec _ | hlock | hexit => some hlock
  | hscan _ | hpid _ | hsec _ | hmsec _ | hbirth _ | hname _ | hunlock | stuck => some stuck
  | _ => none

end Place

/-- The page and the clients. -/
structure Clients (κ : Type*) where
  mem : ℕ → UInt8
  mutex : Monitor κ Empty
  place : κ → Place
  /-- `getpid()`. -/
  pid : κ → ℤ
  /-- `argv[1]`. -/
  name : κ → List UInt8

/-- What can happen next. -/
inductive Act (κ : Type*)
  /-- A process is created with these arguments; `fdShm` is what `shm_open` returns. -/
  | start (c : κ) (pid : ℤ) (args : List (List UInt8)) (fdShm : ℤ)
  /-- The next statement of a client, if it stores no time. -/
  | run (c : κ)
  /-- The next statement of a client, which stores a time of these bytes. -/
  | stamp (c : κ) (time : List UInt8)
  | signal (c : κ)

def Act.client {κ : Type*} : Act κ → κ
  | start c _ _ _ | run c | stamp c _ | signal c => c

namespace Clients

variable {κ : Type*} [DecidableEq κ] (pagesize : ℕ) (s : Clients κ)

/-- When the server has initialised the page. -/
def Starts : Prop :=
  (∃ mem, s.mem = initSlots pagesize mem) ∧ s.mutex = .idle ∧ ∀ c, s.place c = .absent

/-- The client goes on to another place. -/
def goto (c : κ) (l : Place) : Clients κ := { s with place := Function.update s.place c l }

/-- An assignment, and the client goes on. -/
def assign (c : κ) (l : Place) (p : Patch UInt8) : Clients κ :=
  { s with mem := p.write s.mem, place := Function.update s.place c l }

/-- `pthread_mutex_lock`, and the client goes on. -/
def acquire (c : κ) (l : Place) : Except Unit (Clients κ) :=
  if s.mutex.CanLock c then
    .ok { s with mutex := s.mutex.lock c, place := Function.update s.place c l }
  else .error ()

/-- `pthread_mutex_unlock`, and the client goes on. -/
def release (c : κ) (l : Place) : Clients κ :=
  { s with mutex := s.mutex.unlock, place := Function.update s.place c l }

/-- `main` up to the first `pthread_mutex_lock`. -/
def startStep (c : κ) (args : List (List UInt8)) (fdShm : ℤ) : Clients κ :=
  match args with
  | [arg] =>
    if arg.length > 9 ∨ arg.length = 0 then s.goto c .gone
    else if fdShm = -1 then s.goto c .gone
    else { s.goto c .lock with name := Function.update s.name c arg }
  | _ => s.goto c .gone

/-- A statement of client `c`. -/
def runStep (c : κ) : Except Unit (Clients κ) :=
  match s.place c with
  | .lock => s.acquire c (.scan 1)
  | .scan i =>
    if maxClient pagesize < i then .ok (s.goto c .fail)
    else if pidAt s.mem i = -1 then .ok (s.goto c (.take i))
    else .ok (s.goto c (.scan (i + 1)))
  | .take i => .ok (s.assign c (.name i) (store i .pid (intBytes (s.pid c))))
  | .name i => .ok (s.assign c (.born i) (store i .clientString (s.name c ++ [0])))
  | .fail => .ok (s.release c .gone)
  | .unlock => .ok (s.release c .sigint)
  | .sigint => .ok (s.goto c .sigterm)
  | .sigterm => .ok (s.goto c .idle)
  | .idle => .ok (s.goto c (.update 1))
  | .update i =>
    if maxClient pagesize < i then .ok (s.goto c .idle)
    else if pidAt s.mem i = s.pid c then .ok (s.goto c (.sec i))
    else .ok (s.goto c (.update (i + 1)))
  | .hlock => s.acquire c (.hscan 1)
  | .hscan i =>
    if maxClient pagesize < i then .ok (s.goto c .hunlock)
    else if pidAt s.mem i = s.pid c then .ok (s.goto c (.hpid i))
    else .ok (s.goto c (.hscan (i + 1)))
  | .hpid i => .ok (s.assign c (.hsec i) (store i .pid (intBytes (-1))))
  | .hsec i => .ok (s.assign c (.hmsec i) (store i .elapsedSec (intBytes 0)))
  | .hmsec i => .ok (s.assign c (.hbirth i) (store i .elapsedMsec (List.replicate 8 0)))
  | .hbirth i => .ok (s.assign c (.hname i) (store i .birth (List.replicate 25 0)))
  | .hname i => .ok (s.assign c .hunlock (store i .clientString (List.replicate 10 0)))
  | .hunlock => .ok (s.release c .hexit)
  | .hexit => .ok (s.goto c .gone)
  | .absent | .born _ | .sec _ | .msec _ | .stuck | .gone => .error ()

/-- A statement of client `c` that stores a time. `strftime` is given 25 bytes. -/
def stampStep (c : κ) (time : List UInt8) : Except Unit (Clients κ) :=
  match s.place c with
  | .born i =>
    if time.length ≤ 25 then .ok (s.assign c .unlock (store i .birth time)) else .error ()
  | .sec i =>
    if time.length = 4 then .ok (s.assign c (.msec i) (store i .elapsedSec time)) else .error ()
  | .msec i =>
    if time.length = 8 then .ok (s.assign c (.update (i + 1)) (store i .elapsedMsec time))
    else .error ()
  | _ => .error ()

/-- A step; an error means that the step is not possible here. -/
def step : Act κ → Except Unit (Clients κ)
  | .start c pid args fdShm =>
    if s.place c = .absent then
      .ok (startStep { s with pid := Function.update s.pid c pid } c args fdShm)
    else .error ()
  | .run c => s.runStep pagesize c
  | .stamp c time => s.stampStep c time
  | .signal c =>
    match (s.place c).handled with
    | some l => .ok (s.goto c l)
    | none => .error ()

omit [DecidableEq κ] in
/-- A new process gets an id that is positive and that no other process has. -/
def DistinctPids (s : Clients κ) : Act κ → Prop
  | .start _ pid _ _ => 0 < pid ∧ pid < 2 ^ 31 ∧ ∀ c, (s.place c).live = true → s.pid c ≠ pid
  | _ => True

instance [Fintype κ] (s : Clients κ) (a : Act κ) : Decidable (s.DistinctPids a) :=
  match a with
  | .start _ _ _ _ => inferInstanceAs (Decidable (_ ∧ _ ∧ ∀ _, _ → _))
  | .run _ | .stamp _ _ | .signal _ => isTrue trivial

end Clients

/-- The clients of a page of `pagesize` bytes. -/
def system (κ : Type*) [DecidableEq κ] (pagesize : ℕ) : System (Clients κ) (Act κ) where
  init := Clients.Starts pagesize
  next s a t := s.step pagesize a = .ok t

end SharedMemory
