import Cs537OS.Threads.Entries

/-!
# Condition variables

`cond_wait` and `cond_signal` on one condition variable that is used with one lock, beside
everything else that the kernel does. Both calls are taken apart into the steps that other
processors can see: each `xchg`, each update of the queue, each acquire and release of the lock of
the process table, each assignment of a state. `Place` says which of them a process takes next.

The queue is written under the flag of the condition variable, the states of the processes under the
lock of the process table, and `cond_signal` assigns a state without that lock. The machine
therefore has a `holder`: a waiter that has acquired the lock of the table keeps it until it has
switched to the scheduler, and gets it back with the processor. The other calls of the kernel hold
it within one step.

A loop on `xchg` is a step that waits until it succeeds. Which address space the condition variable
is in is left out, any process may use it; `cond_init` has been called before the run begins.

`cond_signal` assigns RUNNABLE also to an entry that is RUNNING. What the process of such an entry
does on its processor from then on is not followed further, but for one that still holds the lock of
the table, which goes on until it has given it up.

`Turn` says what a step in one of the calls changes for the other processes, and `Rests` that a
process which sleeps in the middle of a call sleeps in `sched`, which is so in every run
(`Rests.step`).
-/

open GuardedLoop (bind_eq_ok_iff)
open Xv6

namespace Threads

/-- The step takes the lock of the process table. -/
def Action.Locks : Action → Prop
  | .growproc _ _ _ | .growNext _ => False
  | .noKstack _ | .forkCopy _ _ | .forkReturn _ => False
  | .cloneCopy _ | .cloneReturn _ _ => False
  | .exec _ _ => False
  | _ => True

instance : (a : Action) → Decidable a.Locks
  | .growproc _ _ _ | .growNext _ | .noKstack _ | .forkCopy _ _ | .forkReturn _ | .cloneCopy _
  | .cloneReturn _ _ | .exec _ _ => .isFalse id
  | .dispatch _ | .yield _ | .sleep _ _ | .wakeup _ | .kill _ | .fork _ | .clone _ _ | .exit _
  | .wait _ | .join _ _ => .isTrue trivial

namespace CondVar

/-- What a process does next in `cond_wait` or `cond_signal`. -/
inductive Place where
  | user
  /-- `if(lock->flag==0) panic("wait without lock")` -/
  | waitLock
  /-- `if(condvar->count==8) panic("cond_queue full")` -/
  | waitCount
  /-- `while(xchg(&condvar->flag, 1) != 0)` -/
  | waitFlag
  /-- `condvar->thqueue[condvar->tail]=proc` -/
  | waitQueue
  /-- `condvar->tail=(condvar->tail+1)%8` -/
  | waitTail
  /-- `condvar->count++` -/
  | waitInc
  /-- `acquire(&ptable.lock)` -/
  | waitAcquire
  /-- `xchg(&condvar->flag, 0)` -/
  | waitFree
  /-- `xchg(&lock->flag, 0)` -/
  | waitUnlock
  /-- `proc->state = SLEEPING` -/
  | waitState
  /-- `sched()` -/
  | waitSched
  /-- `release(&ptable.lock)` -/
  | waitRelease
  /-- `while(xchg(&lock->flag, 1) != 0)` -/
  | waitRelock
  /-- `while(xchg(&condvar->flag, 1) != 0)` -/
  | signalFlag
  /-- `if(condvar->count==0)` -/
  | signalCount
  /-- `xchg(&condvar->flag, 0)` of an empty queue -/
  | signalEmpty
  /-- `condvar->thqueue[condvar->head]->state=RUNNABLE` -/
  | signalState
  /-- `condvar->head=(condvar->head+1)%8` -/
  | signalHead
  /-- `condvar->count--` -/
  | signalDec
  /-- `if(condvar->flag == 1)` -/
  | signalTest
  /-- `xchg(&condvar->flag, 0)` -/
  | signalFree
deriving DecidableEq

/-- A condition variable; only the first eight places of the queue are used. -/
structure Cond where
  thqueue : ℕ → Option Slot
  head : ℕ
  tail : ℕ
  flag : ℕ
  count : ℕ

/-- `cond_init` -/
def Cond.init (c : Cond) : Cond :=
  { c with head := 0, tail := 0, flag := 0, count := 0 }

/-- The kernel with a condition variable and a lock. -/
structure Machine where
  kernel : Kernel
  cond : Cond
  /-- The flag of the lock. -/
  lock : ℕ
  /-- The process that holds the lock of the process table between two steps. -/
  holder : Option Slot
  place : Slot → Place

/-- What can happen next. -/
inductive Act where
  | kernel (a : Action)
  /-- `lock_acquire` -/
  | lockAcquire (p : Slot)
  /-- `lock_release` -/
  | lockRelease (p : Slot)
  /-- The call of `cond_wait`. -/
  | condWait (p : Slot)
  /-- The call of `cond_signal`. -/
  | condSignal (p : Slot)
  /-- The next step of such a call. -/
  | advance (p : Slot)

namespace Machine

def goto (m : Machine) (p : Slot) (l : Place) : Machine :=
  { m with place := Function.update m.place p l }

/-- Process `p` has a processor and is at the beginning of a system call. -/
def Calls (m : Machine) (p : Slot) : Prop :=
  m.kernel.InUser p ∧ m.place p = .user ∧ (m.kernel.ptable p).killed = false

/-- Process `p` has a processor. The one that holds the lock of the table has one whatever its state
says. -/
def Executes (m : Machine) (p : Slot) : Prop :=
  m.holder = some p ∨ m.kernel.Running p

instance (m : Machine) (p : Slot) : Decidable (m.Calls p) :=
  inferInstanceAs (Decidable (_ ∧ _ ∧ _))

instance (m : Machine) (p : Slot) : Decidable (m.Executes p) :=
  inferInstanceAs (Decidable (_ ∨ _))

/-- The next step of process `p` in `cond_wait` or `cond_signal`. -/
def advance (m : Machine) (p : Slot) : Except Fault Machine :=
  match m.place p with
  | .user => .error .blocked
  | .waitLock => if m.lock = 0 then .error .panic else .ok (m.goto p .waitCount)
  | .waitCount => if m.cond.count = 8 then .error .panic else .ok (m.goto p .waitFlag)
  | .waitFlag =>
    if m.cond.flag ≠ 0 then .error .blocked
    else .ok ({ m with cond := { m.cond with flag := 1 } }.goto p .waitQueue)
  | .waitQueue =>
    .ok ({ m with cond :=
      { m.cond with
        thqueue := Function.update m.cond.thqueue m.cond.tail (some p) } }.goto p .waitTail)
  | .waitTail =>
    .ok ({ m with cond := { m.cond with tail := (m.cond.tail + 1) % 8 } }.goto p .waitInc)
  | .waitInc =>
    .ok ({ m with cond := { m.cond with count := m.cond.count + 1 } }.goto p .waitAcquire)
  | .waitAcquire =>
    if m.holder ≠ none then .error .blocked
    else .ok ({ m with holder := some p }.goto p .waitFree)
  | .waitFree => .ok ({ m with cond := { m.cond with flag := 0 } }.goto p .waitUnlock)
  | .waitUnlock => .ok ({ m with lock := 0 }.goto p .waitState)
  | .waitState => .ok ({ m with kernel := m.kernel.setState p .sleeping }.goto p .waitSched)
  | .waitSched =>
    -- `sched` checks that the lock is held and that the state has been changed
    if m.holder ≠ some p ∨ m.kernel.Running p then .error .panic
    else .ok ({ m with holder := none }.goto p .waitRelease)
  | .waitRelease =>
    if m.holder ≠ some p then .error .panic
    else .ok ({ m with holder := none }.goto p .waitRelock)
  | .waitRelock =>
    if m.lock ≠ 0 then .error .blocked else .ok ({ m with lock := 1 }.goto p .user)
  | .signalFlag =>
    if m.cond.flag ≠ 0 then .error .blocked
    else .ok ({ m with cond := { m.cond with flag := 1 } }.goto p .signalCount)
  | .signalCount => .ok (m.goto p (if m.cond.count = 0 then .signalEmpty else .signalState))
  | .signalEmpty => .ok ({ m with cond := { m.cond with flag := 0 } }.goto p .user)
  | .signalState =>
    match m.cond.thqueue m.cond.head with
    | none => .error .panic
    | some t => .ok ({ m with kernel := m.kernel.setState t .runnable }.goto p .signalHead)
  | .signalHead =>
    .ok ({ m with cond := { m.cond with head := (m.cond.head + 1) % 8 } }.goto p .signalDec)
  | .signalDec =>
    .ok ({ m with cond := { m.cond with count := m.cond.count - 1 } }.goto p .signalTest)
  | .signalTest => .ok (m.goto p (if m.cond.flag = 1 then .signalFree else .user))
  | .signalFree => .ok ({ m with cond := { m.cond with flag := 0 } }.goto p .user)

/-- Who holds the lock of the process table after a step of the kernel: a waiter that gets a
processor comes back from `sched` with the lock. -/
def holderAfter (m : Machine) : Action → Option Slot
  | .dispatch p => if m.place p = .waitRelease then some p else m.holder
  | _ => m.holder

/-- One step. -/
def step (m : Machine) : Act → Except Fault Machine
  | .kernel a =>
    if (∀ p, a.caller = some p → m.place p = .user) ∧ (a.Locks → m.holder = none) then do
      let k ← Unmonitored.step m.kernel a
      .ok { m with kernel := k, holder := m.holderAfter a }
    else .error .blocked
  | .lockAcquire p =>
    if m.kernel.InUser p ∧ m.place p = .user ∧ m.lock = 0 then .ok { m with lock := 1 }
    else .error .blocked
  | .lockRelease p =>
    if m.kernel.InUser p ∧ m.place p = .user then .ok { m with lock := 0 } else .error .blocked
  | .condWait p => if m.Calls p then .ok (m.goto p .waitLock) else .error .blocked
  | .condSignal p => if m.Calls p then .ok (m.goto p .signalFlag) else .error .blocked
  | .advance p => if m.Executes p then m.advance p else .error .blocked

/-- The machine when the first process has been set up and `cond_init` called. -/
def boot (d : ℕ) (c : Cond) : Machine where
  kernel := .userinit d
  cond := c.init
  lock := 0
  holder := none
  place _ := .user

end Machine

/-- The runs of the machine from boot. -/
def system : System Machine Act where
  init m := ∃ d c, d ≠ 0 ∧ m = .boot d c
  next m a m' := m.step a = .ok m'

namespace Place

/-- Between the exchange that takes the flag of the condition variable and the one that gives it
back. -/
def holdsFlag : Place → Bool
  | .waitQueue | .waitTail | .waitInc | .waitAcquire | .waitFree => true
  | .signalCount | .signalEmpty | .signalState | .signalHead | .signalDec | .signalTest
  | .signalFree => true
  | _ => false

/-- In `cond_wait`. -/
def inWait : Place → Bool
  | .waitLock | .waitCount | .waitFlag | .waitQueue | .waitTail | .waitInc | .waitAcquire
  | .waitFree | .waitUnlock | .waitState | .waitSched | .waitRelease | .waitRelock => true
  | _ => false

/-- In `cond_wait`, with the process in the queue and before its state is SLEEPING. -/
def isListed : Place → Bool
  | .waitTail | .waitInc | .waitAcquire | .waitFree | .waitUnlock | .waitState => true
  | _ => false

/-- In `cond_wait`, where a process sleeps. -/
def isDown : Place → Bool
  | .waitSched | .waitRelease => true
  | _ => false

/-- The places that can follow. -/
def next : Place → List Place
  | .user => [.waitLock, .signalFlag]
  | .waitLock => [.waitCount]
  | .waitCount => [.waitFlag]
  | .waitFlag => [.waitQueue]
  | .waitQueue => [.waitTail]
  | .waitTail => [.waitInc]
  | .waitInc => [.waitAcquire]
  | .waitAcquire => [.waitFree]
  | .waitFree => [.waitUnlock]
  | .waitUnlock => [.waitState]
  | .waitState => [.waitSched]
  | .waitSched => [.waitRelease]
  | .waitRelease => [.waitRelock]
  | .waitRelock => [.user]
  | .signalFlag => [.signalCount]
  | .signalCount => [.signalEmpty, .signalState]
  | .signalEmpty => [.user]
  | .signalState => [.signalHead]
  | .signalHead => [.signalDec]
  | .signalDec => [.signalTest]
  | .signalTest => [.signalFree, .user]
  | .signalFree => [.user]

end Place

namespace Machine

/-- Process `t` is SLEEPING inside `cond_wait`. -/
def Asleep (m : Machine) (t : Slot) : Prop :=
  (m.place t).inWait = true ∧ (m.kernel.ptable t).state = .sleeping

/-- Who sleeps in the middle of a call sleeps in `sched`. -/
def Rests (m : Machine) : Prop :=
  ∀ t, (m.kernel.ptable t).state = .sleeping → m.place t ≠ .user →
    m.place t = .waitSched ∨ m.place t = .waitRelease ∧ m.holder ≠ some t

end Machine

open Kernel Machine

variable {m m' : Machine} {p t : Slot} {l : Place}

@[simp]
theorem goto_place_self : (m.goto p l).place p = l := Function.update_self ..

@[simp]
theorem goto_place_of_ne (ht : t ≠ p) : (m.goto p l).place t = m.place t :=
  Function.update_of_ne ht ..

@[simp]
theorem goto_kernel : (m.goto p l).kernel = m.kernel := rfl

/-- The steps act by act: what each needs and what it comes to. -/
inductive Machine.Stepped (m : Machine) : Act → Machine → Prop where
  | kernel {a : Action} {k : Kernel} (hcaller : ∀ p, a.caller = some p → m.place p = .user)
      (hfree : a.Locks → m.holder = none) (hk : Unmonitored.step m.kernel a = .ok k) :
      Stepped m (.kernel a) { m with kernel := k, holder := m.holderAfter a }
  | lockAcquire {p : Slot} (hp : m.kernel.InUser p) (huser : m.place p = .user)
      (hlock : m.lock = 0) : Stepped m (.lockAcquire p) { m with lock := 1 }
  | lockRelease {p : Slot} (hp : m.kernel.InUser p) (huser : m.place p = .user) :
      Stepped m (.lockRelease p) { m with lock := 0 }
  | condWait {p : Slot} (hp : m.Calls p) : Stepped m (.condWait p) (m.goto p .waitLock)
  | condSignal {p : Slot} (hp : m.Calls p) : Stepped m (.condSignal p) (m.goto p .signalFlag)
  | advance {p : Slot} {m' : Machine} (hp : m.Executes p) (hadv : m.advance p = .ok m') :
      Stepped m (.advance p) m'

/-- The inversion of a step. -/
theorem Machine.stepped_of_step {a : Act} (hstep : m.step a = .ok m') : m.Stepped a m' := by
  cases a with
  | kernel a =>
    simp only [Machine.step] at hstep
    split_ifs at hstep with hc
    obtain ⟨k, hk, hok⟩ := bind_eq_ok_iff.1 hstep
    obtain rfl := Except.ok.inj hok
    exact .kernel hc.1 hc.2 hk
  | lockAcquire p =>
    simp only [Machine.step] at hstep
    split_ifs at hstep with hc
    obtain rfl := Except.ok.inj hstep
    exact .lockAcquire hc.1 hc.2.1 hc.2.2
  | lockRelease p =>
    simp only [Machine.step] at hstep
    split_ifs at hstep with hc
    obtain rfl := Except.ok.inj hstep
    exact .lockRelease hc.1 hc.2
  | condWait p =>
    simp only [Machine.step] at hstep
    split_ifs at hstep with hc
    obtain rfl := Except.ok.inj hstep
    exact .condWait hc
  | condSignal p =>
    simp only [Machine.step] at hstep
    split_ifs at hstep with hc
    obtain rfl := Except.ok.inj hstep
    exact .condSignal hc
  | advance p =>
    simp only [Machine.step] at hstep
    split_ifs at hstep with hc
    exact .advance hc hstep

/-! ### What a step changes for the others -/

/-- A step in `cond_wait` or `cond_signal` moves one process on; the state that it may assign is
SLEEPING for itself or RUNNABLE for the head of the queue. -/
structure Turn (m : Machine) (p : Slot) (m' : Machine) : Prop where
  place : ∃ l ∈ (m.place p).next, m'.place = Function.update m.place p l
  holder : ∀ t, t ≠ p → m'.holder = some t → m.holder = some t
  kernel : m'.kernel = m.kernel ∨
    (m.place p = .waitState ∧ m'.place p = .waitSched ∧
      m'.kernel = m.kernel.setState p .sleeping) ∨
    (m.place p = .signalState ∧ ∃ t, m.cond.thqueue m.cond.head = some t ∧
      m'.kernel = m.kernel.setState t .runnable)

/-- A step in a call is a turn. -/
theorem turn_of_advance (h : m.advance p = .ok m') : Turn m p m' := by
  rw [Machine.advance] at h
  cases hp : m.place p <;> simp only [hp, reduceCtorEq] at h
  case signalState =>
    -- the only assignment to the entry of another process
    split at h <;> cases h
    rename_i t ht
    exact ⟨⟨_, by simp [hp, Place.next], rfl⟩, fun _ _ ↦ id, .inr (.inr ⟨hp, t, ht, rfl⟩)⟩
  case waitState =>
    cases h
    exact ⟨⟨_, by simp [hp, Place.next], rfl⟩, fun _ _ ↦ id,
      .inr (.inl ⟨hp, goto_place_self, rfl⟩)⟩
  all_goals
    try split_ifs at h
    all_goals
      cases h
      exact ⟨⟨_, by simp [hp, Place.next], rfl⟩, by simp +contextual [goto, eq_comm], .inl rfl⟩

/-- The other processes stay where they are, -/
theorem Turn.place_of_ne (h : Turn m p m') (ht : t ≠ p) : m'.place t = m.place t := by
  obtain ⟨l, -, hl⟩ := h.place
  rw [hl, Function.update_of_ne ht]

/-- and the one whose turn it is goes to a place that can follow. -/
theorem Turn.next (h : Turn m p m') : m'.place p ∈ (m.place p).next := by
  obtain ⟨l, hnext, hl⟩ := h.place
  rwa [hl, Function.update_self]

/-- The others do not fall asleep. -/
theorem Turn.sleeping_of_ne (h : Turn m p m') (ht : t ≠ p)
    (hsleep : (m'.kernel.ptable t).state = .sleeping) : (m.kernel.ptable t).state = .sleeping := by
  rcases h.kernel with hk | ⟨-, -, hk⟩ | ⟨-, x, -, hk⟩ <;> rw [hk] at hsleep
  · exact hsleep
  · rwa [setState, modify_ptable_of_ne ht] at hsleep
  · by_cases hx : t = x
    · rw [hx, setState, modify_ptable_self] at hsleep
      cases hsleep
    · rwa [setState, modify_ptable_of_ne hx] at hsleep

/-- A process enters one of the calls. -/
theorem turn_goto (hl : l ∈ (m.place p).next) : Turn m p (m.goto p l) :=
  ⟨⟨l, hl, rfl⟩, fun _ _ ↦ id, .inl rfl⟩

/-- In `sched` a process gives the lock of the table back. -/
theorem advance_waitSched (hp : m.place p = .waitSched) (h : m.advance p = .ok m') :
    m' = { m with holder := none }.goto p .waitRelease := by
  simp only [Machine.advance, hp] at h
  split_ifs at h
  exact (Except.ok.inj h).symm

theorem ne_user_of_advance (h : m.advance p = .ok m') : m.place p ≠ .user := by
  intro hp
  simp only [Machine.advance, hp, reduceCtorEq] at h

theorem running_of_dispatch {k k' : Kernel} (h : Unmonitored.step k (.dispatch t) = .ok k') :
    k'.Running t := by
  obtain ⟨-, rfl⟩ := Unmonitored.require_ok h
  rw [Running, dispatch, modify_ptable_self]

/-- A process gets the lock of the table from a step of the kernel by its dispatch. -/
theorem holder_of_holderAfter {a : Action} (h : m.holderAfter a = some t) :
    m.holder = some t ∨ a = .dispatch t := by
  cases a with
  | dispatch q =>
    by_cases hq : m.place q = .waitRelease
    · rw [holderAfter, if_pos hq] at h
      exact .inr (Option.some.inj h ▸ rfl)
    · rw [holderAfter, if_neg hq] at h
      exact .inl h
  | _ => exact .inl h

/-! ### Who sleeps in the middle of a call -/

/-- A turn leaves the sleepers in `sched`, -/
theorem Machine.Rests.advance (h : Rests m) (hexec : m.Executes p) (hadv : m.advance p = .ok m') :
    Rests m' := by
  have hturn := turn_of_advance hadv
  intro t ht hplace
  by_cases htp : t = p
  · subst htp
    have huser := ne_user_of_advance hadv
    rcases hturn.kernel with hk | ⟨-, hl, -⟩ | ⟨hp, x, -, hk⟩
    · rw [hk] at ht
      rcases h t ht huser with hsched | ⟨-, hfree⟩
      · rw [advance_waitSched hsched hadv]
        exact .inr ⟨goto_place_self, nofun⟩
      · -- a process that sleeps in `waitRelease` has to be given a processor first
        rcases hexec with hhold | hrun
        · exact absurd hhold hfree
        · exact absurd (hrun.symm.trans ht) (by decide)
    · exact .inl hl
    · have hsleep : (m.kernel.ptable t).state = .sleeping := by
        rw [hk] at ht
        by_cases hx : t = x
        · rw [hx, setState, modify_ptable_self] at ht
          cases ht
        · rwa [setState, modify_ptable_of_ne hx] at ht
      rcases h t hsleep huser with hl | ⟨hl, -⟩ <;> rw [hp] at hl <;> cases hl
  · rw [hturn.place_of_ne htp] at hplace ⊢
    rcases h t (hturn.sleeping_of_ne htp ht) hplace with hl | ⟨hl, hfree⟩
    · exact .inl hl
    · exact .inr ⟨hl, fun hhold ↦ hfree (hturn.holder t htp hhold)⟩

/-- and so does a step of the kernel. -/
theorem Machine.Rests.kernel {a : Action} {k : Kernel} (h : Rests m)
    (hcaller : ∀ p, a.caller = some p → m.place p = .user)
    (hstep : Unmonitored.step m.kernel a = .ok k) :
    Rests { m with kernel := k, holder := m.holderAfter a } := by
  intro t ht hplace
  rcases sleeping_of_step hstep ht with hsleep | hcall
  · rcases h t hsleep hplace with hl | ⟨hl, hfree⟩
    · exact .inl hl
    · refine .inr ⟨hl, fun hhold ↦ ?_⟩
      rcases holder_of_holderAfter hhold with hhold | rfl
      · exact hfree hhold
      · exact absurd ((running_of_dispatch hstep).symm.trans ht) (by decide)
  · exact absurd (hcaller t hcall) hplace

/-- A process that is in user space enters a call. -/
theorem Machine.Rests.enter (h : Rests m) (hp : m.kernel.Running p) : Rests (m.goto p l) := by
  intro t ht hplace
  by_cases htp : t = p
  · rw [htp] at ht
    exact absurd (hp.symm.trans ht) (by decide)
  · have heq : (m.goto p l).place t = m.place t := Function.update_of_ne htp _ _
    rw [heq] at hplace ⊢
    exact h t ht hplace

/-- Every step leaves the sleepers in `sched`. -/
theorem Machine.Rests.step {a : Act} (h : Rests m) (hstep : m.step a = .ok m') : Rests m' := by
  cases stepped_of_step hstep with
  | kernel hcaller hfree hk => exact h.kernel hcaller hk
  | lockAcquire hp huser hlock => exact h
  | lockRelease hp huser => exact h
  | condWait hp => exact h.enter hp.1.1
  | condSignal hp => exact h.enter hp.1.1
  | advance hp hadv => exact h.advance hp hadv

/-- At boot nobody is in a call. -/
theorem rests_boot (d : ℕ) (c : Cond) : Rests (.boot d c) := fun _ _ hplace ↦ absurd rfl hplace

end CondVar

end Threads
