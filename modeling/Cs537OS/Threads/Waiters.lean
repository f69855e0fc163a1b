import Cs537OS.Threads.LockOwner
import Cs537OS.Threads.Panics

/-!
# The order of the waiters

All threads use one condition variable with one lock: they call `cond_wait` and `cond_signal` when
they have the lock, nobody releases a lock that another one has, and nobody who waits is killed
(`Disciplined`). The machine is logged: who has the lock, who has called `cond_wait`, and whom which
call of `cond_signal` has taken from the queue.

The lock keeps all but one thread away from the queue, up to the point in `cond_wait` where it is
given up, which is after the flag of the condition variable is free again. So what the thread that
has the lock has seen of the counter stays true, and the callers of `cond_wait` are those that have
been taken from the queue, those in it and at most one on its way (`Lined`).

* `inOrder_of_reachable` — in such runs the waiters leave the queue in the order of their calls,
  each by a call of `cond_signal` of its own, nobody's entry is overwritten, and the kernel panics
  in these calls just when a ninth thread comes to wait;
* `nineWaiters_panics` — which it can.
-/

open GuardedLoop (bind_eq_ok_iff)
open Xv6

namespace Threads

namespace CondVar

namespace Place

/-- In one of the calls, up to where the lock is given up. -/
def usesLock : Place → Bool
  | .waitLock | .waitCount | .waitFlag | .waitQueue | .waitTail | .waitInc | .waitAcquire
  | .waitFree | .waitUnlock => true
  | .signalFlag | .signalCount | .signalEmpty | .signalState | .signalHead | .signalDec
  | .signalTest | .signalFree => true
  | _ => false

/-- In `cond_wait`, and not in the queue yet. -/
def isArriving : Place → Bool
  | .waitLock | .waitCount | .waitFlag | .waitQueue => true
  | _ => false

/-- In `cond_signal`, with nobody taken from the queue yet. -/
def isSignalling : Place → Bool
  | .signalFlag | .signalCount | .signalState => true
  | _ => false

end Place

/-- The machine with a log. -/
structure Logged where
  machine : Machine
  /-- Who has come back from `lock_acquire` or `cond_wait` with the lock, which has not been given
  up since. -/
  lockOwner : Option Slot
  /-- Who has called `cond_wait`, call by call. -/
  called : List Slot
  /-- How often `cond_signal` has been called. -/
  signals : ℕ
  /-- The number of the last call of `cond_signal` of each process. -/
  signal : Slot → ℕ
  /-- Who has been taken from the queue, one after the other, each with the number of the call of
  `cond_signal`. -/
  dequeued : List (Slot × ℕ)

namespace Logged

/-- Who has the lock after a step. -/
def lockOwnerAfter (s : Logged) : Act → Option Slot
  | .lockAcquire p => some p
  | .lockRelease _ => none
  | .advance p =>
    if s.machine.place p = .waitUnlock then none
    else if s.machine.place p = .waitRelock then some p else s.lockOwner
  | _ => s.lockOwner

def calledAfter (s : Logged) : Act → List Slot
  | .condWait p => s.called ++ [p]
  | _ => s.called

def signalsAfter (s : Logged) : Act → ℕ
  | .condSignal _ => s.signals + 1
  | _ => s.signals

def signalAfter (s : Logged) : Act → Slot → ℕ
  | .condSignal p => Function.update s.signal p (s.signals + 1)
  | _ => s.signal

def dequeuedAfter (s : Logged) : Act → List (Slot × ℕ)
  | .advance p =>
    if s.machine.place p = .signalState then
      s.dequeued ++
        (s.machine.cond.thqueue s.machine.cond.head).toList.map fun t ↦ (t, s.signal p)
    else s.dequeued
  | _ => s.dequeued

/-- The log after a step to `m`. -/
def after (s : Logged) (a : Act) (m : Machine) : Logged where
  machine := m
  lockOwner := s.lockOwnerAfter a
  called := s.calledAfter a
  signals := s.signalsAfter a
  signal := s.signalAfter a
  dequeued := s.dequeuedAfter a

/-- One step. -/
def step (s : Logged) (a : Act) : Except Fault Logged := do
  let m ← s.machine.step a
  .ok (s.after a m)

/-- Boot, with nothing logged. -/
def boot (d : ℕ) (c : Cond) : Logged where
  machine := .boot d c
  lockOwner := none
  called := []
  signals := 0
  signal _ := 0
  dequeued := []

def system : System Logged Act where
  init s := ∃ d c, d ≠ 0 ∧ s = boot d c
  next s a s' := s.step a = .ok s'

/-- The calls are made by who has the lock, which is released by nobody else, and nobody who waits
is killed. -/
def Disciplined (s : Logged) : Act → Prop
  | .condWait p => s.lockOwner = some p
  | .condSignal p => s.lockOwner = some p
  | .lockRelease p => ∀ q, s.lockOwner = some q → q = p
  | a => s.machine.Spares a

/-- The queue is one: who comes first is taken first, nobody is lost, nobody is in it twice. -/
structure InOrder (s : Logged) : Prop where
  /-- The waiters leave the queue in the order of their calls. -/
  order : s.dequeued.map Prod.fst <+: s.called
  /-- Each by a call of `cond_signal` of its own. -/
  once : (s.dequeued.map Prod.snd).Nodup
  /-- Nobody waits twice. -/
  distinct : (s.called.drop s.dequeued.length).Nodup
  /-- An entry is written where there is none. -/
  room : ∀ p, s.machine.place p = .waitQueue → ∀ i < s.machine.cond.count,
    (s.machine.cond.head + i) % 8 ≠ s.machine.cond.tail
  /-- Outside of the sections under the flag the counters fit together. -/
  counters : s.machine.cond.flag = 0 →
    s.machine.cond.tail = (s.machine.cond.head + s.machine.cond.count) % 8
  /-- And the array holds the first ones of those that have called and have not been taken. -/
  array : s.machine.cond.flag = 0 → ∀ i < s.machine.cond.count, ∃ t,
    s.machine.cond.thqueue ((s.machine.cond.head + i) % 8) = some t ∧
      s.called[s.dequeued.length + i]? = some t
  /-- The calls panic when a ninth thread waits, and not otherwise. -/
  panic : ∀ p, s.machine.step (.advance p) = .error .panic ↔ s.machine.Executes p ∧
    s.machine.place p = .waitCount ∧ s.called.length = s.dequeued.length + 9

end Logged

open Kernel Machine Logged

variable {s : Logged} {m m' : Machine} {p q t : Slot} {l l' : Place} {owner arriving : Option Slot}
  {queue : List Slot} {a : Act}

theorem after_machine : (s.after a m).machine = m := rfl

/-! ### The lock -/

/-- Who is in one of the calls has the lock, up to where it is given up. -/
structure LockUsed (s : Logged) : Prop where
  lock : s.machine.lock = if s.lockOwner.isSome then 1 else 0
  owner : ∀ p, (s.machine.place p).usesLock = true → s.lockOwner = some p

/-- When the lock is free nobody is in one of the calls, -/
theorem LockUsed.nobody (h : LockUsed s) (hfree : s.machine.lock = 0) :
    s.lockOwner = none ∧ ∀ p, (s.machine.place p).usesLock = false := by
  have hnone : s.lockOwner = none := by
    rcases howner : s.lockOwner with - | o
    · rfl
    · have hlock := h.lock
      rw [hfree, howner] at hlock
      cases hlock
  refine ⟨hnone, fun p ↦ Bool.eq_false_iff.2 fun hp ↦ ?_⟩
  rw [h.owner p hp] at hnone
  cases hnone

/-- and at most one process is. -/
theorem LockUsed.eq (h : LockUsed s) (hp : (s.machine.place p).usesLock = true)
    (hq : (s.machine.place q).usesLock = true) : p = q :=
  Option.some.inj ((h.owner p hp).symm.trans (h.owner q hq))

/-- A process comes to use the lock by a call, and stops where it gives it up. -/
theorem Place.usesLock_next (h : l' ∈ l.next) (hl' : l'.usesLock = true) :
    l = .user ∨ l.usesLock = true ∧ l ≠ .waitUnlock := by
  revert l'
  cases l <;> decide

/-- A turn keeps the lock with its owner. -/
theorem LockUsed.advance (h : LockUsed s) (hadv : s.machine.advance p = .ok m') :
    LockUsed (s.after (.advance p) m') := by
  have hturn := turn_of_advance hadv
  have huser := ne_user_of_advance hadv
  by_cases hunlock : s.machine.place p = .waitUnlock
  · have howner : (s.after (.advance p) m').lockOwner = none := if_pos hunlock
    have hself := h.owner p (by rw [hunlock]; rfl)
    refine ⟨?_, fun q hq ↦ ?_⟩
    · rw [howner]
      show m'.lock = 0
      rw [advance_waitUnlock hunlock hadv]
      rfl
    · have hplace : (m'.place q).usesLock = true := hq
      rcases eq_or_ne q p with rfl | hne
      · rw [advance_waitUnlock hunlock hadv, goto_place_self] at hplace
        cases hplace
      · rw [hturn.place_of_ne hne] at hplace
        exact absurd (Option.some.inj ((h.owner q hplace).symm.trans hself)) hne
  by_cases hrelock : s.machine.place p = .waitRelock
  · have howner : (s.after (.advance p) m').lockOwner = some p :=
      (if_neg hunlock).trans (if_pos hrelock)
    obtain ⟨hfree, rfl⟩ := advance_waitRelock hrelock hadv
    refine ⟨?_, fun q hq ↦ ?_⟩
    · rw [howner]
      rfl
    · rcases eq_or_ne q p with rfl | hne
      · exact howner
      · have hplace : ((s.machine.goto p .user).place q).usesLock = true := hq
        rw [goto_place_of_ne hne, (h.nobody hfree).2 q] at hplace
        cases hplace
  have howner : (s.after (.advance p) m').lockOwner = s.lockOwner :=
    (if_neg hunlock).trans (if_neg hrelock)
  refine ⟨?_, fun q hq ↦ ?_⟩ <;> rw [howner]
  · exact (lock_of_advance hunlock hrelock hadv).trans h.lock
  · have hplace : (m'.place q).usesLock = true := hq
    rcases eq_or_ne q p with rfl | hne
    · exact h.owner q ((Place.usesLock_next hturn.next hplace).resolve_left huser).1
    · rw [hturn.place_of_ne hne] at hplace
      exact h.owner q hplace

/-- The owner of the lock enters one of the calls. -/
theorem LockUsed.enter (h : LockUsed s) (howner : s.lockOwner = some p)
    (hkeep : s.lockOwnerAfter a = s.lockOwner) : LockUsed (s.after a (s.machine.goto p l)) := by
  refine ⟨(congrArg (fun o : Option Slot ↦ if o.isSome then 1 else 0) hkeep).symm ▸ h.lock,
    fun q hq ↦ hkeep.trans ?_⟩
  rcases eq_or_ne q p with rfl | hne
  · exact howner
  · have hplace : ((s.machine.goto p l).place q).usesLock = true := hq
    rw [goto_place_of_ne hne] at hplace
    exact h.owner q hplace

/-- Every step with discipline keeps the lock with its owner. -/
theorem LockUsed.step (h : LockUsed s) (hd : s.Disciplined a) (hstep : s.machine.step a = .ok m') :
    LockUsed (s.after a m') := by
  cases stepped_of_step hstep with
  | kernel hcaller hfree hk => exact ⟨h.lock, h.owner⟩
  | lockAcquire hp huser hlock =>
    refine ⟨rfl, fun q hq ↦ ?_⟩
    have hplace : (s.machine.place q).usesLock = true := hq
    rw [(h.nobody hlock).2 q] at hplace
    cases hplace
  | lockRelease hp huser =>
    refine ⟨rfl, fun q hq ↦ ?_⟩
    have hqp := hd q (h.owner q hq)
    have hplace : (s.machine.place q).usesLock = true := hq
    rw [hqp, huser] at hplace
    cases hplace
  | condWait hp => exact h.enter hd rfl
  | condSignal hp => exact h.enter hd rfl
  | advance hp hadv => exact h.advance hadv

/-! ### Who has called -/

/-- Who has called `cond_wait` has been taken from the queue, or is in it, or is on its way. -/
structure Lined (s : Logged) (queue : List Slot) (arriving : Option Slot) : Prop where
  room : ∀ p, s.machine.place p = .waitFlag ∨ s.machine.place p = .waitQueue → queue.length < 8
  held : SpinFlag.Held Place.isArriving s.machine.place (if arriving.isSome then 1 else 0) arriving
  called : s.called = s.dequeued.map Prod.fst ++ queue ++ arriving.toList
  numbered : ∀ e ∈ s.dequeued, e.2 ≤ s.signals
  once : (s.dequeued.map Prod.snd).Nodup
  fresh : ∀ p, (s.machine.place p).isSignalling = true →
    s.signal p ≤ s.signals ∧ ∀ e ∈ s.dequeued, e.2 ≠ s.signal p

theorem Place.usesLock_of_holdsFlag (h : l.holdsFlag = true) : l.usesLock = true := by
  revert h
  cases l <;> decide

theorem Place.usesLock_of_isArriving (h : l.isArriving = true) : l.usesLock = true := by
  revert h
  cases l <;> decide

theorem Place.usesLock_of_isSignalling (h : l.isSignalling = true) : l.usesLock = true := by
  revert h
  cases l <;> decide

/-- A waiter arrives until it has written its entry. -/
theorem Place.isArriving_next (h : l' ∈ l.next) (hl : l ≠ .user) (hqueue : l ≠ .waitQueue) :
    l'.isArriving = l.isArriving := by
  revert hl hqueue l'
  cases l <;> decide

/-- Nobody comes to signal but by a call. -/
theorem Place.isSignalling_next (h : l' ∈ l.next) (hl : l ≠ .user) (hl' : l'.isSignalling = true) :
    l.isSignalling = true := by
  revert hl l'
  cases l <;> decide

/-- A waiter comes to its entry by the test of the count. -/
theorem Place.of_waitFlag_next (h : l' ∈ l.next) (hl' : l' = .waitFlag ∨ l' = .waitQueue) :
    l = .waitCount ∨ l = .waitFlag := by
  revert l'
  cases l <;> decide

/-- There are at most eight in the queue. -/
theorem Ring.length_le {c : Cond} {lag : Lag} (h : Ring c lag queue) : queue.length ≤ 8 := by
  obtain ⟨first, last, h⟩ := h
  exact h.holds.length_le

/-- What the thread with the lock sees outside of the section under the flag. -/
theorem LockUsed.ring (h : LockUsed s) (harrayed : Arrayed s.machine owner queue)
    (hp : (s.machine.place p).usesLock = true) (hout : (s.machine.place p).holdsFlag = false) :
    Ring s.machine.cond ⟨0, 0, 0⟩ queue := by
  have hring := harrayed.ring
  rcases owner with - | o
  · exact hring
  · have hflag := (harrayed.held.holds_iff o).2 rfl
    obtain rfl := h.eq (Place.usesLock_of_holdsFlag hflag) hp
    rw [hflag] at hout
    cases hout

/-- A waiter finds room in the queue after it has looked at the counter. -/
theorem LockUsed.room (h : LockUsed s) (harrayed : Arrayed s.machine owner queue)
    (hp : s.machine.place p = .waitCount) (hadv : s.machine.advance p = .ok m') :
    queue.length < 8 := by
  have hring := h.ring (p := p) harrayed (by rw [hp]; rfl) (by rw [hp]; rfl)
  simp only [Machine.advance, hp] at hadv
  split_ifs at hadv with hfull
  have hle := hring.length_le
  have hcount := hring.count_eq
  omega

/-- The machine takes a step that is not logged, in which no process moves. -/
theorem Lined.of_place_eq (h : Lined s queue arriving) {s' : Logged}
    (hplace : s'.machine.place = s.machine.place) (hcalled : s'.called = s.called)
    (hdequeued : s'.dequeued = s.dequeued) (hsignals : s'.signals = s.signals)
    (hsignal : s'.signal = s.signal) : Lined s' queue arriving := by
  refine ⟨?_, ?_, ?_, ?_, ?_, ?_⟩
  · rw [hplace]
    exact h.room
  · rw [hplace]
    exact h.held
  · rw [hcalled, hdequeued]
    exact h.called
  · rw [hdequeued, hsignals]
    exact h.numbered
  · rw [hdequeued]
    exact h.once
  · rw [hplace, hdequeued, hsignals, hsignal]
    exact h.fresh

/-- The owner of the lock calls `cond_wait`. -/
theorem Lined.condWait (h : Lined s queue arriving) (hlock : LockUsed s)
    (howner : s.lockOwner = some p) (hp : s.machine.place p = .user) :
    Lined (s.after (.condWait p) (s.machine.goto p .waitLock)) queue (some p) := by
  have hnone : arriving = none := by
    rcases arriving with - | o
    · rfl
    · -- somebody else who is on its way would have the lock
      have harr := (h.held.holds_iff o).2 rfl
      have ho := hlock.owner o (Place.usesLock_of_isArriving harr)
      obtain rfl := Option.some.inj (ho.symm.trans howner)
      rw [hp] at harr
      cases harr
  have hother : ∀ q, ((s.machine.goto p .waitLock).place q) = .waitLock ∨
      (s.machine.goto p .waitLock).place q = s.machine.place q := fun q ↦ by
    rcases eq_or_ne q p with rfl | hne
    · exact .inl goto_place_self
    · exact .inr (goto_place_of_ne hne)
  refine ⟨fun q hq ↦ ?_, ?_, ?_, h.numbered, h.once, fun q hq ↦ ?_⟩
  · rcases hother q with heq | heq <;> rw [after_machine, heq] at hq
    · rcases hq with hq | hq <;> cases hq
    · exact h.room q hq
  · have hheld := h.held
    rw [hnone] at hheld
    exact hheld.take rfl rfl
  · have hcalled := h.called
    rw [hnone, Option.toList_none, List.append_nil] at hcalled
    show s.called ++ [p] = s.dequeued.map Prod.fst ++ queue ++ [p]
    rw [hcalled]
  · rcases hother q with heq | heq <;> rw [after_machine, heq] at hq
    · cases hq
    · exact h.fresh q hq

/-- The owner of the lock calls `cond_signal`. -/
theorem Lined.condSignal (h : Lined s queue arriving) (hp : s.machine.place p = .user) :
    Lined (s.after (.condSignal p) (s.machine.goto p .signalFlag)) queue arriving := by
  refine ⟨fun q hq ↦ ?_, h.held.stay (by rw [hp]; rfl), h.called,
    fun e he ↦ (h.numbered e he).trans (Nat.le_succ _), h.once, fun q hq ↦ ?_⟩
  · rcases eq_or_ne q p with rfl | hne
    · rw [after_machine, goto_place_self] at hq
      rcases hq with hq | hq <;> cases hq
    · rw [after_machine, goto_place_of_ne hne] at hq
      exact h.room q hq
  · show Function.update s.signal p (s.signals + 1) q ≤ s.signals + 1 ∧
      ∀ e ∈ s.dequeued, e.2 ≠ Function.update s.signal p (s.signals + 1) q
    rcases eq_or_ne q p with rfl | hne
    · rw [Function.update_self]
      exact ⟨le_rfl, fun e he ↦ (Nat.lt_succ_of_le (h.numbered e he)).ne⟩
    · rw [after_machine, goto_place_of_ne hne] at hq
      rw [Function.update_of_ne hne]
      exact ⟨(h.fresh q hq).1.trans (Nat.le_succ _), (h.fresh q hq).2⟩

/-- A waiter puts itself into the queue. -/
theorem Lined.waitQueue (h : Lined s queue arriving) (hlock : LockUsed s)
    (hp : s.machine.place p = .waitQueue) (hadv : s.machine.advance p = .ok m') :
    Lined (s.after (.advance p) m') (queue ++ [p]) none := by
  have hturn := turn_of_advance hadv
  have harr : (s.machine.place p).isArriving = true := by rw [hp]; rfl
  have hself : m'.place = Function.update s.machine.place p .waitTail := by
    obtain ⟨l, hl, hplace⟩ := hturn.place
    rw [hp] at hl
    rw [hplace, List.mem_singleton.1 hl]
  have hdequeued : (s.after (.advance p) m').dequeued = s.dequeued :=
    if_neg (by rw [hp]; decide)
  -- nobody else is in a call who needs the lock
  have hnobody : ∀ q, (m'.place q).usesLock = true → m'.place q = .waitTail := fun q hq ↦ by
    rcases eq_or_ne q p with rfl | hne
    · rw [hself, Function.update_self]
    · rw [hturn.place_of_ne hne] at hq
      exact absurd (hlock.eq hq (by rw [hp]; rfl)) hne
  refine ⟨fun q hq ↦ ?_, ?_, ?_, ?_, ?_, fun q hq ↦ ?_⟩
  · have hplace : m'.place q = .waitFlag ∨ m'.place q = .waitQueue := hq
    have htail := hnobody q (by rcases hplace with heq | heq <;> rw [heq] <;> rfl)
    rw [htail] at hplace
    rcases hplace with heq | heq <;> cases heq
  · show SpinFlag.Held Place.isArriving m'.place 0 none
    rw [hself]
    exact h.held.give harr rfl
  · rw [hdequeued]
    show s.called = _
    rw [h.called, h.held.owner_eq harr, Option.toList_some, Option.toList_none, List.append_nil,
      List.append_assoc]
  · rw [hdequeued]
    exact h.numbered
  · rw [hdequeued]
    exact h.once
  · have hplace : (m'.place q).isSignalling = true := hq
    rw [hnobody q (Place.usesLock_of_isSignalling hplace)] at hplace
    cases hplace

/-- A signal takes the first one from the queue. -/
theorem Lined.signalState (h : Lined s queue arriving) (hlock : LockUsed s)
    (harrayed : Arrayed s.machine owner queue) (hp : s.machine.place p = .signalState)
    (hadv : s.machine.advance p = .ok m') :
    Lined (s.after (.advance p) m') queue.tail arriving := by
  have hturn := turn_of_advance hadv
  obtain ⟨x, rest, rfl, hhead, -⟩ := harrayed.signal_head hp
  obtain ⟨hle, hnew⟩ := h.fresh p (by rw [hp]; rfl)
  have hself : m'.place = Function.update s.machine.place p .signalHead := by
    obtain ⟨l, hl, hplace⟩ := hturn.place
    rw [hp] at hl
    rw [hplace, List.mem_singleton.1 hl]
  have hdequeued : (s.after (.advance p) m').dequeued = s.dequeued ++ [(x, s.signal p)] := by
    show (if s.machine.place p = .signalState then _ else _) = _
    rw [if_pos hp, hhead]
    rfl
  have hnobody : ∀ q, (m'.place q).usesLock = true → m'.place q = .signalHead := fun q hq ↦ by
    rcases eq_or_ne q p with rfl | hne
    · rw [hself, Function.update_self]
    · rw [hturn.place_of_ne hne] at hq
      exact absurd (hlock.eq hq (by rw [hp]; rfl)) hne
  refine ⟨fun q hq ↦ ?_, ?_, ?_, ?_, ?_, fun q hq ↦ ?_⟩
  · have hplace : m'.place q = .waitFlag ∨ m'.place q = .waitQueue := hq
    have hsignal := hnobody q (by rcases hplace with heq | heq <;> rw [heq] <;> rfl)
    rw [hsignal] at hplace
    rcases hplace with heq | heq <;> cases heq
  · show SpinFlag.Held Place.isArriving m'.place _ arriving
    rw [hself]
    exact h.held.stay (by rw [hp]; rfl)
  · rw [hdequeued]
    show s.called = _
    rw [h.called, List.map_append, List.tail_cons]
    simp
  · rw [hdequeued]
    intro e he
    rcases List.mem_append.1 he with hold | hlast
    · exact h.numbered e hold
    · rw [List.mem_singleton.1 hlast]
      exact hle
  · rw [hdequeued, List.map_append]
    refine List.Nodup.append h.once (List.nodup_singleton _) fun n hn hlast ↦ ?_
    obtain ⟨e, he, rfl⟩ := List.mem_map.1 hn
    exact hnew e he (List.mem_singleton.1 hlast)
  · have hplace : (m'.place q).isSignalling = true := hq
    rw [hnobody q (Place.usesLock_of_isSignalling hplace)] at hplace
    cases hplace

/-- Any other step in one of the calls. -/
theorem Lined.aside (h : Lined s queue arriving) (hlock : LockUsed s)
    (harrayed : Arrayed s.machine owner queue) (hqueue : s.machine.place p ≠ .waitQueue)
    (hsignal : s.machine.place p ≠ .signalState) (hadv : s.machine.advance p = .ok m') :
    Lined (s.after (.advance p) m') queue arriving := by
  have hturn := turn_of_advance hadv
  have huser := ne_user_of_advance hadv
  have hdequeued : (s.after (.advance p) m').dequeued = s.dequeued := if_neg hsignal
  refine ⟨fun q hq ↦ ?_, ?_, ?_, ?_, ?_, fun q hq ↦ ?_⟩
  · have hplace : m'.place q = .waitFlag ∨ m'.place q = .waitQueue := hq
    rcases eq_or_ne q p with rfl | hne
    · rcases Place.of_waitFlag_next hturn.next hplace with hcount | hflag
      · exact hlock.room harrayed hcount hadv
      · exact h.room q (.inl hflag)
    · rw [hturn.place_of_ne hne] at hplace
      exact h.room q hplace
  · obtain ⟨l, hl, hplace⟩ := hturn.place
    show SpinFlag.Held Place.isArriving m'.place _ arriving
    rw [hplace]
    exact h.held.stay (Place.isArriving_next hl huser hqueue)
  · rw [hdequeued]
    exact h.called
  · rw [hdequeued]
    exact h.numbered
  · rw [hdequeued]
    exact h.once
  · have hplace : (m'.place q).isSignalling = true := hq
    rw [hdequeued]
    rcases eq_or_ne q p with rfl | hne
    · exact h.fresh q (Place.isSignalling_next hturn.next huser hplace)
    · rw [hturn.place_of_ne hne] at hplace
      exact h.fresh q hplace

/-- A step with discipline keeps the waiters in line. -/
theorem Lined.step (h : Lined s queue arriving) (hlock : LockUsed s)
    (harrayed : Arrayed s.machine owner queue) (hd : s.Disciplined a)
    (hstep : s.machine.step a = .ok m') :
    ∃ arriving', Lined (s.after a m') (s.machine.queueAfter queue a) arriving' := by
  cases stepped_of_step hstep with
  | kernel hcaller hfree hk => exact ⟨_, h.of_place_eq rfl rfl rfl rfl rfl⟩
  | lockAcquire hp huser hunlocked => exact ⟨_, h.of_place_eq rfl rfl rfl rfl rfl⟩
  | lockRelease hp huser => exact ⟨_, h.of_place_eq rfl rfl rfl rfl rfl⟩
  | condWait hp => exact ⟨_, h.condWait hlock hd hp.2.1⟩
  | condSignal hp => exact ⟨_, h.condSignal hp.2.1⟩
  | @advance p _ hp hadv =>
    by_cases hwrite : s.machine.place p = .waitQueue
    · rw [queueAfter_waitQueue hwrite]
      exact ⟨_, h.waitQueue hlock hwrite hadv⟩
    by_cases hsignal : s.machine.place p = .signalState
    · rw [queueAfter_signalState hsignal]
      exact ⟨_, h.signalState hlock harrayed hsignal hadv⟩
    rw [queueAfter_of_ne hwrite hsignal]
    exact ⟨_, h.aside hlock harrayed hwrite hsignal hadv⟩

/-! ### Runs -/

/-- All that is kept in a run. -/
structure Kempt (s : Logged) (owner : Option Slot) (queue : List Slot) (arriving : Option Slot) :
    Prop where
  lock : LockUsed s
  rests : Rests s.machine
  arrayed : Arrayed s.machine owner queue
  live : Live s.machine queue
  switches : Switches s.machine
  lined : Lined s queue arriving

/-- At boot all is in order. -/
theorem kempt_boot {d : ℕ} (hd : d ≠ 0) (c : Cond) : Kempt (Logged.boot d c) none [] none where
  lock := ⟨rfl, fun _ hp ↦ by cases hp⟩
  rests := rests_boot d c
  arrayed := arrayed_boot d c
  live := live_boot hd c
  switches := switches_boot d c
  lined := by
    refine ⟨fun p hp ↦ ?_, SpinFlag.held_none fun _ ↦ rfl, rfl, fun _ he ↦ ?_, List.nodup_nil,
      fun p hp ↦ ?_⟩
    · rcases hp with hp | hp <;> cases hp
    · cases he
    · cases hp

/-- Discipline spares who waits. -/
theorem Logged.Disciplined.spares (h : s.Disciplined a) : s.machine.Spares a := by
  cases a with
  | kernel a => exact h
  | _ => trivial

/-- A step with discipline keeps everything in order. -/
theorem Kempt.step (h : Kempt s owner queue arriving) (hd : s.Disciplined a)
    (hstep : s.machine.step a = .ok m') :
    ∃ owner' queue' arriving', Kempt (s.after a m') owner' queue' arriving' := by
  have hroom : ∀ p, a = .advance p → s.machine.place p = .waitQueue → s.machine.cond.count < 8 := by
    rintro p rfl hp
    have hring := h.arrayed.ring_of_holdsFlag (p := p) (by rw [hp]; rfl)
    rw [hp] at hring
    rw [Ring.count_eq hring]
    exact h.lined.room p (.inr hp)
  obtain ⟨owner', harrayed⟩ := h.arrayed.step hroom hstep
  obtain ⟨arriving', hlined⟩ := h.lined.step h.lock h.arrayed hd hstep
  exact ⟨owner', _, arriving', h.lock.step hd hstep, h.rests.step hstep, harrayed,
    h.live.step h.arrayed h.rests hd.spares hstep, h.switches.step h.live.tidy hstep, hlined⟩

/-- Outside of the sections under the flag nothing lags behind. -/
theorem Arrayed.ring_of_flag {m : Machine} (h : Arrayed m owner queue) (hflag : m.cond.flag = 0) :
    Ring m.cond ⟨0, 0, 0⟩ queue := by
  have hring := h.ring
  rw [h.held.owner_eq_none hflag] at hring
  exact hring

/-- Where nothing lags behind the tail is behind the last entry, -/
theorem Ring.tail_eq {c : Cond} (h : Ring c ⟨0, 0, 0⟩ queue) : c.tail = (c.head + c.count) % 8 := by
  have hcount := h.count_eq
  obtain ⟨first, last, h⟩ := h
  have hlast : last = first + queue.length := h.last_eq
  rw [h.tail, h.head, hcount, hlast, Nat.mod_add_mod]

/-- and the array holds the queue from the head on. -/
theorem Ring.slot {c : Cond} (h : Ring c ⟨0, 0, 0⟩ queue) {i : ℕ} (hi : i < c.count) :
    ∃ t, c.thqueue ((c.head + i) % 8) = some t ∧ queue[i]? = some t := by
  have hcount := h.count_eq
  obtain ⟨first, last, h⟩ := h
  have hlt : i < queue.length := hcount ▸ hi
  refine ⟨queue[i], ?_, List.getElem?_eq_getElem hlt⟩
  rw [h.head, Nat.mod_add_mod]
  exact h.holds.slot i _ (List.getElem?_eq_getElem hlt)

/-- The place behind a queue that is not full is not one of its own. -/
theorem Ring.ne_tail {c : Cond} (h : Ring c ⟨0, 0, 0⟩ queue) (hroom : queue.length < 8) {i : ℕ}
    (hi : i < c.count) : (c.head + i) % 8 ≠ c.tail := by
  have hcount := h.count_eq
  rw [h.tail_eq, hcount]
  exact RingBuffer.place_ne (hcount ▸ hi) hroom

/-- Who has called and has not been taken is in the queue or on its way, -/
theorem Kempt.drop_called (h : Kempt s owner queue arriving) :
    s.called.drop s.dequeued.length = queue ++ arriving.toList := by
  rw [h.lined.called, List.append_assoc]
  exact List.drop_left' (List.length_map _)

/-- each of them once. -/
theorem Kempt.distinct (h : Kempt s owner queue arriving) :
    (s.called.drop s.dequeued.length).Nodup := by
  rw [h.drop_called]
  refine List.Nodup.append h.live.nodup ?_ fun t ht harr ↦ ?_
  · rcases arriving with - | p
    · exact List.nodup_nil
    · exact List.nodup_singleton p
  · -- who is on its way has not been put into the queue
    rcases arriving with - | p
    · cases harr
    obtain rfl := List.mem_singleton.1 harr
    have hplace := (h.lined.held.holds_iff t).2 rfl
    rcases h.live.waiting t ht with hl | ⟨hl, -⟩ <;> revert hl hplace <;>
      cases s.machine.place t <;> decide

/-- The counter that a waiter looks at counts those that wait. -/
theorem Kempt.count (h : Kempt s owner queue arriving) (hp : s.machine.place p = .waitCount) :
    s.called.length = s.dequeued.length + s.machine.cond.count + 1 := by
  have hring := h.lock.ring (p := p) h.arrayed (by rw [hp]; rfl) (by rw [hp]; rfl)
  rw [h.lined.called, h.lined.held.owner_eq (p := p) (by rw [hp]; rfl), hring.count_eq,
    List.length_append, List.length_append, List.length_map, Option.toList_some,
    List.length_singleton]

/-- The kernel panics at the ninth waiter. -/
theorem Kempt.panic_iff (h : Kempt s owner queue arriving) (p : Slot) :
    s.machine.step (.advance p) = .error .panic ↔ s.machine.Executes p ∧
      s.machine.place p = .waitCount ∧ s.called.length = s.dequeued.length + 9 := by
  constructor
  · intro hpanic
    have hexec : s.machine.Executes p := by
      simp only [Machine.step] at hpanic
      split_ifs at hpanic with hexec
      · exact hexec
      · cases hpanic
    rcases h.switches.panic hpanic with ⟨hp, hfree⟩ | ⟨hp, hfull⟩ | ⟨hp, hempty⟩
    · have howner := h.lock.owner p (by rw [hp]; rfl)
      rw [(h.lock.nobody hfree).1] at howner
      cases howner
    · have hcount := h.count hp
      exact ⟨hexec, hp, by omega⟩
    · obtain ⟨x, rest, -, hhead, -⟩ := h.arrayed.signal_head hp
      rw [hempty] at hhead
      cases hhead
  · rintro ⟨hexec, hp, hnine⟩
    have hcount := h.count hp
    have hfull : s.machine.cond.count = 8 := by omega
    simp only [Machine.step, if_pos hexec, Machine.advance, hp, if_pos hfull]

/-- What is in order is a queue. -/
theorem Kempt.inOrder (h : Kempt s owner queue arriving) : s.InOrder where
  order := by
    rw [h.lined.called, List.append_assoc]
    exact List.prefix_append _ _
  once := h.lined.once
  distinct := h.distinct
  room p hp i hi := by
    have hring := h.arrayed.ring_of_holdsFlag (p := p) (by rw [hp]; rfl)
    rw [hp] at hring
    exact Ring.ne_tail hring (h.lined.room p (.inr hp)) hi
  counters hflag := (h.arrayed.ring_of_flag hflag).tail_eq
  array hflag i hi := by
    obtain ⟨t, hslot, hqueue⟩ := (h.arrayed.ring_of_flag hflag).slot hi
    refine ⟨t, hslot, ?_⟩
    rw [← List.getElem?_drop, h.drop_called,
      List.getElem?_append_left (List.getElem?_eq_some_iff.1 hqueue).1]
    exact hqueue
  panic := h.panic_iff

/-- **The waiters are served in the order of their calls**, and the kernel panics just when a ninth
one comes. -/
theorem inOrder_of_reachable (h : (Logged.system.restrict Disciplined).Reachable s) :
    s.InOrder := by
  have hkempt : ∃ owner queue arriving, Kempt s owner queue arriving := by
    refine h.invariant (I := fun s ↦ ∃ owner queue arriving, Kempt s owner queue arriving) ?_ ?_
    · rintro s ⟨d, c, hd, rfl⟩
      exact ⟨none, [], none, kempt_boot hd c⟩
    · rintro s a s' ⟨owner, queue, arriving, hkempt⟩ ⟨hd, hstep⟩
      obtain ⟨m, hm, hok⟩ := bind_eq_ok_iff.1 hstep
      obtain rfl := Except.ok.inj hok
      exact hkempt.step hd hm
  obtain ⟨owner, queue, arriving, hkempt⟩ := hkempt
  exact hkempt.inOrder

/-! ### A ninth waiter -/

instance (s : Logged) : (a : Act) → Decidable (s.Disciplined a)
  | .kernel _ => inferInstanceAs (Decidable (∀ t, _ = some t → ¬ _))
  | .lockAcquire _ => inferInstanceAs (Decidable True)
  | .lockRelease _ => inferInstanceAs (Decidable (∀ q, _ = some q → _ = _))
  | .condWait _ => inferInstanceAs (Decidable (_ = _))
  | .condSignal _ => inferInstanceAs (Decidable (_ = _))
  | .advance _ => inferInstanceAs (Decidable True)

/-- A thread calls `cond_wait` with the lock and falls asleep. -/
def waitsFor (p : Slot) : List Act :=
  [.kernel (.dispatch p), .lockAcquire p, .condWait p] ++ List.replicate 11 (.advance p)

/-- The first process clones `n` threads, which wait one after the other. -/
def waitInTurn (n : ℕ) : List Act :=
  .kernel (.dispatch initproc) ::
    (List.replicate n [.kernel (.clone initproc 4096), .kernel (.cloneCopy initproc),
      .kernel (.cloneReturn initproc true)]).flatten ++
    ((List.finRange NPROC).tail.take n).flatMap waitsFor

/-- Two threads wait, and the first process signals twice. -/
def twoSignals : List Act :=
  waitInTurn 2 ++ [.lockAcquire initproc, .condSignal initproc] ++
    List.replicate 7 (.advance initproc) ++ .condSignal initproc ::
      List.replicate 7 (.advance initproc)

/-- **They are taken from the queue as they came.** -/
theorem twoSignals_inOrder : ∃ s, (Logged.system.restrict Disciplined).Reachable s ∧
    s.dequeued = [(thread, 1), (otherThread, 2)] ∧ s.InOrder := by
  obtain ⟨s, hreach, hdone⟩ := System.Reachable.exists_of_run
    (S := Logged.system.restrict Disciplined)
    (f := System.checked Disciplined Logged.step .blocked)
    (p := fun s ↦ decide (s.dequeued = [(thread, 1), (otherThread, 2)]))
    (System.next_of_checked fun _ _ _ h ↦ h) (l := twoSignals)
    (.init ⟨1, freshCond, by decide, rfl⟩) (by decide +kernel)
  exact ⟨s, hreach, of_decide_eq_true hdone, inOrder_of_reachable hreach⟩

/-- Eight threads wait, and the first process is the ninth. -/
def nineWaiters : List Act :=
  waitInTurn 8 ++ [.lockAcquire initproc, .condWait initproc, .advance initproc]

/-- **The kernel panics.** -/
theorem nineWaiters_panics : ¬ ∀ s, (Logged.system.restrict Disciplined).Reachable s →
    ∀ p, s.machine.step (.advance p) ≠ .error .panic := by
  intro hall
  obtain ⟨s, hreach, hready⟩ := System.Reachable.exists_of_run
    (S := Logged.system.restrict Disciplined)
    (f := System.checked Disciplined Logged.step .blocked)
    (p := fun s ↦ decide (s.machine.Executes initproc ∧ s.machine.place initproc = .waitCount ∧
      s.machine.cond.count = 8))
    (System.next_of_checked fun _ _ _ h ↦ h) (l := nineWaiters)
    (.init ⟨1, freshCond, by decide, rfl⟩) (by decide +kernel)
  obtain ⟨hexec, hp, hfull⟩ := of_decide_eq_true hready
  refine hall s hreach initproc ?_
  simp only [Machine.step, if_pos hexec, Machine.advance, hp, if_pos hfull]

end CondVar

end Threads
