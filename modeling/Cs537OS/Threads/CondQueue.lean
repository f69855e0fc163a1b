import Cs537OS.Foundation.RingBuffer
import Cs537OS.Foundation.SpinFlag
import Cs537OS.Threads.CondVar

/-!
# The queue of a condition variable

The queue is a ring buffer that is used under the flag of the condition variable. Between two steps
the counters can be behind it: a waiter belongs to the queue when its entry is written, before
`tail` and `count` are moved on, and has left it when its state has been assigned, before `head` and
`count` are. `Lag` says by how much, for each place in the two calls. Two invariants are built on
it: one process has the flag and the array holds the queue as the counters and the lag say
(`Arrayed`), and everybody who waits is in the queue (`Orderly`).

**No wakeup is lost** (`noLostWakeup_of_reachable`) in a run in which no signal comes between the
release of the flag and the assignment of SLEEPING in the `cond_wait` of the process that it
dequeues, and no process puts itself into a full queue. A signal can be early: `hastySignal_loses`
is a run in which the signaller has the lock and the waiter sleeps for ever.
-/

open GuardedLoop (bind_eq_ok_iff)
open Xv6

namespace Threads

namespace CondVar

namespace Machine

/-- Process `t` is in the queue of the condition variable. -/
def Queued (m : Machine) (t : Slot) : Prop :=
  ∃ i < m.cond.count, m.cond.thqueue ((m.cond.head + i) % 8) = some t

/-- No process is SLEEPING inside `cond_wait` and no longer in the queue. -/
def NoLostWakeup (m : Machine) : Prop := ∀ t, m.Asleep t → m.Queued t

/-- The signal does not dequeue a process that is just about to fall asleep, and the process that
puts itself into the queue finds room there. -/
def OnTime (m : Machine) : Act → Prop
  | .advance p =>
    (m.place p = .signalState → ∀ t, m.cond.thqueue m.cond.head = some t →
      m.place t ≠ .waitUnlock ∧ m.place t ≠ .waitState) ∧
    (m.place p = .waitQueue → m.cond.count < 8)
  | _ => True

/-- Process `t` waits: it is in the queue, as far as it can know, and has not been woken. -/
def Waiting (m : Machine) (t : Slot) : Prop :=
  (m.place t).isListed = true ∨
    (m.place t).isDown = true ∧ (m.kernel.ptable t).state = .sleeping

end Machine

open Kernel Machine

variable {m m' : Machine} {p t : Slot} {l : Place} {owner : Option Slot} {queue : List Slot}

/-! ### The counters -/

/-- How far the counters are behind the queue. -/
structure Lag where
  head : ℕ
  tail : ℕ
  count : ℤ

/-- What the process that holds the flag has not written yet. -/
def Place.lag : Place → Lag
  | .waitTail => ⟨0, 1, -1⟩
  | .waitInc => ⟨0, 0, -1⟩
  | .signalHead => ⟨1, 0, 1⟩
  | .signalDec => ⟨0, 0, 1⟩
  | _ => ⟨0, 0, 0⟩

/-- The array holds `queue`, and the counters say so but for what they lag behind. -/
structure RingAt (c : Cond) (lag : Lag) (queue : List Slot) (first last : ℕ) : Prop where
  holds : RingBuffer.Holds 8 c.thqueue (first + lag.head) queue
  head : c.head = first % 8
  tail : c.tail = last % 8
  last_eq : last + lag.tail = first + lag.head + queue.length
  count : (c.count : ℤ) = queue.length + lag.count

def Ring (c : Cond) (lag : Lag) (queue : List Slot) : Prop :=
  ∃ first last, RingAt c lag queue first last

variable {c c' : Cond} {lag : Lag}

theorem Ring.flag (h : Ring c lag queue) (f : ℕ) : Ring { c with flag := f } lag queue := by
  obtain ⟨first, last, h⟩ := h
  exact ⟨first, last, h.holds, h.head, h.tail, h.last_eq, h.count⟩

/-- `cond_init` empties the ring. -/
theorem ring_init (c : Cond) : Ring c.init ⟨0, 0, 0⟩ [] :=
  ⟨0, 0, RingBuffer.holds_nil, rfl, rfl, rfl, rfl⟩

/-- `condvar->thqueue[condvar->tail]=proc` -/
theorem Ring.push (h : Ring c ⟨0, 0, 0⟩ queue) (hcount : c.count < 8) (p : Slot) :
    Ring { c with thqueue := Function.update c.thqueue c.tail (some p) } ⟨0, 1, -1⟩
      (queue ++ [p]) := by
  obtain ⟨first, last, h⟩ := h
  have hlen := h.count
  have hlast := h.last_eq
  dsimp only at hlen hlast
  refine ⟨first, last, ?_, h.head, h.tail, ?_, ?_⟩
  · have htail : c.tail = (first + queue.length) % 8 := by
      rw [h.tail]
      congr 1
    rw [htail]
    exact h.holds.push (by omega) p
  · rw [List.length_append, List.length_singleton]
    dsimp only
    omega
  · rw [List.length_append, List.length_singleton]
    dsimp only
    omega

/-- `condvar->tail=(condvar->tail+1)%8` -/
theorem Ring.tail (h : Ring c ⟨0, 1, -1⟩ queue) :
    Ring { c with tail := (c.tail + 1) % 8 } ⟨0, 0, -1⟩ queue := by
  obtain ⟨first, last, h⟩ := h
  refine ⟨first, last + 1, h.holds, h.head, ?_, h.last_eq, h.count⟩
  show (c.tail + 1) % 8 = (last + 1) % 8
  rw [h.tail, Nat.mod_add_mod]

/-- `condvar->count++` -/
theorem Ring.inc (h : Ring c ⟨0, 0, -1⟩ queue) :
    Ring { c with count := c.count + 1 } ⟨0, 0, 0⟩ queue := by
  obtain ⟨first, last, h⟩ := h
  refine ⟨first, last, h.holds, h.head, h.tail, h.last_eq, ?_⟩
  have hcount := h.count
  dsimp only at hcount ⊢
  omega

/-- The process at the head of the queue has been woken. -/
theorem Ring.pop (h : Ring c ⟨0, 0, 0⟩ (t :: queue)) : Ring c ⟨1, 0, 1⟩ queue := by
  obtain ⟨first, last, h⟩ := h
  have hlast := h.last_eq
  have hcount := h.count
  rw [List.length_cons] at hlast hcount
  dsimp only at hlast hcount
  refine ⟨first, last, h.holds.pop, h.head, h.tail, ?_, ?_⟩ <;> dsimp only <;> omega

/-- `condvar->head=(condvar->head+1)%8` -/
theorem Ring.head (h : Ring c ⟨1, 0, 1⟩ queue) :
    Ring { c with head := (c.head + 1) % 8 } ⟨0, 0, 1⟩ queue := by
  obtain ⟨first, last, h⟩ := h
  refine ⟨first + 1, last, h.holds, ?_, h.tail, h.last_eq, h.count⟩
  show (c.head + 1) % 8 = (first + 1) % 8
  rw [h.head, Nat.mod_add_mod]

/-- `condvar->count--` -/
theorem Ring.dec (h : Ring c ⟨0, 0, 1⟩ queue) :
    Ring { c with count := c.count - 1 } ⟨0, 0, 0⟩ queue := by
  obtain ⟨first, last, h⟩ := h
  refine ⟨first, last, h.holds, h.head, h.tail, h.last_eq, ?_⟩
  have hcount := h.count
  dsimp only at hcount ⊢
  omega

/-- The head of the queue is where `head` points. -/
theorem Ring.thqueue_head (h : Ring c ⟨0, 0, 0⟩ (t :: queue)) : c.thqueue c.head = some t := by
  obtain ⟨first, last, h⟩ := h
  rw [h.head]
  exact h.holds.head

/-- Where nothing lags behind the count is the length of the queue. -/
theorem Ring.count_eq (h : Ring c ⟨0, 0, 0⟩ queue) : c.count = queue.length := by
  obtain ⟨first, last, h⟩ := h
  have hcount := h.count
  dsimp only at hcount
  omega

/-- The count is behind by the waiter that is joining, or by the one that has been taken. -/
theorem Place.lag_cases (l : Place) :
    l.lag.count = -1 ∧ l.lag.head = 0 ∨ (l.lag.head : ℤ) ≤ l.lag.count := by
  cases l <;> simp [lag]

/-- A process in the queue is found by the counters, unless it is the last one and has not counted
itself yet. -/
theorem Ring.queued (h : Ring m.cond l.lag queue) (ht : t ∈ queue)
    (hlast : l.lag.count < 0 → ∃ q p, queue = q ++ [p] ∧ t ≠ p) : m.Queued t := by
  obtain ⟨first, last, h⟩ := h
  have hcount := h.count
  have hfound : ∃ i < m.cond.count, m.cond.thqueue ((first + i) % 8) = some t := by
    rcases l.lag_cases with ⟨hneg, hhead⟩ | hle
    · obtain ⟨q, p, rfl, hne⟩ := hlast (by omega)
      have hq : t ∈ q := by simpa [hne] using ht
      have hholds := h.holds.of_append
      rw [hhead] at hholds
      obtain ⟨i, hi, hslot⟩ := hholds.exists_slot hq
      rw [List.length_append, List.length_singleton] at hcount
      exact ⟨i, by omega, hslot⟩
    · obtain ⟨i, hi, hslot⟩ := h.holds.exists_slot ht
      rw [Nat.add_assoc] at hslot
      exact ⟨l.lag.head + i, by omega, hslot⟩
  obtain ⟨i, hi, hslot⟩ := hfound
  refine ⟨i, hi, ?_⟩
  rw [h.head, Nat.mod_add_mod]
  exact hslot

/-- Who holds the flag, and the queue. -/
structure Orderly (m : Machine) (owner : Option Slot) (queue : List Slot) : Prop where
  held : SpinFlag.Held Place.holdsFlag m.place m.cond.flag owner
  ring : Ring m.cond ((owner.elim .user m.place).lag) queue
  waiting : ∀ t, m.Waiting t → t ∈ queue
  /-- A process that has not counted itself yet is the last one. -/
  last : ∀ p, (m.place p).lag.count < 0 → ∃ q, queue = q ++ [p]
  nonempty : ∀ p, m.place p = .signalState → queue ≠ []

/-- The same, whoever waits. -/
structure Arrayed (m : Machine) (owner : Option Slot) (queue : List Slot) : Prop where
  held : SpinFlag.Held Place.holdsFlag m.place m.cond.flag owner
  ring : Ring m.cond ((owner.elim .user m.place).lag) queue
  last : ∀ p, (m.place p).lag.count < 0 → ∃ q, queue = q ++ [p]
  nonempty : ∀ p, m.place p = .signalState → queue ≠ []

/-- In an orderly queue the array is right, -/
theorem Orderly.arrayed (h : Orderly m owner queue) : Arrayed m owner queue :=
  ⟨h.held, h.ring, h.last, h.nonempty⟩

/-- and it is orderly when nobody who waits is missing. -/
theorem Arrayed.orderly (h : Arrayed m owner queue) (hwaiting : ∀ t, m.Waiting t → t ∈ queue) :
    Orderly m owner queue :=
  ⟨h.held, h.ring, hwaiting, h.last, h.nonempty⟩

theorem Place.holdsFlag_of_lag (h : l.lag.count < 0) : l.holdsFlag = true := by
  cases l <;> first | rfl | exact absurd h (by decide)

/-- Between giving the flag back and falling asleep. -/
theorem Place.of_isListed (h : l.isListed = true) (hfree : l.holdsFlag = false) :
    l = .waitUnlock ∨ l = .waitState := by
  cases l <;> simp_all [isListed, holdsFlag]

theorem Place.isListed_of_isDown (h : l.isDown = true) : l.isListed = false := by
  cases l <;> simp_all [isListed, isDown]

theorem Place.holdsFlag_of_isDown (h : l.isDown = true) : l.holdsFlag = false := by
  cases l <;> simp_all [holdsFlag, isDown]

/-! ### The array -/

/-- A turn of one process keeps the array right when its part of it does. -/
theorem Arrayed.turn (h : Arrayed m owner queue) {owner' : Option Slot} {queue' : List Slot}
    (hplace : m'.place = Function.update m.place p l)
    (hheld : SpinFlag.Held Place.holdsFlag m'.place m'.cond.flag owner')
    (hring : Ring m'.cond (owner'.elim .user m'.place).lag queue')
    (hqueue : queue' = queue ∨ owner = some p)
    (hlast : l.lag.count < 0 → ∃ q, queue' = q ++ [p])
    (hnonempty : l = .signalState → queue' ≠ []) :
    Arrayed m' owner' queue' := by
  -- another process that holds the flag sees the queue that it saw
  have hsame : ∀ t, t ≠ p → (m.place t).holdsFlag = true → queue' = queue := by
    intro t ht hflag
    rcases hqueue with heq | rfl
    · exact heq
    · exact absurd (Option.some.inj (h.held.owner_eq hflag)).symm ht
  refine ⟨hheld, hring, fun t ht ↦ ?_, fun t ht ↦ ?_⟩
  · by_cases htp : t = p
    · rw [htp, hplace, Function.update_self] at ht
      exact htp ▸ hlast ht
    · rw [hplace, Function.update_of_ne htp] at ht
      rw [hsame t htp (Place.holdsFlag_of_lag ht)]
      exact h.last t ht
  · by_cases htp : t = p
    · rw [htp, hplace, Function.update_self] at ht
      exact hnonempty ht
    · rw [hplace, Function.update_of_ne htp] at ht
      rw [hsame t htp (by rw [ht]; rfl)]
      exact h.nonempty t ht

/-- The process that moves neither has the flag nor takes it. -/
theorem Arrayed.aside (h : Arrayed m owner queue) (hplace : m'.place = Function.update m.place p l)
    (hcond : m'.cond = m.cond) (hp : (m.place p).holdsFlag = false) (hl : l.holdsFlag = false) :
    Arrayed m' owner queue := by
  have hheld := h.held.stay (hl.trans hp.symm)
  refine h.turn hplace ?_ ?_ (.inl rfl) ?_ ?_
  · rw [hplace, hcond]
    exact hheld
  · have hring := h.ring
    cases owner with
    | none => rwa [hcond]
    | some o =>
      have ho : o ≠ p := by
        rintro rfl
        rw [(h.held.holds_iff o).2 rfl] at hp
        cases hp
      rw [hcond, hplace]
      show Ring m.cond (Function.update m.place p l o).lag queue
      rwa [Function.update_of_ne ho]
  · intro hlag
    rw [Place.holdsFlag_of_lag hlag] at hl
    cases hl
  · rintro rfl
    cases hl

/-- The process that moves keeps the flag. -/
theorem Arrayed.inside (h : Arrayed m owner queue) {queue' : List Slot}
    (hplace : m'.place = Function.update m.place p l) (hp : (m.place p).holdsFlag = true)
    (hl : l.holdsFlag = true) (hflag : m'.cond.flag = m.cond.flag)
    (hring : Ring m.cond (m.place p).lag queue → Ring m'.cond l.lag queue')
    (hlast : l.lag.count < 0 → ∃ q, queue' = q ++ [p])
    (hnonempty : l = .signalState → queue' ≠ []) :
    Arrayed m' owner queue' := by
  have ho := h.held.owner_eq hp
  refine h.turn hplace ?_ ?_ (.inr ho) hlast hnonempty
  · rw [hplace, hflag]
    exact h.held.stay (hl.trans hp.symm)
  · have hold := h.ring
    subst ho
    rw [hplace]
    show Ring m'.cond (Function.update m.place p l p).lag queue'
    rw [Function.update_self]
    exact hring hold

/-- The process that moves keeps the flag, and neither has written an entry nor is about to read
one. -/
theorem Arrayed.keep (h : Arrayed m owner queue) {queue' : List Slot}
    (hplace : m'.place = Function.update m.place p l) (hp : (m.place p).holdsFlag = true)
    (hl : l.holdsFlag = true) (hflag : m'.cond.flag = m.cond.flag)
    (hring : Ring m.cond (m.place p).lag queue → Ring m'.cond l.lag queue')
    (hcount : ¬ l.lag.count < 0) (hstate : l ≠ .signalState) : Arrayed m' owner queue' :=
  h.inside hplace hp hl hflag hring (fun hneg ↦ absurd hneg hcount) fun heq ↦ absurd heq hstate

/-- The process that moves takes the flag. -/
theorem Arrayed.take (h : Arrayed m owner queue) (hplace : m'.place = Function.update m.place p l)
    (hfree : m.cond.flag = 0) (hcond : m'.cond = { m.cond with flag := 1 })
    (hl : l.holdsFlag = true) (hlag : l.lag = ⟨0, 0, 0⟩) (hstate : l ≠ .signalState) :
    Arrayed m' (some p) queue := by
  have hnone := h.held.owner_eq_none hfree
  refine h.turn hplace ?_ ?_ (.inl rfl) ?_ fun heq ↦ absurd heq hstate
  · rw [hplace, hcond]
    exact h.held.take hfree hl
  · have hold := h.ring
    rw [hnone] at hold
    rw [hplace, hcond]
    show Ring _ (Function.update m.place p l p).lag queue
    rw [Function.update_self, hlag]
    exact hold.flag 1
  · intro hneg
    rw [hlag] at hneg
    exact absurd hneg (by decide)

/-- The process that moves gives the flag back. -/
theorem Arrayed.give (h : Arrayed m owner queue) (hplace : m'.place = Function.update m.place p l)
    (hcond : m'.cond = { m.cond with flag := 0 }) (hp : (m.place p).holdsFlag = true)
    (hlag : (m.place p).lag = ⟨0, 0, 0⟩) (hl : l.holdsFlag = false) : Arrayed m' none queue := by
  refine h.turn hplace ?_ ?_ (.inl rfl) ?_ ?_
  · rw [hplace, hcond]
    exact h.held.give hp hl
  · have hold := h.ring
    rw [h.held.owner_eq hp] at hold
    rw [hcond]
    have hold' : Ring m.cond (m.place p).lag queue := hold
    rw [hlag] at hold'
    exact hold'.flag 0
  · intro hneg
    rw [Place.holdsFlag_of_lag hneg] at hl
    cases hl
  · rintro rfl
    cases hl

/-- The queue after a step: a waiter joins it when it has written its entry, and has left it when
its state has been assigned. -/
def Machine.queueAfter (m : Machine) (queue : List Slot) : Act → List Slot
  | .advance p =>
    match m.place p with
    | .waitQueue => queue ++ [p]
    | .signalState => queue.tail
    | _ => queue
  | _ => queue

/-- A waiter that has written its entry is the last, -/
theorem queueAfter_waitQueue (hp : m.place p = .waitQueue) :
    m.queueAfter queue (.advance p) = queue ++ [p] := by
  simp only [queueAfter, hp]

/-- a signal takes the first, -/
theorem queueAfter_signalState (hp : m.place p = .signalState) :
    m.queueAfter queue (.advance p) = queue.tail := by
  simp only [queueAfter, hp]

/-- and no other step changes the queue. -/
theorem queueAfter_of_ne (hwait : m.place p ≠ .waitQueue) (hsignal : m.place p ≠ .signalState) :
    m.queueAfter queue (.advance p) = queue := by
  show (match m.place p with
    | .waitQueue => queue ++ [p]
    | .signalState => queue.tail
    | _ => queue) = queue
  split <;> first | contradiction | rfl

/-- Who holds the flag knows how far the counters are behind. -/
theorem Arrayed.ring_of_holdsFlag (h : Arrayed m owner queue)
    (hp : (m.place p).holdsFlag = true) : Ring m.cond (m.place p).lag queue := by
  have hring := h.ring
  obtain rfl := h.held.owner_eq hp
  exact hring

/-- What a signal finds: there is a process in the queue, and it is the first one. -/
theorem Arrayed.signal_head (h : Arrayed m owner queue) (hp : m.place p = .signalState) :
    ∃ x rest, queue = x :: rest ∧ m.cond.thqueue m.cond.head = some x ∧
      Ring m.cond ⟨0, 0, 0⟩ queue := by
  have hring := h.ring_of_holdsFlag (p := p) (by rw [hp]; rfl)
  rw [hp] at hring
  obtain ⟨x, rest, rfl⟩ := List.exists_cons_of_ne_nil (h.nonempty p hp)
  exact ⟨x, rest, rfl, hring.thqueue_head, hring⟩

/-- **A step in one of the calls keeps the array in order**, when there is room for who enters
it. -/
theorem Arrayed.advance (h : Arrayed m owner queue)
    (hroom : m.place p = .waitQueue → m.cond.count < 8) (hadv : m.advance p = .ok m') :
    ∃ owner', Arrayed m' owner' (m.queueAfter queue (.advance p)) := by
  cases hp : m.place p <;> simp only [queueAfter, hp]
  case signalState =>
    obtain ⟨x, rest, rfl, hhead, hring⟩ := h.signal_head hp
    simp only [Machine.advance, hp, hhead] at hadv
    obtain rfl := Except.ok.inj hadv
    exact ⟨_, h.keep (p := p) (l := .signalHead) rfl (by rw [hp]; rfl) rfl rfl
      (fun _ ↦ hring.pop) (by decide) (by decide)⟩
  all_goals
    have hflag : (m.place p).holdsFlag = _ := congrArg Place.holdsFlag hp
    have hlag : (m.place p).lag = _ := congrArg Place.lag hp
    simp only [Machine.advance, hp, reduceCtorEq] at hadv
  case waitQueue =>
    obtain rfl := Except.ok.inj hadv
    exact ⟨_, h.inside (l := .waitTail) rfl hflag rfl rfl
      (fun hring ↦ (hlag ▸ hring).push (hroom hp) p) (fun _ ↦ ⟨queue, rfl⟩)
      fun heq ↦ absurd heq (by decide)⟩
  case waitLock | waitCount | waitRelease | waitRelock | waitSched =>
    split_ifs at hadv
    obtain rfl := Except.ok.inj hadv
    exact ⟨_, h.aside rfl rfl hflag rfl⟩
  case waitUnlock | waitState =>
    obtain rfl := Except.ok.inj hadv
    exact ⟨_, h.aside rfl rfl hflag rfl⟩
  case waitFlag | signalFlag =>
    split_ifs at hadv with hfree
    obtain rfl := Except.ok.inj hadv
    exact ⟨_, h.take rfl (not_not.1 hfree) rfl rfl rfl (by decide)⟩
  case waitTail =>
    obtain rfl := Except.ok.inj hadv
    exact ⟨_, h.inside rfl hflag rfl rfl (fun hring ↦ (hlag ▸ hring).tail)
      (fun _ ↦ h.last p (by rw [hp]; decide)) fun heq ↦ absurd heq (by decide)⟩
  case waitInc =>
    obtain rfl := Except.ok.inj hadv
    exact ⟨_, h.keep rfl hflag rfl rfl (fun hring ↦ (hlag ▸ hring).inc) (by decide) (by decide)⟩
  case waitAcquire =>
    split_ifs at hadv
    obtain rfl := Except.ok.inj hadv
    exact ⟨_, h.keep rfl hflag rfl rfl (fun hring ↦ hlag ▸ hring) (by decide) (by decide)⟩
  case signalCount =>
    obtain rfl := Except.ok.inj hadv
    by_cases hcount : m.cond.count = 0
    · rw [if_pos hcount]
      exact ⟨_, h.keep rfl hflag rfl rfl (fun hring ↦ hlag ▸ hring) (by decide) (by decide)⟩
    · rw [if_neg hcount]
      refine ⟨_, h.inside rfl hflag rfl rfl (fun hring ↦ hlag ▸ hring)
        (fun hneg ↦ absurd hneg (by decide)) fun _ hnil ↦ hcount ?_⟩
      have hring := h.ring_of_holdsFlag hflag
      rw [hp] at hring
      rw [Ring.count_eq hring, hnil]
      rfl
  case signalHead =>
    obtain rfl := Except.ok.inj hadv
    exact ⟨_, h.keep rfl hflag rfl rfl (fun hring ↦ (hlag ▸ hring).head) (by decide) (by decide)⟩
  case signalDec =>
    obtain rfl := Except.ok.inj hadv
    exact ⟨_, h.keep rfl hflag rfl rfl (fun hring ↦ (hlag ▸ hring).dec) (by decide) (by decide)⟩
  case signalTest =>
    -- the flag is still the signaller's
    rw [if_pos (h.held.flag_eq_one hflag)] at hadv
    obtain rfl := Except.ok.inj hadv
    exact ⟨_, h.keep rfl hflag rfl rfl (fun hring ↦ hlag ▸ hring) (by decide) (by decide)⟩
  case waitFree | signalEmpty | signalFree =>
    obtain rfl := Except.ok.inj hadv
    exact ⟨_, h.give rfl rfl hflag hlag rfl⟩

/-- A step that neither moves a process nor touches the condition variable. -/
theorem Arrayed.of_eq (h : Arrayed m owner queue) (hplace : m'.place = m.place)
    (hcond : m'.cond = m.cond) : Arrayed m' owner queue := by
  refine ⟨?_, ?_, ?_, ?_⟩ <;> rw [hplace]
  · rw [hcond]
    exact h.held
  · rw [hcond]
    exact h.ring
  · exact h.last
  · exact h.nonempty

/-- A process enters one of the calls. -/
theorem Arrayed.enter (h : Arrayed m owner queue) (hp : m.place p = .user)
    (hl : l = .waitLock ∨ l = .signalFlag) : Arrayed (m.goto p l) owner queue :=
  h.aside rfl rfl (by rw [hp]; rfl) (by rcases hl with rfl | rfl <;> rfl)

/-- A step keeps the array right if a waiter finds room in it. -/
theorem Arrayed.step {a : Act} (h : Arrayed m owner queue)
    (hroom : ∀ p, a = .advance p → m.place p = .waitQueue → m.cond.count < 8)
    (hstep : m.step a = .ok m') : ∃ owner', Arrayed m' owner' (m.queueAfter queue a) := by
  cases stepped_of_step hstep with
  | kernel hcaller hfree hk => exact ⟨_, h.of_eq rfl rfl⟩
  | lockAcquire hp huser hlock => exact ⟨_, h.of_eq rfl rfl⟩
  | lockRelease hp huser => exact ⟨_, h.of_eq rfl rfl⟩
  | condWait hp => exact ⟨_, h.enter hp.2.1 (.inl rfl)⟩
  | condSignal hp => exact ⟨_, h.enter hp.2.1 (.inr rfl)⟩
  | advance hp hadv => exact h.advance (hroom _ rfl) hadv

/-- At boot the array is empty. -/
theorem arrayed_boot (d : ℕ) (c : Cond) : Arrayed (.boot d c) none [] := by
  refine ⟨SpinFlag.held_none fun _ ↦ rfl, ring_init c, fun p hp ↦ ?_, fun p hp ↦ ?_⟩
  · have huser : Place.user.lag.count < 0 := hp
    exact absurd huser (by decide)
  · cases hp

/-! ### Who waits is in the queue -/

/-- A process is listed when it has written its entry. -/
theorem Place.isListed_of_next {l' : Place} (h : l' ∈ l.next) (hl' : l'.isListed = true) :
    l = .waitQueue ∨ l.isListed = true := by
  revert l'
  cases l <;> decide

/-- A process is down when it has assigned its state. -/
theorem Place.of_isDown_next {l' : Place} (h : l' ∈ l.next) (hl' : l'.isDown = true) :
    l = .waitState ∨ l = .waitSched := by
  revert l'
  cases l <;> decide

/-- The others waited before, if they wait. -/
theorem Turn.waiting_of_ne (h : Turn m p m') (ht : t ≠ p) (hwait : m'.Waiting t) : m.Waiting t := by
  rw [Machine.Waiting, h.place_of_ne ht] at hwait
  exact hwait.imp_right (And.imp_right (h.sleeping_of_ne ht))

/-- Who waits after its own step has just entered the queue, or waited before. -/
theorem Turn.waiting_self (h : Turn m p m') (hwait : m'.Waiting p) :
    m.place p = .waitQueue ∨ m.Waiting p := by
  rcases hwait with hl | ⟨hl, hsleep⟩
  · exact (Place.isListed_of_next h.next hl).imp_right .inl
  · rcases Place.of_isDown_next h.next hl with hp | hp
    · exact .inr (.inl (by rw [hp]; rfl))
    · -- a process at `sched` has not changed any state
      rcases h.kernel with hk | ⟨hstate, -⟩ | ⟨hstate, -⟩
      · exact .inr (.inr ⟨by rw [hp]; rfl, hk ▸ hsleep⟩)
      · exact absurd (hp.symm.trans hstate) (by decide)
      · exact absurd (hp.symm.trans hstate) (by decide)

/-- Where a process that waits can be when another one has the flag. -/
theorem Arrayed.place_of_waiting (h : Arrayed m owner queue) (hp : (m.place p).holdsFlag = true)
    (ht : m.Waiting t) (htp : t ≠ p) :
    m.place t = .waitUnlock ∨ m.place t = .waitState ∨
      (m.place t).isDown = true ∧ (m.kernel.ptable t).state = .sleeping := by
  rcases ht with hlisted | hdown
  · have hfree : (m.place t).holdsFlag = false := by
      rw [← Bool.not_eq_true]
      exact fun hflag ↦ htp (h.held.unique hflag hp)
    rcases Place.of_isListed hlisted hfree with hl | hl
    · exact .inl hl
    · exact .inr (.inl hl)
  · exact .inr (.inr hdown)

/-- A signal on time leaves nobody in the queue behind who waits. -/
theorem Orderly.waiting_signalState (h : Orderly m owner queue) (hp : m.place p = .signalState)
    (htime : ∀ t, m.cond.thqueue m.cond.head = some t →
      m.place t ≠ .waitUnlock ∧ m.place t ≠ .waitState)
    (hadv : m.advance p = .ok m') (ht : m'.Waiting t) : t ∈ queue.tail := by
  have hflag : (m.place p).holdsFlag = true := by rw [hp]; rfl
  have hturn := turn_of_advance hadv
  obtain ⟨x, rest, rfl, hhead, hring⟩ := h.arrayed.signal_head hp
  simp only [Machine.advance, hp, hhead] at hadv
  obtain rfl := Except.ok.inj hadv
  have htp : t ≠ p := by
    rintro rfl
    rw [Machine.Waiting, goto_place_self] at ht
    rcases ht with hl | ⟨hl, -⟩ <;> cases hl
  have hwait := hturn.waiting_of_ne htp ht
  -- the head of the queue is not just about to fall asleep, and is woken
  have hx : t ≠ x := by
    rintro rfl
    rcases h.arrayed.place_of_waiting hflag hwait htp with hl | hl | ⟨hl, -⟩
    · exact (htime t hhead).1 hl
    · exact (htime t hhead).2 hl
    · rw [Machine.Waiting, hturn.place_of_ne htp, Place.isListed_of_isDown hl] at ht
      rcases ht with hlisted | ⟨-, hsleep⟩
      · cases hlisted
      · rw [goto_kernel, setState, modify_ptable_self] at hsleep
        cases hsleep
  exact (List.mem_cons.1 (h.waiting t hwait)).resolve_left hx

/-- **A step in one of the calls keeps the queue in order.** -/
theorem Orderly.advance (h : Orderly m owner queue) (htime : m.OnTime (.advance p))
    (hadv : m.advance p = .ok m') :
    ∃ owner', Orderly m' owner' (m.queueAfter queue (.advance p)) := by
  obtain ⟨owner', harrayed⟩ := h.arrayed.advance htime.2 hadv
  have hturn := turn_of_advance hadv
  refine ⟨owner', harrayed.orderly fun t ht ↦ ?_⟩
  by_cases hsignal : m.place p = .signalState
  · rw [queueAfter_signalState hsignal]
    exact h.waiting_signalState hsignal (htime.1 hsignal) hadv ht
  have hwas : m.place p = .waitQueue ∧ t = p ∨ m.Waiting t := by
    rcases eq_or_ne t p with rfl | hne
    · exact (hturn.waiting_self ht).imp_left fun hp ↦ ⟨hp, rfl⟩
    · exact .inr (hturn.waiting_of_ne hne ht)
  by_cases hwrite : m.place p = .waitQueue
  · rw [queueAfter_waitQueue hwrite]
    rcases hwas with ⟨-, rfl⟩ | hwait
    · exact List.mem_append_right _ List.mem_cons_self
    · exact List.mem_append_left _ (h.waiting t hwait)
  · rw [queueAfter_of_ne hwrite hsignal]
    exact h.waiting t (hwas.resolve_left fun hp ↦ hwrite hp.1)

theorem isDown_ne_user (h : l.isDown = true) : l ≠ .user := by
  rintro rfl
  cases h

/-- A process enters one of the calls. -/
theorem Orderly.enter (h : Orderly m owner queue) (hp : m.place p = .user)
    (hl : l = .waitLock ∨ l = .signalFlag) : Orderly (m.goto p l) owner queue := by
  have hturn : Turn m p (m.goto p l) :=
    turn_goto (by rcases hl with rfl | rfl <;> simp [hp, Place.next])
  refine (h.arrayed.enter hp hl).orderly fun t ht ↦ ?_
  rcases eq_or_ne t p with rfl | hne
  · rw [Machine.Waiting, goto_place_self] at ht
    rcases hl with rfl | rfl <;> rcases ht with hl | ⟨hl, -⟩ <;> cases hl
  · exact h.waiting t (hturn.waiting_of_ne hne ht)

/-- A step on time keeps the queue orderly, -/
theorem Orderly.step {a : Act} (h : Orderly m owner queue) (htime : m.OnTime a)
    (hstep : m.step a = .ok m') : ∃ owner', Orderly m' owner' (m.queueAfter queue a) := by
  cases stepped_of_step hstep with
  | kernel hcaller hfree hk =>
    refine ⟨owner, Arrayed.orderly (h.arrayed.of_eq rfl rfl) fun t ht ↦ h.waiting t ?_⟩
    rcases ht with hl | ⟨hl, hsleep⟩
    · exact .inl hl
    · rcases sleeping_of_step hk hsleep with hold | hcall
      · exact .inr ⟨hl, hold⟩
      · exact absurd (hcaller t hcall) (isDown_ne_user hl)
  | lockAcquire hp huser hlock =>
    exact ⟨owner, Arrayed.orderly (h.arrayed.of_eq rfl rfl) h.waiting⟩
  | lockRelease hp huser => exact ⟨owner, Arrayed.orderly (h.arrayed.of_eq rfl rfl) h.waiting⟩
  | condWait hp => exact ⟨_, h.enter hp.2.1 (.inl rfl)⟩
  | condSignal hp => exact ⟨_, h.enter hp.2.1 (.inr rfl)⟩
  | advance hp hadv => exact h.advance htime hadv

/-- as it is at boot. -/
theorem orderly_boot (d : ℕ) (c : Cond) : Orderly (.boot d c) none [] := by
  refine (arrayed_boot d c).orderly fun t ht ↦ ?_
  rcases ht with hl | ⟨hl, -⟩ <;> cases hl

/-- Who is asleep is in the queue. -/
theorem Orderly.noLostWakeup (h : Orderly m owner queue) (hrests : Rests m) : m.NoLostWakeup := by
  rintro t ⟨hwait, hsleep⟩
  have huser : m.place t ≠ .user := by
    intro heq
    rw [heq] at hwait
    cases hwait
  have hdown : (m.place t).isDown = true := by
    rcases hrests t hsleep huser with hl | ⟨hl, -⟩ <;> rw [hl] <;> rfl
  refine h.ring.queued (h.waiting t (.inr ⟨hdown, hsleep⟩)) fun hneg ↦ ?_
  cases owner with
  | none =>
    have huser : Place.user.lag.count < 0 := hneg
    exact absurd huser (by decide)
  | some o =>
    obtain ⟨q, rfl⟩ := h.last o hneg
    refine ⟨q, o, rfl, ?_⟩
    -- the last one has not counted itself and does not sleep
    rintro rfl
    have hflag : (m.place t).holdsFlag = true := Place.holdsFlag_of_lag hneg
    rw [Place.holdsFlag_of_isDown hdown] at hflag
    cases hflag

/-- **No lost wakeup.** In a run in which every signal and every entry into the queue are on time,
no process is SLEEPING inside `cond_wait` and no longer in the queue. -/
theorem noLostWakeup_of_reachable (h : (system.restrict OnTime).Reachable m) : m.NoLostWakeup := by
  have hinv : Rests m ∧ ∃ owner queue, Orderly m owner queue := by
    refine h.invariant (I := fun m ↦ Rests m ∧ ∃ owner queue, Orderly m owner queue) ?_ ?_
    · rintro m ⟨d, c, -, rfl⟩
      exact ⟨rests_boot d c, none, [], orderly_boot d c⟩
    · rintro m a m' ⟨hrests, owner, queue, horderly⟩ ⟨htime, hstep⟩
      obtain ⟨owner', horderly'⟩ := horderly.step htime hstep
      exact ⟨hrests.step hstep, owner', _, horderly'⟩
  obtain ⟨hrests, owner, queue, horderly⟩ := hinv
  exact horderly.noLostWakeup hrests

/-! ### A signal that is early -/

instance (m : Machine) (t : Slot) : Decidable (m.Asleep t) := inferInstanceAs (Decidable (_ ∧ _))

instance (m : Machine) (t : Slot) : Decidable (m.Queued t) :=
  inferInstanceAs (Decidable (∃ i < _, _))

instance (m : Machine) : Decidable m.NoLostWakeup := inferInstanceAs (Decidable (∀ _, _))

instance (m : Machine) : (a : Act) → Decidable (m.OnTime a)
  | .kernel _ => inferInstanceAs (Decidable True)
  | .lockAcquire _ => inferInstanceAs (Decidable True)
  | .lockRelease _ => inferInstanceAs (Decidable True)
  | .condWait _ => inferInstanceAs (Decidable True)
  | .condSignal _ => inferInstanceAs (Decidable True)
  | .advance p => inferInstanceAs (Decidable
      ((m.place p = .signalState → ∀ t, _ = some t → _ ≠ _ ∧ _ ≠ _) ∧
        (m.place p = .waitQueue → _ < 8)))

/-- The thread that the first process clones. -/
def thread : Slot := ⟨1, one_lt_NPROC⟩

/-- A thread calls `cond_wait` with the lock and comes as far as the release of the lock. -/
def waiter : List Act :=
  [.kernel (.dispatch initproc), .kernel (.clone initproc 4096),
    .kernel (.cloneCopy initproc), .kernel (.cloneReturn initproc true), .kernel (.dispatch thread),
    .lockAcquire thread, .condWait thread] ++ List.replicate 9 (.advance thread)

/-- The condition variable when `cond_init` has been called on one that is all zero. -/
def freshCond : Cond := Cond.init ⟨fun _ ↦ none, 0, 0, 0, 0⟩

/-- The waiter falls asleep. -/
def sleepingWaiter : List Act := waiter ++ [.advance thread, .advance thread]

/-- **A waiter that no signal hurries is asleep and in the queue.** -/
theorem sleepingWaiter_queued :
    ∃ m, (system.restrict OnTime).Reachable m ∧ m.Asleep thread ∧ m.NoLostWakeup := by
  obtain ⟨m, hreach, hasleep⟩ := System.Reachable.exists_of_run (S := system.restrict OnTime)
    (f := System.checked OnTime Machine.step .blocked) (p := fun m ↦ decide (m.Asleep thread))
    (System.next_of_checked fun _ _ _ h ↦ h) (l := sleepingWaiter)
    (.init ⟨1, freshCond, by decide, rfl⟩) (by decide +kernel)
  exact ⟨m, hreach, of_decide_eq_true hasleep, noLostWakeup_of_reachable hreach⟩

/-- The waiter has given up the lock, with which the first process signals before the state of the
waiter is SLEEPING. -/
def hastySignal : List Act :=
  waiter ++ [.lockAcquire initproc, .condSignal initproc] ++
    List.replicate 7 (.advance initproc) ++ [.advance thread, .advance thread]

/-- **The waiter sleeps, and nobody can wake it with a signal.** -/
theorem hastySignal_loses : ¬ ∀ m, system.Reachable m → m.NoLostWakeup := by
  intro hall
  obtain ⟨m, hreach, hlost⟩ := System.Reachable.exists_of_run (S := system) (f := Machine.step)
    (p := fun m ↦ !decide m.NoLostWakeup) (fun _ _ _ h ↦ h) (l := hastySignal)
    (.init ⟨1, freshCond, by decide, rfl⟩) (by decide +kernel)
  rw [Bool.not_eq_true', decide_eq_false_iff_not] at hlost
  exact hlost (hall m hreach)

end CondVar

end Threads
