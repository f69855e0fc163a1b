import Cs537OS.Threads.CondQueue

/-!
# Whom a signal wakes

`cond_signal` assigns RUNNABLE to the process at the head of the queue, whatever has become of it.
The queue holds whoever called `cond_wait`, and an entry leaves it only by a signal; `kill` wakes a
sleeper and leaves it in the queue.

When nobody who waits is killed, and signals and waiters are on time, the queue holds exactly the
processes that wait, each of them once and none of them killed (`Live`). A signal then wakes one of
them, and it finds the queue empty only when nobody waits (`signalRight_of_reachable`). In
`killedWaiter_signalled` a waiter is killed, leaves `cond_wait` and exits, and a signal makes the
zombie runnable.
-/

open GuardedLoop (bind_eq_ok_iff)
open Xv6

namespace Threads

/-- The process that the step kills. -/
def Kernel.victim? (k : Kernel) : Action → Option Slot
  | .kill pid => k.killed? pid
  | _ => none

namespace CondVar

/-- In `cond_wait`, before the process sleeps. -/
def Place.isEntering : Place → Bool
  | .waitLock | .waitCount | .waitFlag | .waitQueue | .waitTail | .waitInc | .waitAcquire
  | .waitFree | .waitUnlock | .waitState => true
  | _ => false

namespace Machine

/-- Process `t` has called `cond_wait` and has not been woken. -/
def Waits (m : Machine) (t : Slot) : Prop :=
  (m.place t).isEntering = true ∨
    (m.place t).isDown = true ∧ (m.kernel.ptable t).state = .sleeping

/-- The step does not kill a process that waits. -/
def Spares (m : Machine) : Act → Prop
  | .kernel a => ∀ t, m.kernel.victim? a = some t → ¬ m.Waits t
  | _ => True

/-- The step is on time and kills nobody who waits. -/
def Timely (m : Machine) (a : Act) : Prop := m.OnTime a ∧ m.Spares a

/-- What `cond_signal` is there for, in a step of process `p` from `m` to `m'`. -/
structure SignalRight (m : Machine) (p : Slot) (m' : Machine) : Prop where
  /-- The state is assigned to a live process that is asleep in `cond_wait`. -/
  wakes : m.place p = .signalState → ∃ t, m.cond.thqueue m.cond.head = some t ∧ m.Asleep t ∧
    (m.kernel.ptable t).killed = false ∧ m'.kernel = m.kernel.setState t .runnable
  /-- When a live process waits the signal goes on to wake one. -/
  goesOn : m.place p = .signalCount →
    (∃ t, m.Waiting t ∧ (m.kernel.ptable t).killed = false) → m'.place p = .signalState

end Machine

open Kernel Machine

variable {m m' : Machine} {p t : Slot} {l l' : Place} {owner : Option Slot} {queue : List Slot}
  {k k' : Kernel} {a : Action}

/-! ### The kernel and a process in the middle of a call -/

/-- A process that is awake can be put to sleep or woken. -/
theorem tidy_setState (h : Tidy k) (hp : (k.ptable p).Awake) {s : ProcState}
    (hs : s = .sleeping ∨ s = .runnable) : Tidy (k.setState p s) := by
  have hstate : ∀ i, i ≠ p → (k.setState p s).ptable i = k.ptable i :=
    fun i hi ↦ modify_ptable_of_ne hi
  have hself : (k.setState p s).ptable p = { k.ptable p with state := s } := modify_ptable_self
  have hawake : ∀ a : Proc, Proc.Awake { a with state := s } := fun _ ↦ hs.imp_right .inl
  refine ⟨h.toOrderly.of_placed (placed_modify_of_awake (f := fun a ↦ { a with state := s })
    (fun _ ↦ rfl) (fun _ ↦ rfl) (fun _ ↦ rfl) hp hawake) rfl rfl, fun q hq ↦ ?_,
    fun q hq hroot ↦ ?_⟩
  · have hne : q ≠ p := by
      rintro rfl
      rw [Running, hself] at hq
      rcases hs with rfl | rfl <;> cases hq
    rw [Running, hstate q hne] at hq
    rw [hstate q hne]
    exact h.chan q hq
  · rcases eq_or_ne q p with rfl | hne
    · rw [hself]
      exact h.parent q hp hroot
    · rw [hstate q hne] at hq ⊢
      exact h.parent q hq hroot

/-- A step of the kernel leaves alone who is in the middle of a call and sleeps on nothing, unless
the step kills it. -/
theorem fate_inside (h : Tidy k) (hstep : Unmonitored.step k a = .ok k')
    (hcaller : a.caller ≠ some t) (hawake : (k.ptable t).Awake)
    (hchan : (k.ptable t).chan = .null) :
    (k'.ptable t).Awake ∧ (k'.ptable t).chan = .null ∧
      ((∃ pid, a = .kill pid ∧ k.killed? pid = some t) ∨
        (k'.ptable t).killed = (k.ptable t).killed ∧
          ((k.ptable t).state = .sleeping → (k'.ptable t).state = .sleeping)) := by
  cases fate_of_step h hstep t with
  | kept hstate hstill =>
    refine ⟨by rwa [Proc.Awake, hstate], hstill.chan.trans hchan, .inr ⟨hstill.killed, ?_⟩⟩
    exact fun hs ↦ hstate.trans hs
  | dispatched ha hold hnew hnull hkilled =>
    exact ⟨.inr (.inr hnew), hnull, .inr
      ⟨hkilled, fun hs ↦ absurd (hs.symm.trans hold) (by decide)⟩⟩
  | yielded ha hold hnew hstill =>
    exact ⟨.inr (.inl hnew), hstill.chan.trans hchan,
      .inr ⟨hstill.killed, fun hs ↦ absurd (hs.symm.trans hold) (by decide)⟩⟩
  | slept ha => exact absurd ha hcaller
  | woken hne => exact absurd hchan hne
  | killed pid ha hit hnew hsame =>
    refine ⟨?_, hsame.trans hchan, .inl ⟨pid, ha, hit⟩⟩
    split_ifs at hnew with hs
    · exact .inr (.inl hnew)
    · rwa [Proc.Awake, hnew]
  | exited ha => exact absurd (ha ▸ rfl) hcaller
  | reaped hold => rcases hawake with hs | hs | hs <;> exact absurd (hs.symm.trans hold) (by decide)
  | taken hold => rcases hawake with hs | hs | hs <;> exact absurd (hs.symm.trans hold) (by decide)
  | filled q ha hmakes =>
    have hembryo : (k.ptable t).state = .embryo := by
      rcases hmakes with hf | ⟨hcall, -⟩
      · exact (h.fills_halfMade q t hf).1
      · exact h.made_embryo q t hcall
    rcases hawake with hs | hs | hs <;> exact absurd (hs.symm.trans hembryo) (by decide)

/-! ### Who waits, waits on -/

/-- Who waits and keeps its state waits on. -/
theorem Turn.waiting_of_state (h : Turn m p m') (ht : t ≠ p)
    (hstate : (m'.kernel.ptable t).state = (m.kernel.ptable t).state) (hwait : m.Waiting t) :
    m'.Waiting t := by
  rwa [Machine.Waiting, h.place_of_ne ht, hstate]

/-- The entries after a step in one of the calls. -/
theorem Turn.entry (h : Turn m p m') (t : Slot) :
    (m'.kernel.ptable t).chan = (m.kernel.ptable t).chan ∧
      (m'.kernel.ptable t).killed = (m.kernel.ptable t).killed ∧
      ((m.kernel.ptable t).Awake → (m'.kernel.ptable t).Awake) := by
  have hset : ∀ {q : Slot} {s : ProcState}, s = .sleeping ∨ s = .runnable →
      ((m.kernel.setState q s).ptable t).chan = (m.kernel.ptable t).chan ∧
      ((m.kernel.setState q s).ptable t).killed = (m.kernel.ptable t).killed ∧
      ((m.kernel.ptable t).Awake → ((m.kernel.setState q s).ptable t).Awake) := by
    intro q s hs
    rcases eq_or_ne t q with rfl | hne
    · rw [setState, modify_ptable_self]
      exact ⟨rfl, rfl, fun _ ↦ hs.imp_right .inl⟩
    · rw [setState, modify_ptable_of_ne hne]
      exact ⟨rfl, rfl, id⟩
  rcases h.kernel with hk | ⟨-, -, hk⟩ | ⟨-, x, -, hk⟩ <;> rw [hk]
  · exact ⟨rfl, rfl, id⟩
  · exact hset (.inl rfl)
  · exact hset (.inr rfl)

/-- Nobody comes back to the places before the sleep. -/
theorem Place.isEntering_of_next (h : l' ∈ l.next) (hl : l ≠ .user) (hl' : l'.isEntering = true) :
    l.isEntering = true := by
  revert hl l'
  cases l <;> decide

/-- A process is listed until it has assigned its state. -/
theorem Place.isListed_next (h : l' ∈ l.next) (hl : l.isListed = true) :
    l = .waitState ∨ l'.isListed = true := by
  revert hl l'
  cases l <;> decide

theorem Place.inWait_of_isDown (h : l.isDown = true) : l.inWait = true := by
  revert h
  cases l <;> decide

theorem Place.isEntering_of_isListed (h : l.isListed = true) : l.isEntering = true := by
  revert h
  cases l <;> decide

theorem Machine.Waiting.waits (h : m.Waiting t) : m.Waits t :=
  h.imp_left Place.isEntering_of_isListed

theorem Machine.Waiting.ne_user (h : m.Waiting t) : m.place t ≠ .user := by
  intro hplace
  rw [Machine.Waiting, hplace] at h
  rcases h with h | ⟨h, -⟩ <;> cases h

/-- A turn makes nobody wait. -/
theorem Turn.waits (h : Turn m p m') (hp : m.place p ≠ .user) (t : Slot) (ht : m'.Waits t) :
    m.Waits t := by
  rcases eq_or_ne t p with rfl | hne
  · rcases ht with hl | ⟨hl, hsleep⟩
    · exact .inl (Place.isEntering_of_next h.next hp hl)
    · rcases Place.of_isDown_next h.next hl with hplace | hplace
      · exact .inl (by rw [hplace]; rfl)
      · -- a process at `sched` has not changed any state
        rcases h.kernel with hk | ⟨hstate, -⟩ | ⟨hstate, -⟩
        · exact .inr ⟨by rw [hplace]; rfl, hk ▸ hsleep⟩
        · exact absurd (hplace.symm.trans hstate) (by decide)
        · exact absurd (hplace.symm.trans hstate) (by decide)
  · rw [Machine.Waits, h.place_of_ne hne] at ht
    exact ht.imp_right (And.imp_right (h.sleeping_of_ne hne))

/-- The assignment before `sched`. -/
theorem advance_waitState (hp : m.place p = .waitState) (h : m.advance p = .ok m') :
    m' = { m with kernel := m.kernel.setState p .sleeping }.goto p .waitSched := by
  simp only [Machine.advance, hp] at h
  exact (Except.ok.inj h).symm

/-- A process that waits goes on waiting in its own steps. -/
theorem waiting_of_advance (hrests : Rests m) (hexec : m.Executes p) (hadv : m.advance p = .ok m')
    (hwait : m.Waiting p) : m'.Waiting p := by
  have hturn := turn_of_advance hadv
  rcases hwait with hl | ⟨hl, hsleep⟩
  · rcases Place.isListed_next hturn.next hl with hplace | hl'
    · rw [advance_waitState hplace hadv]
      refine .inr ⟨by rw [goto_place_self]; rfl, ?_⟩
      rw [goto_kernel, setState, modify_ptable_self]
    · exact .inl hl'
  · have huser : m.place p ≠ .user := isDown_ne_user hl
    rcases hrests p hsleep huser with hplace | ⟨-, hfree⟩
    · rw [advance_waitSched hplace hadv]
      exact .inr ⟨by rw [goto_place_self]; rfl, hsleep⟩
    · -- it has to be woken before it can go on
      rcases hexec with hhold | hrun
      · exact absurd hhold hfree
      · exact absurd (hrun.symm.trans hsleep) (by decide)

/-! ### The queue and those who wait -/

/-- The queue holds the processes that wait, which are alive. -/
structure Live (m : Machine) (queue : List Slot) : Prop where
  tidy : Tidy m.kernel
  /-- Who is in the middle of a call does not sleep on an address. -/
  inside : ∀ t, m.place t ≠ .user →
    (m.kernel.ptable t).Awake ∧ (m.kernel.ptable t).chan = .null
  alive : ∀ t, m.Waits t → (m.kernel.ptable t).killed = false
  nodup : queue.Nodup
  waiting : ∀ t ∈ queue, m.Waiting t

/-- A step of the kernel that kills nobody who waits keeps the queue alive. -/
theorem Live.kernel {a : Action} {k : Kernel} (h : Live m queue) (hspares : m.Spares (.kernel a))
    (hcaller : ∀ p, a.caller = some p → m.place p = .user)
    (hstep : Unmonitored.step m.kernel a = .ok k) :
    Live { m with kernel := k, holder := m.holderAfter a } queue := by
  have hfate : ∀ t, m.place t ≠ .user → (k.ptable t).Awake ∧ (k.ptable t).chan = .null ∧
      (m.Waits t → (k.ptable t).killed = (m.kernel.ptable t).killed ∧
        ((m.kernel.ptable t).state = .sleeping → (k.ptable t).state = .sleeping)) := by
    intro t ht
    obtain ⟨hawake, hchan⟩ := h.inside t ht
    obtain ⟨hawake', hchan', hkill | hsame⟩ :=
      fate_inside h.tidy hstep (fun hc ↦ ht (hcaller t hc)) hawake hchan
    · obtain ⟨pid, rfl, hit⟩ := hkill
      exact ⟨hawake', hchan', fun hwaits ↦ absurd hwaits (hspares t hit)⟩
    · exact ⟨hawake', hchan', fun _ ↦ hsame⟩
  refine ⟨h.tidy.step hstep, fun t ht ↦ ?_, fun t ht ↦ ?_, h.nodup, fun t ht ↦ ?_⟩
  · obtain ⟨hawake, hchan, -⟩ := hfate t ht
    exact ⟨hawake, hchan⟩
  · have hwaits : m.Waits t := by
      rcases ht with hl | ⟨hl, hsleep⟩
      · exact .inl hl
      · rcases sleeping_of_step hstep hsleep with hold | hcall
        · exact .inr ⟨hl, hold⟩
        · exact absurd (hcaller t hcall) (isDown_ne_user hl)
    have huser : m.place t ≠ .user := by
      rcases hwaits with hl | ⟨hl, -⟩
      · intro heq
        rw [heq] at hl
        cases hl
      · exact isDown_ne_user hl
    obtain ⟨-, -, hkept⟩ := hfate t huser
    exact (hkept hwaits).1.trans (h.alive t hwaits)
  · have hwait := h.waiting t ht
    obtain ⟨-, -, hkept⟩ := hfate t hwait.ne_user
    exact hwait.imp_right (And.imp_right (hkept hwait.waits).2)

/-- The part of the invariant that does not speak of the queue. -/
theorem Live.advance_of_queue (h : Live m queue) (harrayed : Arrayed m owner queue)
    (hadv : m.advance p = .ok m') {queue' : List Slot} (hnodup : queue'.Nodup)
    (hwaiting : ∀ t ∈ queue', m'.Waiting t) : Live m' queue' := by
  have hturn := turn_of_advance hadv
  have huser := ne_user_of_advance hadv
  refine ⟨?_, fun t ht ↦ ?_, fun t ht ↦ ?_, hnodup, hwaiting⟩
  · rcases hturn.kernel with hk | ⟨-, -, hk⟩ | ⟨hp, x, hhead, hk⟩ <;> rw [hk]
    · exact h.tidy
    · exact tidy_setState h.tidy (h.inside p huser).1 (.inl rfl)
    · obtain ⟨y, rest, rfl, hhead', -⟩ := harrayed.signal_head hp
      obtain rfl : x = y := Option.some.inj (hhead.symm.trans hhead')
      have hwait := h.waiting x List.mem_cons_self
      exact tidy_setState h.tidy (h.inside x hwait.ne_user).1 (.inr rfl)
  · have hplace : m.place t ≠ .user := by
      rcases eq_or_ne t p with rfl | hne
      · exact huser
      · rwa [hturn.place_of_ne hne] at ht
    obtain ⟨hawake, hchan⟩ := h.inside t hplace
    obtain ⟨hchan', -, hawake'⟩ := hturn.entry t
    exact ⟨hawake' hawake, hchan'.trans hchan⟩
  · exact (hturn.entry t).2.1.trans (h.alive t (hturn.waits huser t ht))

/-- A waiter puts itself into the queue, in which it is not yet. -/
theorem Live.waitQueue (h : Live m queue) (harrayed : Arrayed m owner queue)
    (hp : m.place p = .waitQueue) (hadv : m.advance p = .ok m') : Live m' (queue ++ [p]) := by
  have hturn := turn_of_advance hadv
  have hnew : p ∉ queue := by
    intro hmem
    have hwait := h.waiting p hmem
    rw [Machine.Waiting, hp] at hwait
    rcases hwait with hl | ⟨hl, -⟩ <;> cases hl
  have hplace : m'.place p = .waitTail := by
    have hnext := hturn.next
    rw [hp] at hnext
    exact List.mem_singleton.1 hnext
  have hkernel : m'.kernel = m.kernel := by
    simp only [Machine.advance, hp] at hadv
    rw [← Except.ok.inj hadv]
    rfl
  refine h.advance_of_queue harrayed hadv ?_ fun t ht ↦ ?_
  · rw [← List.concat_eq_append]
    exact h.nodup.concat hnew
  · rcases List.mem_append.1 ht with hold | hself
    · have hne : t ≠ p := fun heq ↦ hnew (heq ▸ hold)
      exact hturn.waiting_of_state hne (by rw [hkernel]) (h.waiting t hold)
    · rw [List.mem_singleton.1 hself]
      exact .inl (by rw [hplace]; rfl)

/-- A signal changes nobody in the rest of the queue. -/
theorem Live.signalState (h : Live m queue) (harrayed : Arrayed m owner queue)
    (hp : m.place p = .signalState) (hadv : m.advance p = .ok m') : Live m' queue.tail := by
  have hturn := turn_of_advance hadv
  obtain ⟨x, rest, rfl, hhead, -⟩ := harrayed.signal_head hp
  have hkernel : m'.kernel = m.kernel.setState x .runnable := by
    simp only [Machine.advance, hp, hhead] at hadv
    rw [← Except.ok.inj hadv]
    rfl
  obtain ⟨hx, hrest⟩ := List.nodup_cons.1 h.nodup
  refine h.advance_of_queue harrayed hadv hrest fun t ht ↦ ?_
  have hwait := h.waiting t (List.mem_cons_of_mem x ht)
  have hne : t ≠ p := by
    rintro rfl
    rw [Machine.Waiting, hp] at hwait
    rcases hwait with hl | ⟨hl, -⟩ <;> cases hl
  have hother : t ≠ x := fun heq ↦ hx (heq ▸ ht)
  refine hturn.waiting_of_state hne ?_ hwait
  rw [hkernel, setState, modify_ptable_of_ne hother]

/-- A turn keeps the queue alive. -/
theorem Live.advance (h : Live m queue) (harrayed : Arrayed m owner queue) (hrests : Rests m)
    (hexec : m.Executes p) (hadv : m.advance p = .ok m') :
    Live m' (m.queueAfter queue (.advance p)) := by
  by_cases hwrite : m.place p = .waitQueue
  · rw [queueAfter_waitQueue hwrite]
    exact h.waitQueue harrayed hwrite hadv
  by_cases hsignal : m.place p = .signalState
  · rw [queueAfter_signalState hsignal]
    exact h.signalState harrayed hsignal hadv
  rw [queueAfter_of_ne hwrite hsignal]
  have hturn := turn_of_advance hadv
  refine h.advance_of_queue harrayed hadv h.nodup fun t ht ↦ ?_
  rcases eq_or_ne t p with rfl | hne
  · exact waiting_of_advance hrests hexec hadv (h.waiting t ht)
  · refine hturn.waiting_of_state hne ?_ (h.waiting t ht)
    rcases hturn.kernel with hk | ⟨-, -, hk⟩ | ⟨hp, -⟩
    · rw [hk]
    · rw [hk, setState, modify_ptable_of_ne hne]
    · exact absurd hp hsignal

/-- A process enters one of the calls. -/
theorem Live.enter (h : Live m queue) (hp : m.Calls p) (hl : l ∈ Place.user.next) :
    Live (m.goto p l) queue := by
  obtain ⟨⟨hrun, -⟩, hplace, hkilled⟩ := hp
  have hturn : Turn m p (m.goto p l) := turn_goto (hplace ▸ hl)
  refine ⟨h.tidy, fun t ht ↦ ?_, fun t ht ↦ ?_, h.nodup, fun t ht ↦ ?_⟩
  · rcases eq_or_ne t p with rfl | hne
    · exact ⟨hrun.awake, h.tidy.chan t hrun⟩
    · rw [goto_place_of_ne hne] at ht
      exact h.inside t ht
  · rcases eq_or_ne t p with rfl | hne
    · exact hkilled
    · rw [Machine.Waits, goto_place_of_ne hne] at ht
      exact h.alive t ht
  · have hwait := h.waiting t ht
    have hne : t ≠ p := fun heq ↦ hwait.ne_user (heq ▸ hplace)
    exact hturn.waiting_of_state hne rfl hwait

/-- Every step that spares who waits keeps the queue alive. -/
theorem Live.step {a : Act} (h : Live m queue) (harrayed : Arrayed m owner queue)
    (hrests : Rests m) (hspares : m.Spares a) (hstep : m.step a = .ok m') :
    Live m' (m.queueAfter queue a) := by
  cases stepped_of_step hstep with
  | kernel hcaller hfree hk => exact h.kernel hspares hcaller hk
  | lockAcquire hp huser hlock => exact ⟨h.tidy, h.inside, h.alive, h.nodup, h.waiting⟩
  | lockRelease hp huser => exact ⟨h.tidy, h.inside, h.alive, h.nodup, h.waiting⟩
  | condWait hp => exact h.enter hp (by decide)
  | condSignal hp => exact h.enter hp (by decide)
  | advance hp hadv => exact h.advance harrayed hrests hp hadv

/-- At boot nobody waits. -/
theorem live_boot {d : ℕ} (hd : d ≠ 0) (c : Cond) : Live (.boot d c) [] := by
  refine ⟨tidy_userinit hd, fun t ht ↦ absurd rfl ht, fun t ht ↦ ?_, List.nodup_nil, nofun⟩
  rcases ht with hl | ⟨hl, -⟩ <;> cases hl

/-- A signal on time finds a live process that sleeps at the head of the queue, and no other one
does. -/
theorem Live.onTime_iff (h : Live m queue) (horderly : Orderly m owner queue) (hrests : Rests m)
    (hp : m.place p = .signalState) :
    m.OnTime (.advance p) ↔ ∃ t, m.cond.thqueue m.cond.head = some t ∧ m.Asleep t ∧
      (m.kernel.ptable t).killed = false := by
  obtain ⟨x, rest, rfl, hhead, -⟩ := horderly.arrayed.signal_head hp
  have hwait := h.waiting x List.mem_cons_self
  have hne : x ≠ p := by
    rintro rfl
    rw [Machine.Waiting, hp] at hwait
    rcases hwait with hl | ⟨hl, -⟩ <;> cases hl
  constructor
  · intro htime
    refine ⟨x, hhead, ?_, h.alive x hwait.waits⟩
    obtain ⟨hunlock, hstate⟩ := htime.1 hp x hhead
    rcases horderly.arrayed.place_of_waiting (by rw [hp]; rfl) hwait hne with hl | hl | ⟨hl, hsleep⟩
    · exact absurd hl hunlock
    · exact absurd hl hstate
    · exact ⟨Place.inWait_of_isDown hl, hsleep⟩
  · rintro ⟨t, ht, hasleep, -⟩
    refine ⟨fun _ y hy ↦ ?_, fun hwrite ↦ absurd (hp.symm.trans hwrite) (by decide)⟩
    obtain rfl : t = y := Option.some.inj (ht.symm.trans hy)
    have huser : m.place t ≠ .user := by
      intro heq
      rw [Asleep, heq] at hasleep
      cases hasleep.1
    rcases hrests t hasleep.2 huser with hl | ⟨hl, -⟩ <;> rw [hl] <;> decide

/-- **A signal wakes a live process that waits, if one does.** In a run in which signals and waiters
are on time and nobody who waits is killed, a signal that is on time does what it is there for; one
that assigns a state and is not on time does not. -/
theorem signalRight_of_reachable (h : (system.restrict Timely).Reachable m)
    (hstep : m.step (.advance p) = .ok m') :
    (m.OnTime (.advance p) → m.SignalRight p m') ∧
      (m.place p = .signalState → m.SignalRight p m' → m.OnTime (.advance p)) := by
  have hinv : Rests m ∧ ∃ owner queue, Orderly m owner queue ∧ Live m queue := by
    refine h.invariant (I := fun m ↦ Rests m ∧ ∃ owner queue, Orderly m owner queue ∧ Live m queue)
      ?_ ?_
    · rintro m ⟨d, c, hd, rfl⟩
      exact ⟨rests_boot d c, none, [], orderly_boot d c, live_boot hd c⟩
    · rintro m a m' ⟨hrests, owner, queue, horderly, hlive⟩ ⟨⟨htime, hspares⟩, hstep⟩
      obtain ⟨owner', horderly'⟩ := horderly.step htime hstep
      exact ⟨hrests.step hstep, owner', _, horderly',
        hlive.step horderly.arrayed hrests hspares hstep⟩
  obtain ⟨hrests, owner, queue, horderly, hlive⟩ := hinv
  have hadv : m.advance p = .ok m' := by
    simp only [Machine.step] at hstep
    split_ifs at hstep
    exact hstep
  refine ⟨fun htime ↦ ⟨fun hp ↦ ?_, fun hp hlive' ↦ ?_⟩, fun hp hright ↦ ?_⟩
  · obtain ⟨t, hhead, hasleep, halive⟩ := (hlive.onTime_iff horderly hrests hp).1 htime
    refine ⟨t, hhead, hasleep, halive, ?_⟩
    simp only [Machine.advance, hp, hhead] at hadv
    rw [← Except.ok.inj hadv]
    rfl
  · -- the one who waits is in the queue, and the counter says so
    obtain ⟨t, hwait, -⟩ := hlive'
    have hring := horderly.arrayed.ring_of_holdsFlag (p := p) (by rw [hp]; rfl)
    rw [hp] at hring
    have hmem := horderly.waiting t hwait
    have hcount : m.cond.count ≠ 0 := by
      rw [Ring.count_eq hring, ← Nat.pos_iff_ne_zero]
      exact List.length_pos_of_mem hmem
    simp only [Machine.advance, hp, if_neg hcount] at hadv
    rw [← Except.ok.inj hadv, goto_place_self]
  · obtain ⟨t, hhead, hasleep, halive, -⟩ := hright.wakes hp
    exact (hlive.onTime_iff horderly hrests hp).2 ⟨t, hhead, hasleep, halive⟩

/-! ### A waiter that is killed -/

instance (m : Machine) (t : Slot) : Decidable (m.Waits t) := inferInstanceAs (Decidable (_ ∨ _))

instance (m : Machine) : (a : Act) → Decidable (m.Spares a)
  | .kernel _ => inferInstanceAs (Decidable (∀ t, _ = some t → ¬ _))
  | .lockAcquire _ => inferInstanceAs (Decidable True)
  | .lockRelease _ => inferInstanceAs (Decidable True)
  | .condWait _ => inferInstanceAs (Decidable True)
  | .condSignal _ => inferInstanceAs (Decidable True)
  | .advance _ => inferInstanceAs (Decidable True)

instance (m : Machine) (a : Act) : Decidable (m.Timely a) := inferInstanceAs (Decidable (_ ∧ _))

/-- The first process signals, as far as the assignment. -/
def signaller : List Act :=
  [.condSignal initproc, .advance initproc, .advance initproc]

/-- **A signal wakes the thread that sleeps.** -/
theorem sleepingWaiter_signalled :
    ∃ m m', (system.restrict Timely).Reachable m ∧ m.step (.advance initproc) = .ok m' ∧
      m.place initproc = .signalState ∧ m.SignalRight initproc m' := by
  obtain ⟨m, hreach, hready⟩ := System.Reachable.exists_of_run (S := system.restrict Timely)
    (f := System.checked Timely Machine.step .blocked)
    (p := fun m ↦ decide (m.OnTime (.advance initproc) ∧ m.Executes initproc ∧
      m.place initproc = .signalState ∧ m.cond.thqueue m.cond.head = some thread))
    (System.next_of_checked fun _ _ _ h ↦ h) (l := sleepingWaiter ++ signaller)
    (.init ⟨1, freshCond, by decide, rfl⟩) (by decide +kernel)
  obtain ⟨htime, hexec, hplace, hhead⟩ := of_decide_eq_true hready
  have hstep : ∃ m', m.step (.advance initproc) = .ok m' := by
    simp only [Machine.step, if_pos hexec, Machine.advance, hplace, hhead]
    exact ⟨_, rfl⟩
  obtain ⟨m', hstep⟩ := hstep
  exact ⟨m, m', hreach, hstep, hplace, (signalRight_of_reachable hreach hstep).1 htime⟩

/-- The thread is killed while it waits; it leaves `cond_wait` and exits, and then the first process
signals. -/
def killedWaiter : List Act :=
  sleepingWaiter ++ [.kernel (.kill 2), .kernel (.dispatch thread), .advance thread,
    .advance thread, .kernel (.exit thread)] ++ signaller

/-- **The signal assigns RUNNABLE to a zombie.** -/
theorem killedWaiter_signalled : ¬ ∀ m, system.Reachable m → ∀ p m',
    m.step (.advance p) = .ok m' → m.SignalRight p m' := by
  intro hall
  obtain ⟨m, hreach, hready⟩ := System.Reachable.exists_of_run (S := system) (f := Machine.step)
    (p := fun m ↦ decide (m.Executes initproc ∧ m.place initproc = .signalState ∧
      m.cond.thqueue m.cond.head = some thread ∧ (m.kernel.ptable thread).state = .zombie))
    (fun _ _ _ h ↦ h) (l := killedWaiter) (.init ⟨1, freshCond, by decide, rfl⟩)
    (by decide +kernel)
  obtain ⟨hexec, hplace, hhead, hzombie⟩ := of_decide_eq_true hready
  have hstep : ∃ m', m.step (.advance initproc) = .ok m' := by
    simp only [Machine.step, if_pos hexec, Machine.advance, hplace, hhead]
    exact ⟨_, rfl⟩
  obtain ⟨m', hstep⟩ := hstep
  obtain ⟨t, ht, hasleep, -⟩ := (hall m hreach initproc m' hstep).wakes hplace
  obtain rfl : thread = t := Option.some.inj (hhead.symm.trans ht)
  exact absurd (hzombie.symm.trans hasleep.2) (by decide)

end CondVar

end Threads
