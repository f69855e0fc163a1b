import Cs537OS.Foundation.RingBuffer
import Cs537OS.ThreadPool.Server
import Mathlib.Tactic.SplitIfs

/-!
# The queue of connections

The ring buffer holds the queue of the descriptors that were put in and not yet taken out. Inside a
critical section its variables lag behind the queue: an operation writes or reads the cell first
and moves the index and the count in later statements. How far they lag is a function of the place
of the thread that has the mutex (`Place.lag`), so outside the critical sections they agree with
the queue.

* **The buffer** (`Repr`): the cells from `front` on hold the queue, and `rear` and `count` say
  where it ends. One lemma for each statement that changes them.
* **The threads**: places and mutex agree (`Obeys`), and the thread that has passed the test of its
  loop still finds it passed (`Place.guard`).
* **The histories**: what was accepted is what was dequeued, then the queue, then the descriptor
  that `main` has in hand.

`inv_of_reachable` puts them together.
-/

namespace ThreadPool

/-- A place of `main` or of `processRequest`. -/
inductive Place
  | main (p : MainPlace)
  | worker (p : WorkerPlace)

/-- How far `front`, `rear` and `count` are from where the queue wants them. -/
structure Lag where
  front : ℕ
  rear : ℕ
  count : ℤ

/-- The variables agree with the queue. -/
def Lag.none : Lag := ⟨0, 0, 0⟩

namespace Place

/-- The places at which a thread has the mutex. -/
def inside : Place → Bool
  | main .test | main .wait | main .write | main .advance | main .inc | main .signal
  | main .unlock => true
  | worker .test | worker .wait | worker .read | worker (.advance _) | worker (.dec _)
  | worker (.signal _) | worker (.unlock _) => true
  | _ => false

/-- The condition variable waited for. -/
def waits : Place → Option Cond
  | main .waiting => some .empty
  | worker .waiting => some .fill
  | _ => none

/-- A descriptor is in the queue as soon as it is written, and out of it as soon as it is read. -/
def lag : Place → Lag
  | main .advance => ⟨0, 1, 1⟩
  | main .inc => ⟨0, 0, 1⟩
  | worker (.advance _) => ⟨1, 0, -1⟩
  | worker (.dec _) => ⟨0, 0, -1⟩
  | _ => .none

/-- What a thread knows from the test of its loop. -/
def guard (bufferlen : ℕ) (count : ℤ) : Place → Prop
  | main .write => count ≠ bufferlen
  | main .wait => count = bufferlen
  | worker .read => count ≠ 0
  | worker .wait => count = 0
  | _ => True

variable {bufferlen : ℕ} {count : ℤ}

theorem guard_of_not_inside {p : Place} (h : p.inside = false) : p.guard bufferlen count := by
  cases p with
  | main p => cases p <;> trivial
  | worker p => cases p <;> trivial

end Place

/-! ### The buffer -/

/-- The variables of the buffer hold `queue`, of which `base` elements have left, up to a lag. -/
structure Repr (bufferlen : ℕ) (lag : Lag) (workBuffer : ℕ → ℤ) (front rear : ℕ) (count : ℤ)
    (base : ℕ) (queue : List ℤ) : Prop where
  ring : RingBuffer.Holds bufferlen (some ∘ workBuffer) base queue
  front_lt : front < bufferlen
  rear_lt : rear < bufferlen
  front_eq : (front + lag.front) % bufferlen = base % bufferlen
  rear_eq : (rear + lag.rear) % bufferlen = (base + queue.length) % bufferlen
  count_eq : count + lag.count = queue.length

section

variable {bufferlen front rear base : ℕ} {lag : Lag} {workBuffer : ℕ → ℤ} {count c : ℤ}
  {queue : List ℤ} {x : ℤ}

theorem repr_nil (h : 0 < bufferlen) : Repr bufferlen .none workBuffer 0 0 0 0 [] :=
  ⟨RingBuffer.holds_nil, h, h, rfl, rfl, rfl⟩

/-- `workBuffer[rear] = connfd`. -/
theorem Repr.write (h : Repr bufferlen .none workBuffer front rear count base queue)
    (hroom : count ≠ bufferlen) :
    Repr bufferlen ⟨0, 1, 1⟩ (Function.update workBuffer rear x) front rear count base
      (queue ++ [x]) := by
  have hcount : count + 0 = queue.length := h.count_eq
  have hle := h.ring.length_le
  have hplace : rear = (base + queue.length) % bufferlen := by
    rw [← h.rear_eq]
    exact (Nat.mod_eq_of_lt h.rear_lt).symm
  refine ⟨?_, h.front_lt, h.rear_lt, h.front_eq, ?_, ?_⟩
  · rw [Function.comp_update, hplace]
    exact h.ring.push (by omega) x
  · rw [List.length_append, List.length_singleton, ← Nat.add_assoc]
    show (rear + 1) % bufferlen = _
    rw [hplace, Nat.mod_add_mod]
  · rw [List.length_append, List.length_singleton]
    push_cast
    show count + 1 = _
    omega

/-- `rear = (rear + 1)%bufferlen`. -/
theorem Repr.advanceRear (h : Repr bufferlen ⟨0, 1, c⟩ workBuffer front rear count base queue) :
    Repr bufferlen ⟨0, 0, c⟩ workBuffer front ((rear + 1) % bufferlen) count base queue := by
  refine ⟨h.ring, h.front_lt, Nat.mod_lt _ (Nat.zero_lt_of_lt h.rear_lt), h.front_eq, ?_,
    h.count_eq⟩
  rw [← h.rear_eq]
  show (rear + 1) % bufferlen % bufferlen = (rear + 1) % bufferlen
  exact Nat.mod_mod _ _

/-- `count++`. -/
theorem Repr.inc (h : Repr bufferlen ⟨0, 0, 1⟩ workBuffer front rear count base queue) :
    Repr bufferlen .none workBuffer front rear (count + 1) base queue :=
  ⟨h.ring, h.front_lt, h.rear_lt, h.front_eq, h.rear_eq, (Int.add_zero _).trans h.count_eq⟩

/-- `connfd = workBuffer[front]`: the first element of the queue. -/
theorem Repr.read (h : Repr bufferlen .none workBuffer front rear count base queue)
    (hne : count ≠ 0) :
    ∃ queue', queue = workBuffer front :: queue' ∧
      Repr bufferlen ⟨1, 0, -1⟩ workBuffer front rear count (base + 1) queue' := by
  have hcount : count + 0 = queue.length := h.count_eq
  have hplace : front = base % bufferlen := by
    rw [← h.front_eq]
    exact (Nat.mod_eq_of_lt h.front_lt).symm
  cases queue with
  | nil =>
    rw [List.length_nil] at hcount
    omega
  | cons x queue =>
    have hx : workBuffer front = x := by
      rw [hplace]
      exact Option.some.inj h.ring.head
    refine ⟨queue, by rw [hx], h.ring.pop, h.front_lt, h.rear_lt, ?_, ?_, ?_⟩
    · show (front + 1) % bufferlen = _
      rw [hplace, Nat.mod_add_mod]
    · have hrear := h.rear_eq
      rw [List.length_cons] at hrear
      rw [Nat.add_assoc, Nat.add_comm 1]
      exact hrear
    · rw [List.length_cons] at hcount
      push_cast at hcount
      show count + -1 = _
      omega

/-- `front = (front + 1)%bufferlen`. -/
theorem Repr.advanceFront (h : Repr bufferlen ⟨1, 0, c⟩ workBuffer front rear count base queue) :
    Repr bufferlen ⟨0, 0, c⟩ workBuffer ((front + 1) % bufferlen) rear count base queue := by
  refine ⟨h.ring, Nat.mod_lt _ (Nat.zero_lt_of_lt h.front_lt), h.rear_lt, ?_, h.rear_eq,
    h.count_eq⟩
  rw [← h.front_eq]
  show (front + 1) % bufferlen % bufferlen = (front + 1) % bufferlen
  exact Nat.mod_mod _ _

/-- `count--`. -/
theorem Repr.dec (h : Repr bufferlen ⟨0, 0, -1⟩ workBuffer front rear count base queue) :
    Repr bufferlen .none workBuffer front rear (count - 1) base queue :=
  ⟨h.ring, h.front_lt, h.rear_lt, h.front_eq, h.rear_eq, (Int.add_zero _).trans h.count_eq⟩

end

/-! ### The threads -/

namespace Server

variable {n : ℕ}

/-- Where a thread is. -/
def place (s : Server n) : Thread n → Place
  | none => .main s.main
  | some w => .worker (s.worker w)

/-- The lag of the thread that has the mutex. -/
def lag (s : Server n) : Lag :=
  match s.monitor.owner with
  | none => .none
  | some t => (s.place t).lag

/-- What `main` has accepted and not put in yet. -/
def hand (s : Server n) : List ℤ :=
  match s.main with
  | .lock | .test | .wait | .waiting | .write => [s.connfd]
  | _ => []

/-- The buffer holds `queue`, up to a lag. -/
def Holds (s : Server n) (bufferlen : ℕ) (lag : Lag) (queue : List ℤ) : Prop :=
  Repr bufferlen lag s.workBuffer s.front s.rear s.count s.dequeued.length queue

/-- While `main` creates the workers, the others do not exist. -/
def Unborn (s : Server n) : Prop :=
  ∀ i, s.main = .create i → ∀ w : Fin n, i ≤ w → s.worker w = .unborn

/-- The invariant of the server, with the queue that the buffer holds. -/
structure Inv (s : Server n) (bufferlen : ℕ) (queue : List ℤ) : Prop where
  obeys : Obeys Place.inside Place.waits s.place s.monitor
  guard : ∀ t, (s.place t).guard bufferlen s.count
  repr : s.Holds bufferlen s.lag queue
  history : s.accepted = s.dequeued ++ queue ++ s.hand
  unborn : s.Unborn

variable {s s' : Server n} {bufferlen : ℕ} {queue queue' : List ℤ} {t : Thread n} {l : Place}
  {w : Fin n}

/-- `main` moves. -/
theorem place_of_main (h : s'.worker = s.worker) :
    s'.place = Function.update s.place none (.main s'.main) := by
  funext t
  cases t with
  | none => rw [Function.update_self]; rfl
  | some w =>
    rw [Function.update_of_ne (Option.some_ne_none w), place, place, h]

/-- A worker moves. -/
theorem place_of_worker {l : WorkerPlace} (hm : s'.main = s.main)
    (hw : s'.worker = Function.update s.worker w l) :
    s'.place = Function.update s.place (some w) (.worker l) := by
  funext t
  cases t with
  | none => rw [Function.update_of_ne (Option.some_ne_none w).symm, place, place, hm]
  | some v =>
    rw [place, hw]
    rcases eq_or_ne v w with rfl | hne
    · rw [Function.update_self, Function.update_self]
    · rw [Function.update_of_ne hne, Function.update_of_ne fun h ↦ hne (Option.some.inj h)]
      rfl

theorem lag_of_owner (h : s.monitor.owner = some t) : s.lag = (s.place t).lag := by
  rw [lag, h]

theorem lag_of_free (h : s.monitor.owner = none) : s.lag = .none := by
  rw [lag, h]

/-- A thread without the mutex has no lag. -/
theorem lag_of_not_owner (hplace : s'.place = Function.update s.place t l)
    (howner : s'.monitor.owner = s.monitor.owner) (ht : s.monitor.owner ≠ some t) :
    s'.lag = s.lag := by
  rcases h : s.monitor.owner with _ | u
  · rw [lag_of_free h, lag_of_free (howner.trans h)]
  · have hne : u ≠ t := fun heq ↦ ht (heq ▸ h)
    rw [lag_of_owner h, lag_of_owner (howner.trans h), hplace, Function.update_of_ne hne]

/-- The guards after a move: the others have none, or the count stays. -/
theorem guard_of_move (h : s.Inv bufferlen queue) (hplace : s'.place = Function.update s.place t l)
    (hcount : (s.place t).inside = true ∨ s'.count = s.count)
    (hl : l.guard bufferlen s'.count) (u : Thread n) : (s'.place u).guard bufferlen s'.count := by
  rw [hplace]
  rcases eq_or_ne u t with rfl | hne
  · rw [Function.update_self]
    exact hl
  · rw [Function.update_of_ne hne]
    rcases hcount with hin | hcount
    · refine Place.guard_of_not_inside ?_
      rw [← Bool.not_eq_true]
      exact fun hu ↦ hne (h.obeys.unique hu hin)
    · rw [hcount]
      exact h.guard u

/-! ### One lemma for each kind of step -/

/-- A step outside the critical sections. -/
theorem Inv.outside (h : s.Inv bufferlen queue) (hplace : s'.place = Function.update s.place t l)
    (hmonitor : s'.monitor = s.monitor) (hp : (s.place t).inside = false)
    (hawake : (s.place t).waits = none) (hl : l.inside = false) (hcount : s'.count = s.count)
    (hrepr : s'.Holds bufferlen s.lag queue)
    (hhistory : s'.accepted = s'.dequeued ++ queue ++ s'.hand) (hunborn : s'.Unborn) :
    s'.Inv bufferlen queue := by
  have ht : s.monitor.owner ≠ some t := by
    rw [Ne, ← h.obeys.inside_iff t, hp]
    exact Bool.false_ne_true
  refine ⟨?_, guard_of_move h hplace (.inr hcount) (Place.guard_of_not_inside hl), ?_, hhistory,
    hunborn⟩
  · rw [hplace, hmonitor]
    exact h.obeys.stay (hl.trans hp.symm) (h.obeys.awake hawake)
  · rw [lag_of_not_owner hplace (by rw [hmonitor]) ht]
    exact hrepr

/-- A thread takes the mutex and comes to the test of its loop. -/
theorem Inv.lock (h : s.Inv bufferlen queue) (hplace : s'.place = Function.update s.place t l)
    (hcan : s.monitor.CanLock t) (hmonitor : s'.monitor = s.monitor.lock t)
    (hl : l.inside = true) (hlag : l.lag = .none) (hguard : l.guard bufferlen s'.count)
    (hcount : s'.count = s.count) (hrepr : s'.Holds bufferlen s.lag queue)
    (hhistory : s'.accepted = s'.dequeued ++ queue ++ s'.hand) (hunborn : s'.Unborn) :
    s'.Inv bufferlen queue := by
  refine ⟨?_, guard_of_move h hplace (.inr hcount) hguard, ?_, hhistory, hunborn⟩
  · rw [hplace, hmonitor]
    exact h.obeys.lock hcan hl
  · have howner : s'.monitor.owner = some t := by rw [hmonitor]; rfl
    rw [lag_of_owner howner, hplace, Function.update_self, hlag, ← lag_of_free hcan.1]
    exact hrepr

/-- A statement inside a critical section, which may signal. -/
theorem Inv.inside (h : s.Inv bufferlen queue) (hplace : s'.place = Function.update s.place t l)
    (hp : (s.place t).inside = true) (hl : l.inside = true)
    (hmonitor : s'.monitor = s.monitor ∨ ∃ ws, s'.monitor = s.monitor.wake ws)
    (hawake : (s.place t).waits = none) (hguard : l.guard bufferlen s'.count)
    (hrepr : s'.Holds bufferlen l.lag queue')
    (hhistory : s'.accepted = s'.dequeued ++ queue' ++ s'.hand) (hunborn : s'.Unborn) :
    s'.Inv bufferlen queue' := by
  have hstay := h.obeys.stay (l := l) (hl.trans hp.symm) (h.obeys.awake hawake)
  have hobeys : Obeys Place.inside Place.waits (Function.update s.place t l) s'.monitor := by
    rcases hmonitor with hmonitor | ⟨ws, hmonitor⟩
    · rw [hmonitor]
      exact hstay
    · rw [hmonitor]
      exact hstay.wake ws
  refine ⟨hplace ▸ hobeys, guard_of_move h hplace (.inl hp) hguard, ?_, hhistory, hunborn⟩
  have howner : s'.monitor.owner = some t :=
    (hobeys.inside_iff t).1 (by rw [Function.update_self]; exact hl)
  rw [lag_of_owner howner, hplace, Function.update_self]
  exact hrepr

/-- A thread leaves its critical section, for good or to sleep. -/
theorem Inv.leave (h : s.Inv bufferlen queue) (hplace : s'.place = Function.update s.place t l)
    (hp : (s.place t).inside = true) (hlag : (s.place t).lag = .none) (hl : l.inside = false)
    (hmonitor : (s'.monitor = s.monitor.unlock ∧ (s.place t).waits = none) ∨
      ∃ c, s'.monitor = s.monitor.wait t c ∧ l.waits = some c)
    (hrepr : s'.Holds bufferlen s.lag queue)
    (hhistory : s'.accepted = s'.dequeued ++ queue ++ s'.hand) (hunborn : s'.Unborn) :
    s'.Inv bufferlen queue := by
  have hobeys : Obeys Place.inside Place.waits (Function.update s.place t l) s'.monitor ∧
      s'.monitor.owner = none := by
    rcases hmonitor with ⟨hmonitor, hawake⟩ | ⟨c, hmonitor, hwaits⟩
    · rw [hmonitor]
      exact ⟨h.obeys.unlock hp (h.obeys.awake hawake) hl, rfl⟩
    · rw [hmonitor]
      exact ⟨h.obeys.wait hp hl hwaits, rfl⟩
  refine ⟨hplace ▸ hobeys.1,
    guard_of_move h hplace (.inl hp) (Place.guard_of_not_inside hl), ?_, hhistory, hunborn⟩
  rw [lag_of_free hobeys.2, ← hlag, ← lag_of_owner (h.obeys.owner_eq hp)]
  exact hrepr

/-! ### The statements -/

theorem Unborn.worker {l : WorkerPlace} (h : s.Unborn) (hm : s'.main = s.main)
    (hw : s'.worker = Function.update s.worker w l) (hne : s.worker w ≠ .unborn) : s'.Unborn := by
  intro i hi v hv
  have hunborn := h i (hm ▸ hi)
  have hvw : v ≠ w := fun heq ↦ hne (hunborn w (heq ▸ hv))
  rw [hw, Function.update_of_ne hvw]
  exact hunborn v hv

theorem Inv.workerStep (h : s.Inv bufferlen queue) (hstep : s.workerStep bufferlen w = .ok s') :
    ∃ queue', s'.Inv bufferlen queue' := by
  have hplace : s.place (some w) = .worker (s.worker w) := rfl
  have hguard := h.guard (some w)
  rw [Server.workerStep] at hstep
  rcases hp : s.worker w with _ | _ | _ | _ | _ | _ | fd | fd | fd | fd | fd <;>
    rw [hp] at hplace <;> simp only [hp] at hstep
  case unborn => cases hstep
  case signal => cases hstep
  all_goals have hborn : s.worker w ≠ .unborn := by rw [hp]; nofun
  case lock =>
    split_ifs at hstep with hcan
    obtain rfl := Except.ok.inj hstep
    exact ⟨queue, h.lock (place_of_worker rfl rfl) hcan rfl rfl rfl trivial rfl h.repr h.history
      (h.unborn.worker rfl rfl hborn)⟩
  case waiting =>
    split_ifs at hstep with hcan
    obtain rfl := Except.ok.inj hstep
    exact ⟨queue, h.lock (place_of_worker rfl rfl) hcan rfl rfl rfl trivial rfl h.repr h.history
      (h.unborn.worker rfl rfl hborn)⟩
  all_goals
    -- the thread has the mutex, or is about to handle its request
    have hlagOf : (s.place (some w)).inside = true → s.lag = (s.place (some w)).lag :=
      fun hin ↦ lag_of_owner (h.obeys.owner_eq hin)
    have hr := h.repr
    rw [hplace] at hlagOf hguard
  case handle =>
    obtain rfl := Except.ok.inj hstep
    exact ⟨queue, h.outside (t := some w) (place_of_worker rfl rfl) rfl (by rw [hplace]; rfl)
      (by rw [hplace]; rfl) rfl rfl hr h.history (h.unborn.worker rfl rfl hborn)⟩
  all_goals
    have hlag := hlagOf rfl
    have hin : (s.place (some w)).inside = true := by rw [hplace]; rfl
    have hwaits : (s.place (some w)).waits = none := by rw [hplace]; rfl
    rw [hlag] at hr
  case test =>
    obtain rfl := Except.ok.inj hstep
    rcases eq_or_ne s.count 0 with h₀ | h₀
    · exact ⟨queue, h.inside (l := .worker .wait) (place_of_worker rfl (by rw [if_pos h₀])) hin rfl
        (.inl rfl) hwaits h₀ hr h.history (h.unborn.worker rfl rfl hborn)⟩
    · exact ⟨queue, h.inside (l := .worker .read) (place_of_worker rfl (by rw [if_neg h₀])) hin rfl
        (.inl rfl) hwaits h₀ hr h.history (h.unborn.worker rfl rfl hborn)⟩
  case wait =>
    obtain rfl := Except.ok.inj hstep
    exact ⟨queue, h.leave (place_of_worker rfl rfl) hin (by rw [hplace]; rfl) rfl
      (.inr ⟨.fill, rfl, rfl⟩) h.repr h.history (h.unborn.worker rfl rfl hborn)⟩
  case read =>
    obtain rfl := Except.ok.inj hstep
    obtain ⟨queue', rfl, hr'⟩ := Repr.read hr hguard
    refine ⟨queue', h.inside (place_of_worker rfl rfl) hin rfl (.inl rfl) hwaits trivial ?_ ?_
      (h.unborn.worker rfl rfl hborn)⟩
    · rw [Holds, List.length_append]
      exact hr'
    · show s.accepted = _ ++ _ ++ s.hand
      rw [h.history]
      simp
  case advance =>
    obtain rfl := Except.ok.inj hstep
    exact ⟨queue, h.inside (place_of_worker rfl rfl) hin rfl (.inl rfl) hwaits trivial
      (Repr.advanceFront hr) h.history (h.unborn.worker rfl rfl hborn)⟩
  case dec =>
    obtain rfl := Except.ok.inj hstep
    exact ⟨queue, h.inside (place_of_worker rfl rfl) hin rfl (.inl rfl) hwaits trivial
      (Repr.dec hr) h.history (h.unborn.worker rfl rfl hborn)⟩
  case unlock =>
    obtain rfl := Except.ok.inj hstep
    exact ⟨queue, h.leave (place_of_worker rfl rfl) hin (by rw [hplace]; rfl) rfl
      (.inl ⟨rfl, hwaits⟩) h.repr h.history (h.unborn.worker rfl rfl hborn)⟩

/-- Outside the loop that creates the workers nothing is asked. -/
theorem unborn_of_ne (h : ∀ i, s.main ≠ .create i) : s.Unborn :=
  fun i hi ↦ absurd hi (h i)

/-- `Thread_create` moves two threads that are outside: `main`, and the new worker to its start. -/
theorem Inv.create (h : s.Inv bufferlen queue) {i : ℕ} (hmain : s.main = .create i) (hi : i < n) :
    ({ s with
        main := .create (i + 1)
        worker := Function.update s.worker ⟨i, hi⟩ .lock } : Server n).Inv bufferlen queue := by
  have hmoved : ({ s with main := .create (i + 1) } : Server n).Inv bufferlen queue := by
    have hplace : s.place none = .main (.create i) := by rw [place, hmain]
    refine h.outside (t := none) (place_of_main rfl) rfl (by rw [hplace]; rfl) (by rw [hplace]; rfl)
      rfl rfl h.repr ?_ ?_
    · rw [h.history, hand, hmain]
      rfl
    · intro j hj v hv
      obtain rfl : i + 1 = j := MainPlace.create.inj hj
      exact h.unborn i hmain v (by omega)
  have hplace : ({ s with main := .create (i + 1) } : Server n).place (some ⟨i, hi⟩) =
      .worker .unborn := congrArg Place.worker (h.unborn i hmain ⟨i, hi⟩ le_rfl)
  refine hmoved.outside (t := some ⟨i, hi⟩) (place_of_worker rfl rfl) rfl (by rw [hplace]; rfl)
    (by rw [hplace]; rfl) rfl rfl hmoved.repr hmoved.history ?_
  intro j hj v hv
  obtain rfl : i + 1 = j := MainPlace.create.inj hj
  have hne : v ≠ ⟨i, hi⟩ := fun heq ↦ by
    have hval : (v : ℕ) = i := congrArg Fin.val heq
    omega
  show Function.update s.worker ⟨i, hi⟩ .lock v = .unborn
  rw [Function.update_of_ne hne]
  exact h.unborn i hmain v (by omega)

theorem Inv.mainStep (h : s.Inv bufferlen queue) (hstep : s.mainStep bufferlen = .ok s') :
    ∃ queue', s'.Inv bufferlen queue' := by
  have hplace : s.place none = .main s.main := rfl
  have hhand : s.accepted = s.dequeued ++ queue ++ s.hand := h.history
  have hguard := h.guard none
  have hr := h.repr
  rw [hand] at hhand
  rw [Server.mainStep] at hstep
  rcases hp : s.main with i | _ | _ | _ | _ | _ | _ | _ | _ | _ | _ <;>
    rw [hp] at hplace hhand <;> simp only [hp] at hstep hhand
  case accept => cases hstep
  case signal => cases hstep
  case create =>
    split_ifs at hstep with hi
    · obtain rfl := Except.ok.inj hstep
      exact ⟨queue, h.create hp hi⟩
    · obtain rfl := Except.ok.inj hstep
      exact ⟨queue, h.outside (t := none) (place_of_main rfl) rfl (by rw [hplace]; rfl)
        (by rw [hplace]; rfl) rfl rfl hr hhand (unborn_of_ne nofun)⟩
  case lock =>
    split_ifs at hstep with hcan
    obtain rfl := Except.ok.inj hstep
    exact ⟨queue, h.lock (place_of_main rfl) hcan rfl rfl rfl trivial rfl hr hhand
      (unborn_of_ne nofun)⟩
  case waiting =>
    split_ifs at hstep with hcan
    obtain rfl := Except.ok.inj hstep
    exact ⟨queue, h.lock (place_of_main rfl) hcan rfl rfl rfl trivial rfl hr hhand
      (unborn_of_ne nofun)⟩
  all_goals
    -- `main` has the mutex
    have hin : (s.place none).inside = true := by rw [hplace]; rfl
    have hwaits : (s.place none).waits = none := by rw [hplace]; rfl
    rw [lag_of_owner (h.obeys.owner_eq hin)] at hr
    rw [hplace] at hr hguard
    obtain rfl := Except.ok.inj hstep
  case test =>
    rcases eq_or_ne s.count bufferlen with hfull | hroom
    · rw [if_pos hfull]
      exact ⟨queue, h.inside (l := .main .wait) (place_of_main rfl) hin rfl (.inl rfl) hwaits hfull
        hr hhand (unborn_of_ne nofun)⟩
    · rw [if_neg hroom]
      exact ⟨queue, h.inside (l := .main .write) (place_of_main rfl) hin rfl (.inl rfl) hwaits hroom
        hr hhand (unborn_of_ne nofun)⟩
  case wait =>
    exact ⟨queue, h.leave (l := .main .waiting) (place_of_main rfl) hin (by rw [hplace]; rfl) rfl
      (.inr ⟨.empty, rfl, rfl⟩) h.repr hhand (unborn_of_ne nofun)⟩
  case write =>
    refine ⟨queue ++ [s.connfd], h.inside (l := .main .advance) (place_of_main rfl) hin rfl
      (.inl rfl) hwaits trivial (Repr.write hr hguard) ?_ (unborn_of_ne nofun)⟩
    show s.accepted = s.dequeued ++ (queue ++ [s.connfd]) ++ []
    rw [hhand]
    simp
  case advance =>
    exact ⟨queue, h.inside (l := .main .inc) (place_of_main rfl) hin rfl (.inl rfl) hwaits trivial
      (Repr.advanceRear hr) hhand (unborn_of_ne nofun)⟩
  case inc =>
    exact ⟨queue, h.inside (l := .main .signal) (place_of_main rfl) hin rfl (.inl rfl) hwaits
      trivial (Repr.inc hr) hhand (unborn_of_ne nofun)⟩
  case unlock =>
    exact ⟨queue, h.leave (l := .main .accept) (place_of_main rfl) hin (by rw [hplace]; rfl) rfl
      (.inl ⟨rfl, hwaits⟩) h.repr hhand (unborn_of_ne nofun)⟩

theorem Inv.signalStep (h : s.Inv bufferlen queue) {woken : List (Thread n)}
    (hstep : s.signalStep t woken = .ok s') : s'.Inv bufferlen queue := by
  cases t with
  | none =>
    rw [Server.signalStep] at hstep
    split_ifs at hstep with hsignal
    obtain rfl := Except.ok.inj hstep
    have hplace : s.place none = .main .signal := by rw [place, hsignal.1]
    have hin : (s.place none).inside = true := by rw [hplace]; rfl
    have hr := h.repr
    rw [lag_of_owner (h.obeys.owner_eq hin), hplace] at hr
    refine h.inside (l := .main .unlock) (place_of_main rfl) hin rfl (.inr ⟨woken, rfl⟩)
      (by rw [hplace]; rfl) trivial hr ?_ (unborn_of_ne (by simp))
    rw [h.history, hand, hsignal.1]
    rfl
  | some w =>
    rw [Server.signalStep] at hstep
    split at hstep
    next connfd hp =>
      split_ifs at hstep with hsignal
      obtain rfl := Except.ok.inj hstep
      have hplace : s.place (some w) = .worker (.signal connfd) := by rw [place, hp]
      have hin : (s.place (some w)).inside = true := by rw [hplace]; rfl
      have hr := h.repr
      rw [lag_of_owner (h.obeys.owner_eq hin), hplace] at hr
      exact h.inside (l := .worker (.unlock connfd)) (place_of_worker rfl rfl) hin rfl
        (.inr ⟨woken, rfl⟩) (by rw [hplace]; rfl) trivial hr h.history
        (h.unborn.worker rfl rfl (by simp [hp]))
    next => cases hstep

/-- **Every step keeps the invariant.** -/
theorem Inv.step (h : s.Inv bufferlen queue) {a : Act n} (hstep : s.step bufferlen a = .ok s') :
    ∃ queue', s'.Inv bufferlen queue' := by
  cases a with
  | main => exact h.mainStep hstep
  | worker w => exact h.workerStep hstep
  | signal t woken => exact ⟨queue, h.signalStep hstep⟩
  | accept connfd =>
    rw [Server.step] at hstep
    split_ifs at hstep with hp
    obtain rfl := Except.ok.inj hstep
    have hplace : s.place none = .main .accept := by rw [place, hp]
    refine ⟨queue, h.outside (t := none) (l := .main .lock) (place_of_main rfl) rfl
      (by rw [hplace]; rfl) (by rw [hplace]; rfl) rfl rfl h.repr ?_ (unborn_of_ne nofun)⟩
    show s.accepted ++ [connfd] = s.dequeued ++ queue ++ [connfd]
    rw [h.history, hand, hp]
    simp
  | wakeup t =>
    obtain rfl := Except.ok.inj hstep
    exact ⟨queue, h.obeys.wake [t], h.guard, h.repr, h.history, h.unborn⟩

theorem inv_of_starts (hpos : 0 < bufferlen) (h : s.Starts) : s.Inv bufferlen [] := by
  obtain ⟨hfront, hrear, hcount, hmonitor, hmain, hworker, haccepted, hdequeued⟩ := h
  have hout : ∀ t, (s.place t).inside = false := by
    intro t
    cases t with
    | none => rw [place, hmain]; rfl
    | some w => rw [place, hworker w]; rfl
  refine ⟨hmonitor ▸ obeys_idle hout, fun t ↦ Place.guard_of_not_inside (hout t), ?_, ?_,
    fun i _ w _ ↦ hworker w⟩
  · rw [lag_of_free (by rw [hmonitor]; rfl), Holds, hfront, hrear, hcount, hdequeued]
    exact repr_nil hpos
  · rw [haccepted, hdequeued, hand, hmain]
    rfl

theorem inv_of_reachable (hpos : 0 < bufferlen) (h : (system n bufferlen).Reachable s) :
    ∃ queue, s.Inv bufferlen queue :=
  h.invariant (I := fun s ↦ ∃ queue, s.Inv bufferlen queue)
    (fun _ h ↦ ⟨[], inv_of_starts hpos h⟩) fun _ _ _ ⟨_, h⟩ hstep ↦ h.step hstep

/-! ### What holds of the queue -/

/-- The number of descriptors put into the buffer so far. -/
def stored (s : Server n) : ℕ := s.accepted.length - s.hand.length

/-- The bounded buffer works. -/
structure QueueOk (s : Server n) (bufferlen : ℕ) : Prop where
  /-- Outside the critical sections the variables are consistent. -/
  balanced : s.monitor.owner = none →
    0 ≤ s.count ∧ s.count ≤ bufferlen ∧ (s.rear : ℤ) = (s.front + s.count) % bufferlen
  /-- There nothing is lost: what was not dequeued is in the buffer, or in the hand of `main`. -/
  contents : s.monitor.owner = none →
    s.accepted = s.dequeued ++
      (List.range s.count.toNat).map (fun k ↦ s.workBuffer ((s.front + k) % bufferlen)) ++ s.hand
  /-- Descriptors are dequeued in the order they were accepted, each once. -/
  fifo : s.dequeued <+: s.accepted
  /-- What was put in and not dequeued is in its cell. -/
  kept : ∀ k, s.dequeued.length ≤ k → k < s.stored →
    s.accepted[k]? = some (s.workBuffer (k % bufferlen))
  /-- The cell to be written next is none of these. -/
  free : s.main = .write → ∀ k, s.dequeued.length ≤ k → k < s.stored → k % bufferlen ≠ s.rear

theorem Inv.stored_eq (h : s.Inv bufferlen queue) :
    s.stored = s.dequeued.length + queue.length := by
  rw [stored, h.history, List.length_append, List.length_append, Nat.add_sub_cancel]

theorem Inv.queueOk (h : s.Inv bufferlen queue) : s.QueueOk bufferlen := by
  have hle := h.repr.ring.length_le
  have hbase : s.monitor.owner = none → s.front = s.dequeued.length % bufferlen := by
    intro hfree
    have hfront := h.repr.front_eq
    rw [lag_of_free hfree] at hfront
    exact (Nat.mod_eq_of_lt h.repr.front_lt).symm.trans hfront
  have hcount : s.monitor.owner = none → s.count = queue.length := by
    intro hfree
    have hcount := h.repr.count_eq
    rw [lag_of_free hfree] at hcount
    exact (Int.add_zero _).symm.trans hcount
  refine ⟨fun hfree ↦ ⟨?_, ?_, ?_⟩, fun hfree ↦ ?_, ?_, fun k hk hlt ↦ ?_, fun hwrite k hk hlt ↦ ?_⟩
  · rw [hcount hfree]
    exact Int.natCast_nonneg _
  · rw [hcount hfree]
    exact_mod_cast hle
  · have hrear := h.repr.rear_eq
    rw [lag_of_free hfree] at hrear
    have hrear : s.rear = (s.dequeued.length + queue.length) % bufferlen :=
      (Nat.mod_eq_of_lt h.repr.rear_lt).symm.trans hrear
    rw [hcount hfree, hbase hfree, hrear]
    push_cast
    rw [Int.emod_add_emod]
  · rw [hcount hfree, Int.toNat_natCast, hbase hfree]
    conv_lhs => rw [h.history]
    congr 2
    refine List.ext_getElem (by simp) fun i hi _ ↦ ?_
    have hslot := h.repr.ring.slot i _ (List.getElem?_eq_getElem hi)
    rw [List.getElem_map, List.getElem_range, Nat.mod_add_mod]
    exact (Option.some.inj hslot).symm
  · rw [h.history, List.append_assoc]
    exact List.prefix_append _ _
  · rw [h.stored_eq] at hlt
    obtain ⟨i, rfl⟩ := Nat.exists_eq_add_of_le hk
    have hi : i < queue.length := by omega
    have hslot := h.repr.ring.slot i _ (List.getElem?_eq_getElem hi)
    rw [h.history, List.append_assoc, List.getElem?_append_right hk, Nat.add_sub_cancel_left,
      List.getElem?_append_left hi, List.getElem?_eq_getElem hi]
    exact hslot.symm
  · rw [h.stored_eq] at hlt
    obtain ⟨i, rfl⟩ := Nat.exists_eq_add_of_le hk
    -- `main` has the mutex here, and there is room
    have hplace : s.place none = .main .write := by rw [place, hwrite]
    have hrepr := h.repr
    rw [lag_of_owner (h.obeys.owner_eq (by rw [hplace]; rfl)), hplace] at hrepr
    have hguard := h.guard none
    rw [hplace] at hguard
    have hroom : s.count ≠ bufferlen := hguard
    have hlen : s.count + 0 = queue.length := hrepr.count_eq
    have hrear : s.rear = (s.dequeued.length + queue.length) % bufferlen :=
      (Nat.mod_eq_of_lt hrepr.rear_lt).symm.trans hrepr.rear_eq
    rw [hrear]
    exact RingBuffer.place_ne (by omega) (by omega)

/-- **The queue of the server is correct**, in every order of steps and with any number of
workers. -/
theorem queueOk_of_reachable (hpos : 0 < bufferlen) (h : (system n bufferlen).Reachable s) :
    s.QueueOk bufferlen := by
  obtain ⟨queue, hinv⟩ := inv_of_reachable hpos h
  exact hinv.queueOk

/-- A server with one worker, before it is created. -/
def fresh : Server 1 where
  workBuffer _ := 0
  front := 0
  rear := 0
  count := 0
  monitor := .idle
  main := .create 0
  connfd := 0
  worker _ := .unborn
  accepted := []
  dequeued := []

theorem fresh_starts : fresh.Starts := ⟨rfl, rfl, rfl, rfl, rfl, fun _ ↦ rfl, rfl, rfl⟩

/-- A run in which the worker falls asleep before a first connection is accepted, and is woken. -/
def firstRequest : List (Act 1) :=
  [.main, .worker 0, .worker 0, .worker 0, .main, .accept 7, .main, .main, .main, .main, .main,
    .signal none [some 0], .main, .worker 0, .worker 0, .worker 0, .worker 0, .worker 0]

/-- The queue after the first request. -/
theorem firstRequest_queueOk : ∃ s : Server 1, s.dequeued = [7] ∧ s.QueueOk 1 := by
  obtain ⟨s, hs, hdeq⟩ := System.Reachable.exists_of_run (S := system 1 1)
    (f := Server.step 1) (fun _ _ _ h ↦ h) (l := firstRequest)
    (p := fun s ↦ decide (s.dequeued = [7])) (.init fresh_starts) (by decide)
  exact ⟨s, of_decide_eq_true hdeq, queueOk_of_reachable Nat.one_pos hs⟩

end Server

end ThreadPool
