import Cs537OS.ThreadPool.Queue

/-!
# The server does not get stuck on its queue

A signal wakes one thread at least, and by the time that thread has the mutex others may have been
faster. It still is enough: a thread falls asleep only when it finds nothing to do, with the mutex,
and whoever makes something to do signals before the mutex is free again.

* `Server.Wakeful.fill` — with something in the queue some worker is not asleep, except between
  `count++` and the signal of `main`;
* `Server.Wakeful.empty` — with room in the queue `main` is not asleep, except between `count--` and
  the signal of some worker.

In both exceptions the mutex is taken.
-/

namespace ThreadPool

namespace Server

variable {n bufferlen : ℕ} {s s' : Server n} {queue : List ℤ} {t : Thread n} {w : Fin n}

/-- Whoever could do something is awake, or is about to be woken. -/
structure Wakeful (s : Server n) (bufferlen : ℕ) : Prop where
  fill : s.main ≠ .signal → 0 < s.count → ∃ w, s.monitor.asleep (some w) ≠ some .fill
  empty : s.monitor.asleep none = some .empty → s.count < bufferlen →
    ∃ w connfd, s.worker w = .signal connfd

/-- Only `main` sleeps on `empty`. -/
theorem Inv.eq_main_of_asleep (h : s.Inv bufferlen queue)
    (ht : s.monitor.asleep t = some .empty) : t = none := by
  have hwaits := h.obeys.waits_of_asleep t _ ht
  cases t with
  | none => rfl
  | some w =>
    rw [place] at hwaits
    cases hp : s.worker w <;> rw [hp] at hwaits <;> cases hwaits

/-- Only workers sleep on `fill`. -/
theorem Inv.eq_worker_of_asleep (h : s.Inv bufferlen queue)
    (ht : s.monitor.asleep t = some .fill) : t ∈ Set.range (some : Fin n → Thread n) := by
  have hwaits := h.obeys.waits_of_asleep t _ ht
  cases t with
  | none =>
    rw [place] at hwaits
    cases hp : s.main <;> rw [hp] at hwaits <;> cases hwaits
  | some w => exact ⟨w, rfl⟩

/-- `main` sleeps only where it waits. -/
theorem Inv.main_awake (h : s.Inv bufferlen queue) (hmain : s.main ≠ .waiting) :
    s.monitor.asleep none = none := by
  refine h.obeys.awake ?_
  rw [place]
  cases hp : s.main <;> first | rfl | exact absurd hp hmain

/-! ### What a statement does to the sleepers -/

/-- A statement of `main` leaves the workers as awake as they were and does not raise the count,
`count++` apart; and `main` is awake, unless it finds the queue full. -/
theorem mainStep_sleepers (h : s.Inv bufferlen queue) (hstep : s.mainStep bufferlen = .ok s') :
    s.main ≠ .signal ∧ (∀ w, s'.monitor.asleep (some w) = s.monitor.asleep (some w)) ∧
      (s'.count = s.count ∨ s'.main = .signal) ∧
      (s'.monitor.asleep none = none ∨ s'.count = bufferlen) := by
  have hguard := h.guard none
  have hawake := h.main_awake
  rw [place] at hguard
  rw [Server.mainStep] at hstep
  rcases hp : s.main with i | _ | _ | _ | _ | _ | _ | _ | _ | _ | _ <;>
    rw [hp] at hguard hawake <;> simp only [hp] at hstep
  case accept => cases hstep
  case signal => cases hstep
  case create =>
    have hno := hawake (by simp)
    split_ifs at hstep
    all_goals
      obtain rfl := Except.ok.inj hstep
      exact ⟨by simp, fun _ ↦ rfl, .inl rfl, .inl hno⟩
  case lock =>
    split_ifs at hstep with hcan
    obtain rfl := Except.ok.inj hstep
    exact ⟨by simp, fun _ ↦ rfl, .inl rfl, .inl hcan.2⟩
  case waiting =>
    split_ifs at hstep with hcan
    obtain rfl := Except.ok.inj hstep
    exact ⟨by simp, fun _ ↦ rfl, .inl rfl, .inl hcan.2⟩
  case wait =>
    obtain rfl := Except.ok.inj hstep
    exact ⟨by simp, fun w ↦ Monitor.wait_asleep_of_ne _ _ (Option.some_ne_none w), .inl rfl,
      .inr hguard⟩
  case inc =>
    obtain rfl := Except.ok.inj hstep
    exact ⟨by simp, fun _ ↦ rfl, .inr rfl, .inl (hawake (by simp))⟩
  all_goals
    obtain rfl := Except.ok.inj hstep
    exact ⟨by simp, fun _ ↦ rfl, .inl rfl, .inl (hawake (by simp))⟩

/-- A statement of a worker does not raise the count, and puts nobody to sleep while there is
something in the queue. If it lowers the count the worker is about to signal. -/
theorem workerStep_sleepers (h : s.Inv bufferlen queue)
    (hstep : s.workerStep bufferlen w = .ok s') :
    s'.main = s.main ∧ (s'.monitor.asleep = s.monitor.asleep ∨ s'.count = 0 ∧
        s'.monitor.asleep none = s.monitor.asleep none) ∧
      ((∃ connfd, s'.worker w = .signal connfd) ∧ s'.count = s.count - 1 ∨ s'.count = s.count) ∧
      (∀ connfd, s.worker w ≠ .signal connfd) ∧ ∀ v ≠ w, s'.worker v = s.worker v := by
  have hguard := h.guard (some w)
  rw [place] at hguard
  rw [Server.workerStep] at hstep
  rcases hp : s.worker w with _ | _ | _ | _ | _ | _ | fd | fd | fd | fd | fd <;>
    rw [hp] at hguard <;> simp only [hp] at hstep
  case unborn => cases hstep
  case signal => cases hstep
  case lock =>
    split_ifs at hstep
    obtain rfl := Except.ok.inj hstep
    exact ⟨rfl, .inl rfl, .inr rfl, by simp, fun v hv ↦ Function.update_of_ne hv ..⟩
  case waiting =>
    split_ifs at hstep
    obtain rfl := Except.ok.inj hstep
    exact ⟨rfl, .inl rfl, .inr rfl, by simp, fun v hv ↦ Function.update_of_ne hv ..⟩
  case wait =>
    obtain rfl := Except.ok.inj hstep
    exact ⟨rfl, .inr ⟨hguard, Monitor.wait_asleep_of_ne _ _ (Option.some_ne_none w).symm⟩, .inr rfl,
      by simp, fun v hv ↦ Function.update_of_ne hv ..⟩
  case dec =>
    obtain rfl := Except.ok.inj hstep
    exact ⟨rfl, .inl rfl, .inl ⟨⟨fd, Function.update_self ..⟩, rfl⟩, by simp,
      fun v hv ↦ Function.update_of_ne hv ..⟩
  all_goals
    obtain rfl := Except.ok.inj hstep
    exact ⟨rfl, .inl rfl, .inr rfl, by simp, fun v hv ↦ Function.update_of_ne hv ..⟩

/-! ### Nobody sleeps through -/

theorem Wakeful.mainStep (hw : s.Wakeful bufferlen) (h : s.Inv bufferlen queue)
    (hstep : s.mainStep bufferlen = .ok s') : s'.Wakeful bufferlen := by
  obtain ⟨hmain, hasleep, hcount, hawake⟩ := mainStep_sleepers h hstep
  constructor
  · intro hne hpos
    rw [hcount.resolve_right hne] at hpos
    obtain ⟨w, hw⟩ := hw.fill hmain hpos
    exact ⟨w, hasleep w ▸ hw⟩
  · intro hsleeps hroom
    rcases hawake with hawake | hfull
    · rw [hawake] at hsleeps
      cases hsleeps
    · exact absurd hfull hroom.ne

theorem Wakeful.workerStep (hw : s.Wakeful bufferlen) (h : s.Inv bufferlen queue)
    (hstep : s.workerStep bufferlen w = .ok s') : s'.Wakeful bufferlen := by
  obtain ⟨hmain, hasleep, hcount, hnot, hothers⟩ := workerStep_sleepers h hstep
  constructor
  · intro hne hpos
    rcases hasleep with hasleep | ⟨hzero, -⟩
    · rw [hmain] at hne
      rw [hasleep]
      exact hw.fill hne (by omega)
    · omega
  · intro hsleeps hroom
    rcases hcount with ⟨⟨connfd, hsignal⟩, -⟩ | hcount
    · exact ⟨w, connfd, hsignal⟩
    · -- the worker that is about to signal is another one
      have hsleeps : s.monitor.asleep none = some .empty := by
        rcases hasleep with hasleep | ⟨-, hasleep⟩ <;> rw [← hasleep] <;> exact hsleeps
      obtain ⟨v, connfd, hv⟩ := hw.empty hsleeps (hcount ▸ hroom)
      have hne : v ≠ w := fun heq ↦ hnot connfd (heq ▸ hv)
      exact ⟨v, connfd, (hothers v hne).trans hv⟩

/-- Waking threads wakes. -/
theorem Wakeful.wake (hw : s.Wakeful bufferlen) {woken : List (Thread n)}
    (hmonitor : s'.monitor = s.monitor.wake woken) (hcount : s'.count = s.count)
    (hmain : s'.main = s.main) (hworker : s'.worker = s.worker) : s'.Wakeful bufferlen := by
  constructor
  · rw [hmain, hcount]
    intro hne hpos
    obtain ⟨w, hw⟩ := hw.fill hne hpos
    exact ⟨w, fun hasleep ↦ hw (Monitor.asleep_of_wake (hmonitor ▸ hasleep))⟩
  · rw [hcount, hworker]
    intro hsleeps hroom
    exact hw.empty (Monitor.asleep_of_wake (hmonitor ▸ hsleeps)) hroom

theorem Wakeful.signalStep (hn : 0 < n) (hw : s.Wakeful bufferlen) (h : s.Inv bufferlen queue)
    {woken : List (Thread n)} (hstep : s.signalStep t woken = .ok s') :
    s'.Wakeful bufferlen := by
  cases t with
  | none =>
    rw [Server.signalStep] at hstep
    split_ifs at hstep with hsignal
    obtain rfl := Except.ok.inj hstep
    constructor
    · intro _ _
      obtain ⟨_, ⟨w, rfl⟩, hw⟩ := hsignal.2.exists_awake (fun _ ↦ h.eq_worker_of_asleep)
        ⟨_, ⟨0, hn⟩, rfl⟩
      exact ⟨w, hw⟩
    · intro hsleeps
      have hawake := h.main_awake (by simp [hsignal.1])
      rw [Monitor.asleep_of_wake hsleeps] at hawake
      cases hawake
  | some w =>
    rw [Server.signalStep] at hstep
    split at hstep
    next connfd hp =>
      split_ifs at hstep with hsignal
      obtain rfl := Except.ok.inj hstep
      constructor
      · intro hne hpos
        obtain ⟨v, hv⟩ := hw.fill hne hpos
        exact ⟨v, fun hasleep ↦ hv (Monitor.asleep_of_wake hasleep)⟩
      · intro hsleeps
        have hgroup : ∀ t, s.monitor.asleep t = some .empty → t ∈ ({none} : Set (Thread n)) :=
          fun _ ↦ h.eq_main_of_asleep
        obtain ⟨_, rfl, hawake⟩ := hsignal.exists_awake hgroup ⟨none, rfl⟩
        exact absurd hsleeps hawake
    next => cases hstep

/-- **Every step leaves someone awake.** -/
theorem Wakeful.step (hn : 0 < n) (hw : s.Wakeful bufferlen) (h : s.Inv bufferlen queue)
    {a : Act n} (hstep : s.step bufferlen a = .ok s') : s'.Wakeful bufferlen := by
  cases a with
  | main => exact hw.mainStep h hstep
  | worker w => exact hw.workerStep h hstep
  | signal t woken => exact hw.signalStep hn h hstep
  | accept connfd =>
    rw [Server.step] at hstep
    split_ifs at hstep with hp
    obtain rfl := Except.ok.inj hstep
    exact ⟨fun _ hpos ↦ hw.fill (by simp [hp]) hpos, hw.empty⟩
  | wakeup t =>
    obtain rfl := Except.ok.inj hstep
    exact hw.wake rfl rfl rfl rfl

theorem wakeful_of_starts (h : s.Starts) : s.Wakeful bufferlen := by
  obtain ⟨-, -, hcount, hmonitor, -⟩ := h
  refine ⟨fun _ hpos ↦ ?_, fun hsleeps ↦ ?_⟩
  · omega
  · rw [hmonitor] at hsleeps
    cases hsleeps

theorem wakeful_of_reachable (hn : 0 < n) (hpos : 0 < bufferlen)
    (h : (system n bufferlen).Reachable s) : s.Wakeful bufferlen := by
  have hboth := h.invariant (I := fun s ↦ (∃ queue, s.Inv bufferlen queue) ∧ s.Wakeful bufferlen)
    (fun _ h ↦ ⟨⟨[], inv_of_starts hpos h⟩, wakeful_of_starts h⟩)
    fun _ _ _ ⟨⟨_, hinv⟩, hw⟩ hstep ↦ ⟨hinv.step hstep, hw.step hn hinv hstep⟩
  exact hboth.2

/-- **The server never gets stuck on its queue.** While the mutex is free, a descriptor in the queue
finds a worker that is not asleep, and room in the queue finds `main` not asleep. -/
theorem not_stuck_of_reachable (hn : 0 < n) (hpos : 0 < bufferlen)
    (h : (system n bufferlen).Reachable s) (hfree : s.monitor.owner = none) :
    ¬ (0 < s.count ∧ ∀ w, s.monitor.asleep (some w) = some .fill) ∧
      ¬ (s.count < bufferlen ∧ s.monitor.asleep none = some .empty) := by
  obtain ⟨queue, hinv⟩ := inv_of_reachable hpos h
  have hw := wakeful_of_reachable hn hpos h
  constructor
  · rintro ⟨hcount, hall⟩
    have hmain : s.main ≠ .signal := by
      intro hp
      have hout := hinv.obeys.not_inside hfree none
      rw [place, hp] at hout
      cases hout
    obtain ⟨w, hawake⟩ := hw.fill hmain hcount
    exact hawake (hall w)
  · rintro ⟨hroom, hsleeps⟩
    obtain ⟨w, connfd, hp⟩ := hw.empty hsleeps hroom
    have hout := hinv.obeys.not_inside hfree (some w)
    rw [place, hp] at hout
    cases hout

/-- After a first request that has woken the worker. -/
theorem firstRequest_not_stuck : ∃ s : Server 1, (s.monitor.owner = none ∧ s.count = 1) ∧
    ¬ (0 < s.count ∧ ∀ w, s.monitor.asleep (some w) = some .fill) ∧
      ¬ (s.count < (1 : ℕ) ∧ s.monitor.asleep none = some .empty) := by
  obtain ⟨s, hs, hfree⟩ := System.Reachable.exists_of_run (S := system 1 1)
    (f := Server.step 1) (fun _ _ _ h ↦ h) (l := firstRequest.take 13)
    (p := fun s ↦ decide (s.monitor.owner = none ∧ s.count = 1)) (.init fresh_starts) (by decide)
  have hfree := of_decide_eq_true hfree
  exact ⟨s, hfree, not_stuck_of_reachable Nat.one_pos Nat.one_pos hs hfree.1⟩

end Server

end ThreadPool
