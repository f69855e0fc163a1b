import Cs537OS.Threads.CondQueue

/-!
# Who has the lock across cond_wait

One lock that is used with any number of condition variables. `cond_wait` clears the word of the
lock inside the kernel, for the thread that called it, and takes the lock again with an exchange
before it returns. `cond_signal` does not look at the lock.

A thread is *inside* from its return from `lock_acquire` or `cond_wait` until it calls
`lock_release` or `cond_wait`. The exchange that takes the lock is the last step of both calls and
the return is counted with it.

* `inside_unique_of_reachable` — at most one thread is inside, and nobody returns from `cond_wait`
  while one is, when `lock_release` is called only by the thread that was the last to return, and
  `cond_wait` only by one that is inside;
* `lateWait_overlaps` — to have been the last to return is not enough for `cond_wait`: a thread that
  has released the lock since gives away the lock that another one has taken.
-/

open GuardedLoop (bind_eq_ok_iff)
open Xv6

namespace Threads

namespace CondVar

namespace Place

/-- In `cond_wait`, before the lock is given up. -/
def keepsLock : Place → Bool
  | .waitLock | .waitCount | .waitFlag | .waitQueue | .waitTail | .waitInc | .waitAcquire
  | .waitFree | .waitUnlock => true
  | _ => false

end Place

/-- The machine with condition variables `γ`, and who has returned from the calls that take the
lock. -/
structure Shared (γ : Type) where
  /-- With the condition variable of the step before. -/
  machine : Machine
  conds : γ → Cond
  /-- The condition variable of the call that a process is in. -/
  condvar : Slot → γ
  /-- The last one to return from `lock_acquire` or `cond_wait`. -/
  last : Option Slot
  /-- Who has returned from `lock_acquire` or `cond_wait` and has called neither `lock_release` nor
  `cond_wait` since. -/
  inside : Slot → Bool

namespace Shared

variable {γ : Type}

/-- The process that returns from `lock_acquire` or `cond_wait` in the step. -/
def returns (s : Shared γ) : Act → Option Slot
  | .lockAcquire p => some p
  | .advance p => if s.machine.place p = .waitRelock then some p else none
  | _ => none

/-- The process that calls `lock_release` or `cond_wait`. -/
def leaves : Act → Option Slot
  | .lockRelease p => some p
  | .condWait p => some p
  | _ => none

/-- The condition variable of a step; `c` is the argument of a call. -/
def condOf (s : Shared γ) (c : γ) : Act → γ
  | .advance p => s.condvar p
  | _ => c

/-- The condition variables of the calls after a step. -/
def condvarAfter (s : Shared γ) (c : γ) : Act → Slot → γ
  | .condWait p => Function.update s.condvar p c
  | .condSignal p => Function.update s.condvar p c
  | _ => s.condvar

/-- Who is inside after a step. -/
def insideAfter (s : Shared γ) (a : Act) (p : Slot) : Bool :=
  if s.returns a = some p then true else if leaves a = some p then false else s.inside p

/-- The machine with condition variable `c`. -/
def onCond (s : Shared γ) (c : γ) : Machine := { s.machine with cond := s.conds c }

/-- One step. -/
def step [DecidableEq γ] (s : Shared γ) : γ × Act → Except Fault (Shared γ)
  | (c, a) => do
    let m ← (s.onCond (s.condOf c a)).step a
    .ok
      { machine := m
        conds := Function.update s.conds (s.condOf c a) m.cond
        condvar := s.condvarAfter c a
        last := (s.returns a).or s.last
        inside := s.insideAfter a }

/-- The runs from boot, when `cond_init` and `lock_init` have been called. -/
def system (γ : Type) [DecidableEq γ] : System (Shared γ) (γ × Act) where
  init s := (∃ d c, d ≠ 0 ∧ s.machine = .boot d c) ∧ (∀ c, ∃ x : Cond, s.conds c = x.init) ∧
    s.last = none ∧ ∀ p, s.inside p = false
  next s a s' := s.step a = .ok s'

/-- `lock_release` and `cond_wait` are called only by the last one to return from `lock_acquire` or
`cond_wait`. -/
def ByLast (s : Shared γ) : γ × Act → Prop
  | (_, a) => ∀ p, leaves a = some p → s.last = some p

/-- `lock_release` is called only by the last one to return, and `cond_wait` only by who is
inside. -/
def ByOwner (s : Shared γ) : γ × Act → Prop
  | (_, .lockRelease p) => s.last = some p
  | (_, .condWait p) => s.inside p = true
  | _ => True

/-- At most one thread is inside, and nobody returns from `cond_wait` when one is. -/
structure Exclusive [DecidableEq γ] (s : Shared γ) : Prop where
  unique : ∀ p q, s.inside p = true → s.inside q = true → p = q
  returns : ∀ c p s', s.machine.place p = .waitRelock → s.step (c, .advance p) = .ok s' →
    ∀ q, s.inside q = false

end Shared

open Machine Shared

variable {γ : Type} {s s' : Shared γ} {m m' : Machine} {a : Act} {c : γ} {p q : Slot}

/-! ### The word of the lock -/

/-- `cond_wait` gives the lock up, -/
theorem advance_waitUnlock (hp : m.place p = .waitUnlock) (h : m.advance p = .ok m') :
    m' = { m with lock := 0 }.goto p .waitState := by
  simp only [Machine.advance, hp] at h
  exact (Except.ok.inj h).symm

/-- and takes it again when it is free. -/
theorem advance_waitRelock (hp : m.place p = .waitRelock) (h : m.advance p = .ok m') :
    m.lock = 0 ∧ m' = { m with lock := 1 }.goto p .user := by
  simp only [Machine.advance, hp] at h
  split_ifs at h with hfree
  exact ⟨not_not.1 hfree, (Except.ok.inj h).symm⟩

/-- The other steps in the calls leave the lock alone. -/
theorem lock_of_advance (hunlock : m.place p ≠ .waitUnlock) (hrelock : m.place p ≠ .waitRelock)
    (h : m.advance p = .ok m') : m'.lock = m.lock := by
  rw [Machine.advance] at h
  cases hp : m.place p <;> simp only [hp, reduceCtorEq] at h
  case waitUnlock => exact absurd hp hunlock
  case waitRelock => exact absurd hp hrelock
  case signalState =>
    split at h <;> cases h
    rfl
  all_goals
    try split_ifs at h
    all_goals
      cases h
      rfl

/-! ### Who is inside -/

theorem insideAfter_leaves (hr : s.returns a ≠ some p) (hl : leaves a = some p) :
    s.insideAfter a p = false := by
  rw [insideAfter, if_neg hr, if_pos hl]

theorem insideAfter_of_ne (hr : s.returns a ≠ some p) (hl : leaves a ≠ some p) :
    s.insideAfter a p = s.inside p := by
  rw [insideAfter, if_neg hr, if_neg hl]

/-- Who is inside, or has not given up the lock in `cond_wait` yet, was the last one to return, and
the lock is taken. -/
structure Kept (s : Shared γ) : Prop where
  owner : ∀ p, s.inside p = true ∨ (s.machine.place p).keepsLock = true →
    s.last = some p ∧ s.machine.lock ≠ 0
  outside : ∀ p, (s.machine.place p).inWait = true → s.inside p = false

/-- While the lock is free nobody has it. -/
theorem Kept.nobody (h : Kept s) (hfree : s.machine.lock = 0) (p : Slot) :
    s.inside p = false ∧ (s.machine.place p).keepsLock = false := by
  have hno := fun hp ↦ (h.owner p hp).2 hfree
  obtain ⟨hin, hplace⟩ := not_or.1 hno
  exact ⟨Bool.not_eq_true _ ▸ hin, Bool.not_eq_true _ ▸ hplace⟩

/-- Only the last one to return can be inside. -/
theorem Kept.eq (h : Kept s) (hlast : s.last = some p)
    (hq : s.inside q = true ∨ (s.machine.place q).keepsLock = true) : q = p :=
  Option.some.inj ((h.owner q hq).1.symm.trans hlast)

/-- Nobody comes to keep the lock but by a call, -/
theorem Place.keepsLock_next {l l' : Place} (h : l' ∈ l.next) (hl' : l'.keepsLock = true) :
    l = .user ∨ l.keepsLock = true := by
  revert l'
  cases l <;> decide

/-- or to be in `cond_wait`. -/
theorem Place.inWait_next {l l' : Place} (h : l' ∈ l.next) (hl' : l'.inWait = true) :
    l = .user ∨ l.inWait = true := by
  revert l'
  cases l <;> decide

/-- A step of the machine, and what becomes of the rest. -/
theorem step_eq_ok [DecidableEq γ] (h : s.step (c, a) = .ok s') :
    ∃ m, (s.onCond (s.condOf c a)).step a = .ok m ∧ s'.machine = m ∧
      s'.last = (s.returns a).or s.last ∧ s'.inside = s.insideAfter a := by
  obtain ⟨m, hm, hok⟩ := bind_eq_ok_iff.1 h
  obtain rfl := Except.ok.inj hok
  exact ⟨m, hm, rfl, rfl, rfl⟩

/-- A step that neither returns from a call that takes the lock nor calls one that gives it up, and
that leaves the lock alone. -/
theorem Kept.aside (h : Kept s) (hr : s.returns a = none) (hl : leaves a = none)
    (hlast : s'.last = (s.returns a).or s.last) (hinside : s'.inside = s.insideAfter a)
    (hlock : s'.machine.lock = s.machine.lock)
    (hkeeps : ∀ q, (s'.machine.place q).keepsLock = true → (s.machine.place q).keepsLock = true)
    (hwaits : ∀ q, (s'.machine.place q).inWait = true → (s.machine.place q).inWait = true) :
    Kept s' := by
  have hsame : ∀ q, s'.inside q = s.inside q := fun q ↦ by
    rw [hinside]
    exact insideAfter_of_ne (by simp [hr]) (by simp [hl])
  refine ⟨fun q hq ↦ ?_, fun q hq ↦ (hsame q).trans (h.outside q (hwaits q hq))⟩
  rw [hsame q] at hq
  rw [hlast, hr, Option.none_or, hlock]
  exact h.owner q (hq.imp_right (hkeeps q))

/-- A thread takes the lock and returns. -/
theorem Kept.take (h : Kept s) (hfree : s.machine.lock = 0) (hr : s.returns a = some p)
    (hl : leaves a = none) (hlast : s'.last = (s.returns a).or s.last)
    (hinside : s'.inside = s.insideAfter a) (hlock : s'.machine.lock = 1)
    (hplace : s'.machine.place = Function.update s.machine.place p .user) : Kept s' := by
  have hothers : ∀ q, q ≠ p → s'.inside q = s.inside q := fun q hq ↦ by
    rw [hinside]
    exact insideAfter_of_ne (by rw [hr]; exact fun h ↦ hq (Option.some.inj h).symm)
      (by simp [hl])
  refine ⟨fun q hq ↦ ?_, fun q hq ↦ ?_⟩
  · rcases eq_or_ne q p with rfl | hne
    · rw [hlast, hr, hlock]
      exact ⟨rfl, one_ne_zero⟩
    · rw [hothers q hne, hplace, Function.update_of_ne hne] at hq
      exact absurd hfree (h.owner q hq).2
  · rcases eq_or_ne q p with rfl | hne
    · rw [hplace, Function.update_self] at hq
      cases hq
    · rw [hothers q hne]
      exact (h.nobody hfree q).1

/-- The thread that was the last to return clears the lock, and is not inside. -/
theorem Kept.clear (h : Kept s) (hwas : s.last = some p)
    (hothers : ∀ q, q ≠ p → s'.inside q = s.inside q ∧ s'.machine.place q = s.machine.place q)
    (hin : s'.inside p = false) (hp : (s'.machine.place p).keepsLock = false) : Kept s' := by
  have hno : ∀ q, q ≠ p → ¬ (s.inside q = true ∨ (s.machine.place q).keepsLock = true) :=
    fun q hne hq ↦ hne (h.eq hwas hq)
  refine ⟨fun q hq ↦ ?_, fun q hq ↦ ?_⟩
  · rcases eq_or_ne q p with rfl | hne
    · rw [hin, hp] at hq
      simp at hq
    · rw [(hothers q hne).1, (hothers q hne).2] at hq
      exact absurd hq (hno q hne)
  · rcases eq_or_ne q p with rfl | hne
    · exact hin
    · rw [(hothers q hne).1]
      exact Bool.eq_false_iff.2 fun hq ↦ hno q hne (.inl hq)

/-- A turn keeps the order of the lock. -/
theorem Kept.advance (h : Kept s) (hlast : s'.last = (s.returns (.advance p)).or s.last)
    (hinside : s'.inside = s.insideAfter (.advance p))
    (hadv : (s.onCond c).advance p = .ok s'.machine) : Kept s' := by
  have hturn := turn_of_advance hadv
  have huser := ne_user_of_advance hadv
  by_cases hrelock : (s.onCond c).place p = .waitRelock
  · have hr : s.returns (.advance p) = some p := if_pos hrelock
    obtain ⟨hfree, heq⟩ := advance_waitRelock hrelock hadv
    refine h.take hfree hr rfl hlast hinside ?_ ?_ <;> rw [heq] <;> rfl
  have hr : s.returns (.advance p) = none := if_neg hrelock
  by_cases hunlock : (s.onCond c).place p = .waitUnlock
  · have hkeeps : (s.machine.place p).keepsLock = true := congrArg Place.keepsLock hunlock
    have hsame : ∀ q, s'.inside q = s.inside q := fun q ↦ by
      rw [hinside]
      exact insideAfter_of_ne (by simp [hr]) (Option.some_ne_none q).symm
    refine h.clear (h.owner p (.inr hkeeps)).1 (fun q hne ↦ ⟨hsame q, ?_⟩) ?_ ?_
    · exact hturn.place_of_ne hne
    · rw [hsame p]
      exact h.outside p (congrArg Place.inWait hunlock)
    · rw [advance_waitUnlock hunlock hadv, goto_place_self]
      rfl
  · have hplace : ∀ q, s'.machine.place q = s.machine.place q ∨
        q = p ∧ s'.machine.place p ∈ (s.machine.place p).next := fun q ↦ by
      rcases eq_or_ne q p with rfl | hne
      · exact .inr ⟨rfl, hturn.next⟩
      · exact .inl (hturn.place_of_ne hne)
    refine h.aside hr rfl hlast hinside (lock_of_advance (m := s.onCond c) hunlock hrelock hadv)
      (fun q hq ↦ ?_) fun q hq ↦ ?_
    · rcases hplace q with heq | ⟨rfl, hnext⟩
      · rwa [← heq]
      · exact (Place.keepsLock_next hnext hq).resolve_left huser
    · rcases hplace q with heq | ⟨rfl, hnext⟩
      · rwa [← heq]
      · exact (Place.inWait_next hnext hq).resolve_left huser

/-- A thread that is inside calls `cond_wait`. -/
theorem Kept.enterWait (h : Kept s) (hin : s.inside p = true)
    (hlast : s'.last = s.last) (hinside : s'.inside = s.insideAfter (.condWait p))
    (hmachine : s'.machine.place = Function.update s.machine.place p .waitLock)
    (hlock : s'.machine.lock = s.machine.lock) : Kept s' := by
  have hself : s'.inside p = false := by
    rw [hinside]
    exact insideAfter_leaves (Option.some_ne_none p).symm rfl
  have hothers : ∀ q, q ≠ p → s'.inside q = s.inside q := fun q hne ↦ by
    rw [hinside]
    exact insideAfter_of_ne (Option.some_ne_none q).symm fun heq ↦ hne (Option.some.inj heq).symm
  refine ⟨fun q hq ↦ ?_, fun q hq ↦ ?_⟩
  · rw [hlast, hlock]
    rcases eq_or_ne q p with rfl | hne
    · exact h.owner q (.inl hin)
    · rw [hothers q hne, hmachine, Function.update_of_ne hne] at hq
      exact h.owner q hq
  · rcases eq_or_ne q p with rfl | hne
    · exact hself
    · rw [hmachine, Function.update_of_ne hne] at hq
      exact (hothers q hne).trans (h.outside q hq)

/-- **A step keeps the lock with its owner.** -/
theorem Kept.step [DecidableEq γ] (h : Kept s) (how : s.ByOwner (c, a))
    (hstep : s.step (c, a) = .ok s') : Kept s' := by
  obtain ⟨m, hm, rfl, hlast, hinside⟩ := step_eq_ok hstep
  cases a with
  | kernel a =>
    simp only [Machine.step] at hm
    split_ifs at hm
    obtain ⟨k, -, hok⟩ := bind_eq_ok_iff.1 hm
    refine h.aside rfl rfl hlast hinside ?_ (fun q ↦ ?_) fun q ↦ ?_ <;> rw [← Except.ok.inj hok]
    · rfl
    · exact id
    · exact id
  | lockAcquire p =>
    simp only [Machine.step] at hm
    split_ifs at hm with hc
    refine h.take hc.2.2 rfl rfl hlast hinside ?_ ?_ <;> rw [← Except.ok.inj hm]
    exact (Function.update_eq_self_iff.2 hc.2.1.symm).symm
  | lockRelease p =>
    simp only [Machine.step] at hm
    split_ifs at hm with hc
    refine h.clear how (fun q hne ↦ ⟨?_, ?_⟩) ?_ ?_
    · rw [hinside]
      exact insideAfter_of_ne (Option.some_ne_none q).symm fun heq ↦ hne (Option.some.inj heq).symm
    · rw [← Except.ok.inj hm]
      rfl
    · rw [hinside]
      exact insideAfter_leaves (Option.some_ne_none p).symm rfl
    · rw [← Except.ok.inj hm]
      exact congrArg Place.keepsLock hc.2
  | condWait p =>
    simp only [Machine.step] at hm
    split_ifs at hm with hc
    refine h.enterWait how hlast hinside ?_ ?_ <;> rw [← Except.ok.inj hm] <;> rfl
  | condSignal p =>
    simp only [Machine.step] at hm
    split_ifs at hm with hc
    have hplace : s'.machine.place = Function.update s.machine.place p .signalFlag := by
      rw [← Except.ok.inj hm]
      rfl
    refine h.aside rfl rfl hlast hinside ?_ (fun q hq ↦ ?_) fun q hq ↦ ?_
    · rw [← Except.ok.inj hm]
      rfl
    · rw [hplace] at hq
      rcases eq_or_ne q p with rfl | hne
      · rw [Function.update_self] at hq
        cases hq
      · rwa [Function.update_of_ne hne] at hq
    · rw [hplace] at hq
      rcases eq_or_ne q p with rfl | hne
      · rw [Function.update_self] at hq
        cases hq
      · rwa [Function.update_of_ne hne] at hq
  | advance p =>
    simp only [Machine.step] at hm
    split_ifs at hm
    exact h.advance (c := s.condvar p) hlast hinside hm

/-- Where it is kept at most one process is inside. -/
theorem Kept.exclusive [DecidableEq γ] (h : Kept s) : s.Exclusive := by
  refine ⟨fun p q hp hq ↦ h.eq (h.owner q (.inl hq)).1 (.inl hp), fun c p s' hp hstep q ↦ ?_⟩
  obtain ⟨m, hm, -⟩ := step_eq_ok hstep
  simp only [Machine.step] at hm
  split_ifs at hm
  exact (h.nobody (advance_waitRelock (m := s.onCond (s.condvar p)) hp hm).1 q).1

/-- **The lock has one owner across `cond_wait`.** -/
theorem inside_unique_of_reachable [DecidableEq γ]
    (h : ((Shared.system γ).restrict ByOwner).Reachable s) : s.Exclusive := by
  refine (h.invariant (I := Kept) ?_ ?_).exclusive
  · rintro s ⟨⟨d, c, -, hboot⟩, -, -, hin⟩
    refine ⟨fun p hp ↦ ?_, fun p _ ↦ hin p⟩
    rw [hin p, hboot] at hp
    rcases hp with hp | hp <;> cases hp
  · rintro s ⟨c, a⟩ s' hkept ⟨how, hstep⟩
    exact hkept.step how hstep

/-! ### A thread that waits without the lock -/

instance (s : Shared γ) : (a : γ × Act) → Decidable (s.ByOwner a)
  | (_, .kernel _) => inferInstanceAs (Decidable True)
  | (_, .lockAcquire _) => inferInstanceAs (Decidable True)
  | (_, .lockRelease _) => inferInstanceAs (Decidable (_ = _))
  | (_, .condWait _) => inferInstanceAs (Decidable (_ = _))
  | (_, .condSignal _) => inferInstanceAs (Decidable True)
  | (_, .advance _) => inferInstanceAs (Decidable True)

instance (s : Shared γ) : (a : γ × Act) → Decidable (s.ByLast a)
  | (_, a) => inferInstanceAs (Decidable (∀ p, leaves a = some p → s.last = some p))

/-- Boot with one condition variable. -/
def Shared.boot : Shared Unit where
  machine := .boot 1 freshCond
  conds _ := freshCond
  condvar _ := ()
  last := none
  inside _ := false

/-- Boot, with one condition variable. -/
theorem shared_boot : (Shared.system Unit).init .boot :=
  ⟨⟨1, freshCond, by decide, rfl⟩, fun _ ↦ ⟨freshCond, rfl⟩, rfl, fun _ ↦ rfl⟩

/-- The thread sleeps, the first process signals and releases the lock, and the thread comes
back. -/
def relockedWaiter : List Act :=
  sleepingWaiter ++ [.lockAcquire initproc, .condSignal initproc] ++
    List.replicate 7 (.advance initproc) ++ [.lockRelease initproc, .kernel (.dispatch thread),
      .advance thread, .advance thread]

/-- **The waiter comes back and is the only one inside.** -/
theorem relockedWaiter_exclusive : ∃ s, ((Shared.system Unit).restrict ByOwner).Reachable s ∧
    s.inside thread = true ∧ s.Exclusive := by
  obtain ⟨s, hreach, hin⟩ := System.Reachable.exists_of_run
    (S := (Shared.system Unit).restrict ByOwner)
    (f := System.checked ByOwner Shared.step .blocked) (p := fun s ↦ s.inside thread)
    (System.next_of_checked fun _ _ _ h ↦ h) (l := relockedWaiter.map (Prod.mk ()))
    (.init shared_boot) (by decide +kernel)
  exact ⟨s, hreach, hin, inside_unique_of_reachable hreach⟩

/-- Another thread that the first process clones. -/
def otherThread : Slot := ⟨2, two_lt_NPROC⟩

/-- A thread that has released the lock calls `cond_wait`, the first process takes the lock, and the
thread clears it. -/
def lateWait : List Act :=
  [.kernel (.dispatch initproc), .kernel (.clone initproc 4096),
    .kernel (.cloneCopy initproc), .kernel (.cloneReturn initproc true),
    .kernel (.clone initproc 8192), .kernel (.cloneCopy initproc),
    .kernel (.cloneReturn initproc true), .kernel (.dispatch thread),
    .kernel (.dispatch otherThread), .lockAcquire thread, .lockRelease thread, .condWait thread,
    .lockAcquire initproc] ++
    List.replicate 9 (.advance thread) ++ [.lockAcquire otherThread]

/-- **Two threads have the lock.** -/
theorem lateWait_overlaps :
    ¬ ∀ s, ((Shared.system Unit).restrict ByLast).Reachable s → s.Exclusive := by
  intro hall
  obtain ⟨s, hreach, hboth⟩ := System.Reachable.exists_of_run
    (S := (Shared.system Unit).restrict ByLast)
    (f := System.checked ByLast Shared.step .blocked)
    (p := fun s ↦ s.inside initproc && s.inside otherThread)
    (System.next_of_checked fun _ _ _ h ↦ h) (l := lateWait.map (Prod.mk ()))
    (.init shared_boot) (by decide +kernel)
  obtain ⟨hfirst, hother⟩ := Bool.and_eq_true_iff.1 hboth
  exact absurd ((hall s hreach).unique initproc otherThread hfirst hother) (by decide)

end CondVar

end Threads
