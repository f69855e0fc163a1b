import Cs537OS.Mlfq.Watch

/-!
# How long processes wait

The boost loop adds a tick to the count of every entry at its level and raises it when the count
reaches `clkWait`. The count of a level is set back when the process is dispatched there, when it is
raised to the level and when the entry is given to a new process, but not when a process moves down
to the level; and it grows whatever the process does.

* `passed_over_lt` — in every run, no entry below level three has been passed over `clkWait` times
  since it was dispatched or changed its level: the count is never behind (`WithinWait`);
* `raised_after_waiting` — in every run in which no process below level three is anything but
  RUNNABLE when another one is dispatched, and no process moves down to a level with a count that is
  not zero, a process is raised only after it has been RUNNABLE at its level, and passed over, for
  `clkWait` dispatches in a row: the count is never ahead (`Earning`);
* `sleeper_raised` — without these conditions a process that sleeps is raised.
-/

open Xv6

namespace Mlfq

/-- For how many dispatches, the latest ones, entry `q` has been RUNNABLE at level `l` all the time
and was not dispatched itself. -/
def waited (q : Slot) (l : ℕ) : List Happening → ℕ
  | [] => 0
  | .seen t :: h => if (t q).state = .runnable ∧ (t q).priority = l then waited q l h else 0
  | .dispatched p t :: h =>
    if p ≠ q ∧ (t q).state = .runnable ∧ (t q).priority = l then waited q l h + 1 else 0

/-- How often entry `q`, which is at level `l`, has been passed over since it was dispatched itself
or came to this level. A new process comes to its first level from outside, so below level three
this is also since the entry was given to its process. -/
def passedOver (q : Slot) (l : ℕ) : List Happening → ℕ
  | [] => 0
  | .seen t :: h => if (t q).priority = l then passedOver q l h else 0
  | .dispatched p t :: h => if p ≠ q ∧ (t q).priority = l then passedOver q l h + 1 else 0

/-- Every process that a boost loop has raised had been RUNNABLE at its level for as many dispatches
as it has to wait, and none of them was its own. -/
def RaisesEarned (h : List Happening) : Prop :=
  ∀ newer p t older, h = newer ++ .dispatched p t :: older → ∀ q, (t q).state ≠ .unused →
    (t q).priority < (dispatch t p q).priority →
      clkWait (t q).priority ≤ waited q (t q).priority (.dispatched p t :: older)

/-- A step that dispatches a process finds all others below level three RUNNABLE. -/
def Machine.AllRunnable (m : Machine) (a : Action) : Prop :=
  ∀ d ∈ m.dispatchAhead a, ∀ q ≠ d.1, (d.2 q).state ≠ .unused → (d.2 q).priority < 3 →
    (d.2 q).state = .runnable

/-- The process that has used its quantum and whose slice ends with the step, and the table before
it moves down. -/
def Machine.endsSlice (m : Machine) (a : Action) : Option (Slot × Table) :=
  match m.sched with
  | .running p _ (some cou) =>
    (m.kernel.leftBy p a).bind fun k ↦
      if QuantumUsed k.ptable p ∧ ¬ SliceGoesOn (demote k.ptable p) p (cou + 1) then
        some (p, k.ptable)
      else
        none
  | _ => none

/-- It moves down to a level where it has not waited. -/
def Machine.NoLeftover (m : Machine) (a : Action) : Prop :=
  ∀ d ∈ m.endsSlice a, (d.2 d.1).waitTicks ((d.2 d.1).priority - 1) = 0

instance (m : Machine) (a : Action) : Decidable (m.AllRunnable a) :=
  inferInstanceAs (Decidable (∀ d ∈ m.dispatchAhead a, _))

instance (m : Machine) (a : Action) : Decidable (m.NoLeftover a) :=
  inferInstanceAs (Decidable (∀ d ∈ m.endsSlice a, _))

/-! ### The boost loop -/

theorem clkWait_pos {l : ℕ} (hl : l < 3) : 0 < clkWait l := by
  interval_cases l <;> decide

/-- The boost loop raises the entry. -/
def Proc.Due (a : Proc) : Prop :=
  a.priority < 3 ∧ clkWait a.priority ≤ a.waitTicks a.priority + 1

/-- An entry that is not due is counted, -/
theorem boost_of_not_due {a : Proc} (ha : ¬ a.Due) :
    boost a = { a with
      waitTicks := Function.update a.waitTicks a.priority (a.waitTicks a.priority + 1) } := by
  have hnot : ¬ (a.priority < 3 ∧
      Function.update a.waitTicks a.priority (a.waitTicks a.priority + 1) a.priority ≥
        clkWait a.priority) := by
    rwa [Function.update_self]
  rw [boost]
  dsimp only
  rw [if_neg hnot]

/-- and one that is due goes to the next level, with no count there. -/
theorem boost_of_due {a : Proc} (ha : a.Due) :
    (boost a).priority = a.priority + 1 ∧ (boost a).waitTicks =
      Function.update (Function.update a.waitTicks a.priority (a.waitTicks a.priority + 1))
        (a.priority + 1) 0 := by
  have hdue : a.priority < 3 ∧
      Function.update a.waitTicks a.priority (a.waitTicks a.priority + 1) a.priority ≥
        clkWait a.priority := by
    rwa [Function.update_self]
  rw [boost]
  dsimp only
  rw [if_pos hdue]
  exact ⟨rfl, rfl⟩

/-- An entry that has just started to wait is not due. -/
theorem not_due {a : Proc} (ha : a.waitTicks a.priority = -1) : ¬ a.Due := by
  rintro ⟨hlt, hwait⟩
  rw [ha] at hwait
  exact (clkWait_pos hlt).not_ge hwait

variable {t : Table} {h : List Happening} {p q : Slot} {a b : Proc}

/-- The count of the process that is dispatched starts again. -/
theorem dispatch_waitTicks_self (t : Table) (p : Slot) :
    (dispatch t p p).waitTicks = Function.update (t p).waitTicks (t p).priority 0 := by
  have hnot : ¬ Proc.Due { t p with
      waitTicks := Function.update (t p).waitTicks (t p).priority (-1) } :=
    not_due (Function.update_self _ _ _)
  rw [dispatch_self]
  dsimp only
  rw [boostedSelf, boost_of_not_due hnot]
  dsimp only
  rw [Function.update_self, Function.update_idem]
  rfl

/-! ### No entry is passed over for too long -/

/-- The count of the entry at its level is not behind the history, which is short of the waiting
time. -/
structure WithinWait (h : List Happening) (q : Slot) (a : Proc) : Prop where
  nonneg : ∀ l, 0 ≤ a.waitTicks l
  counted : a.priority < 3 → passedOver q a.priority h ≤ a.waitTicks a.priority
  short : a.priority < 3 → passedOver q a.priority h < clkWait a.priority

theorem WithinWait.of_eq (ha : WithinWait h q a) (hpriority : b.priority = a.priority)
    (hwait : b.waitTicks = a.waitTicks) : WithinWait h q b := by
  obtain ⟨hnonneg, hcounted, hshort⟩ := ha
  rw [← hwait] at hnonneg hcounted
  rw [← hpriority] at hcounted hshort
  exact ⟨hnonneg, hcounted, hshort⟩

/-- A call keeps the entry within its waiting time, or makes a new process. -/
theorem WithinWait.called (ha : WithinWait h q a) (hab : a.Called b) : WithinWait h q b := by
  cases hab with
  | kept hkept => exact ha.of_eq hkept.priority hkept.waitTicks
  | fresh hpriority hwait _ =>
    refine ⟨fun l ↦ ?_, fun hlt ↦ ?_, fun hlt ↦ ?_⟩
    · rw [hwait]
    · exact absurd hlt hpriority.not_lt
    · exact absurd hlt hpriority.not_lt

/-- A process that has just been dispatched may move down to a level with any count. -/
theorem WithinWait.demote (ha : WithinWait h p (t p)) (hp : ∀ l, passedOver p l h = 0) :
    WithinWait h p (demote t p p) := by
  rw [Mlfq.demote, Table.modify_self]
  refine ⟨ha.nonneg, fun _ ↦ ?_, fun hlt ↦ ?_⟩
  · rw [hp]
    exact ha.nonneg _
  · rw [hp]
    exact clkWait_pos hlt

theorem WithinWait.seen (ha : WithinWait h q (t q)) : WithinWait (.seen t :: h) q (t q) := by
  obtain ⟨hnonneg, hcounted, hshort⟩ := ha
  have hsame : passedOver q (t q).priority (.seen t :: h) = passedOver q (t q).priority h :=
    if_pos rfl
  rw [← hsame] at hcounted hshort
  exact ⟨hnonneg, hcounted, hshort⟩

/-- Nobody is passed over at a level that it has just left. -/
theorem passedOver_dispatched {l : ℕ} (hq : p = q ∨ (t q).priority ≠ l) :
    passedOver q l (.dispatched p t :: h) = 0 := by
  refine if_neg ?_
  rintro ⟨hne, hl⟩
  exact hq.elim hne fun hl' ↦ hl' hl

/-- A dispatch passes an entry over once more, and raises it in time. -/
theorem WithinWait.dispatched (ha : WithinWait h q (t q)) :
    WithinWait (.dispatched p t :: h) q (dispatch t p q) := by
  rcases eq_or_ne q p with rfl | hne
  -- its own dispatch: nothing has passed it over
  · have hzero : ∀ l, passedOver q l (.dispatched q t :: h) = 0 :=
      fun l ↦ passedOver_dispatched (.inl rfl)
    have hnonneg : ∀ l, 0 ≤ (dispatch t q q).waitTicks l := by
      intro l
      rw [dispatch_waitTicks_self]
      rcases eq_or_ne l (t q).priority with rfl | hl
      · rw [Function.update_self]
      · rw [Function.update_of_ne hl]
        exact ha.nonneg l
    refine ⟨hnonneg, fun _ ↦ ?_, fun hlt ↦ ?_⟩
    · rw [hzero]
      exact hnonneg _
    · rw [hzero]
      exact clkWait_pos hlt
  · rw [dispatch_of_ne hne]
    by_cases hdue : (t q).Due
    -- it comes to a level where it has not been passed over yet
    · obtain ⟨hpriority, hwait⟩ := boost_of_due hdue
      have hzero : passedOver q ((t q).priority + 1) (.dispatched p t :: h) = 0 :=
        passedOver_dispatched (.inr (Nat.ne_of_lt (Nat.lt_succ_self _)))
      refine ⟨fun l ↦ ?_, fun _ ↦ ?_, fun hlt ↦ ?_⟩
      · rw [hwait]
        rcases eq_or_ne l ((t q).priority + 1) with rfl | hl
        · rw [Function.update_self]
        · rw [Function.update_of_ne hl]
          rcases eq_or_ne l (t q).priority with rfl | hl'
          · rw [Function.update_self]
            exact Int.add_nonneg (ha.nonneg _) Int.one_nonneg
          · rw [Function.update_of_ne hl']
            exact ha.nonneg l
      · rw [hwait, hpriority, hzero, Function.update_self]
        exact le_rfl
      · rw [hpriority] at hlt ⊢
        rw [hzero]
        exact clkWait_pos hlt
    -- passed over once more, and not due: short of the waiting time
    · have hcount : passedOver q (t q).priority (.dispatched p t :: h) =
          passedOver q (t q).priority h + 1 := if_pos ⟨hne.symm, rfl⟩
      rw [boost_of_not_due hdue]
      have hstep : (t q).priority < 3 → (passedOver q (t q).priority (.dispatched p t :: h) : ℤ) ≤
          (t q).waitTicks (t q).priority + 1 := by
        intro hlt
        rw [hcount, Nat.cast_succ]
        exact Int.add_le_add_right (ha.counted hlt) 1
      refine ⟨fun l ↦ ?_, fun hlt ↦ ?_, fun hlt ↦ ?_⟩
      · dsimp only
        rcases eq_or_ne l (t q).priority with rfl | hl
        · rw [Function.update_self]
          exact Int.add_nonneg (ha.nonneg _) Int.one_nonneg
        · rw [Function.update_of_ne hl]
          exact ha.nonneg l
      · dsimp only
        rw [Function.update_self]
        exact hstep hlt
      · exact (hstep hlt).trans_lt (not_le.1 fun hle ↦ hdue ⟨hlt, hle⟩)

/-- What holds between two steps. -/
structure InTime (w : Watched) : Prop where
  entry : ∀ q, WithinWait w.history q (w.machine.kernel.ptable q)
  /-- The process that runs has been dispatched last. -/
  running : ∀ p maxPri cou, w.machine.sched = .running p maxPri cou →
    ∀ l, passedOver p l w.history = 0

/-- In every run, of whatever steps, no entry waits for too long. -/
theorem inTime_of_reachable {P : Watched → Action → Prop} {w : Watched}
    (hw : (watched.restrict P).Reachable w) : InTime w := by
  refine Watched.invariant_of_course (I := InTime) ⟨fun q ↦ ?_, fun _ _ _ _ _ ↦ rfl⟩
    (fun w a w' _ hI _ hcourse hhistory ↦ ?_) hw
  · have hzero : WithinWait [] q zeroProc :=
      ⟨fun _ ↦ le_rfl, fun _ ↦ le_rfl, fun hlt ↦ clkWait_pos hlt⟩
    have halloc := hzero.called (Kernel.allocproc_called (k := Kernel.zeroed) true q)
    have hboot := Kernel.setState_kept (k := (Kernel.zeroed.allocproc true).2) (p := initproc)
      (by decide) .runnable q
    exact halloc.of_eq hboot.priority hboot.waitTicks
  · have hends := hcourse.ends hI.entry (fun q b c hb ↦ hb.called)
      (fun q b ticks hb ↦ hb.of_eq rfl rfl)
      fun p maxPri cou k hsched _ _ hk ↦ hk.demote (hI.running p maxPri _ hsched)
    rw [Machine.happening] at hhistory
    generalize w.machine.dispatchAhead a = d at hends hhistory
    cases hends with
    | quiet hsched hentry =>
      refine ⟨fun q ↦ ?_, fun p maxPri cou hrun l ↦ ?_⟩
      · rw [hhistory]
        exact (hentry q).seen
      · -- still the process that was dispatched last
        have hzero : passedOver p l w.history = 0 := by
          rcases hsched with hsame | hidle
          · exact hI.running p maxPri cou (hsame ▸ hrun) l
          · cases hidle.symm.trans hrun
        rw [hhistory, passedOver, hzero, ite_self]
    | @dispatch _ u p maxPri cou _ htable hsched hentry =>
      refine ⟨fun q ↦ ?_, fun p' maxPri' cou' hrun l ↦ ?_⟩
      · rw [hhistory, htable]
        exact (hentry q).dispatched
      · cases hsched.symm.trans hrun
        rw [hhistory]
        exact passedOver_dispatched (.inl rfl)

/-- **Nobody is passed over for too long.** In every run, every entry below level three has been
passed over fewer than `clkWait` times since its last own dispatch and its last change of level. -/
theorem passed_over_lt {w : Watched} (hw : watched.Reachable w) (q : Slot) {l : ℕ}
    (hl : (w.machine.kernel.ptable q).priority = l) (hlt : l < 3) :
    passedOver q l w.history < clkWait l := by
  have htime := inTime_of_reachable (P := fun _ _ ↦ True) (hw.restrict fun _ _ _ _ ↦ trivial)
  subst hl
  exact (htime.entry q).short hlt

/-- The child waits at level two, and has been passed over by the first process. -/
theorem twoProcesses_passed_over :
    ∃ w : Watched, 0 < passedOver child 2 w.history ∧ passedOver child 2 w.history < clkWait 2 := by
  obtain ⟨w, hw, hcheck⟩ := System.Reachable.exists_of_run (S := watched) (f := Watched.step)
    (p := fun w ↦ decide ((w.machine.kernel.ptable child).priority = 2 ∧
      0 < passedOver child 2 w.history))
    (fun _ _ _ hstep ↦ hstep) (l := twoProcesses) (.init rfl) (by decide +kernel)
  obtain ⟨hlevel, hpassed⟩ := of_decide_eq_true hcheck
  exact ⟨w, hpassed, passed_over_lt hw child hlevel (by decide)⟩

/-! ### Raises are earned -/

/-- The count of a process at its level is not ahead of the history, and a process that is not
RUNNABLE has none. -/
structure Earning (h : List Happening) (q : Slot) (a : Proc) : Prop where
  counted : a.state ≠ .unused → a.priority < 3 → a.waitTicks a.priority ≤ waited q a.priority h
  still : a.state ≠ .unused → a.priority < 3 → a.state ≠ .runnable → a.waitTicks a.priority ≤ 0

/-- A call that keeps the entry and does not stop it leaves its count earned, -/
theorem Earning.kept (ha : Earning h q a) (hab : a.Kept b) (hsteady : a.Steady b) :
    Earning h q b := by
  refine ⟨fun hb hlt ↦ ?_, fun hb hlt hstill ↦ ?_⟩
  · rw [hab.priority] at hlt
    rw [hab.priority, hab.waitTicks]
    exact ha.counted (hab.same hb).2 hlt
  · rw [hab.priority] at hlt
    rw [hab.priority, hab.waitTicks]
    exact ha.still (hab.same hb).2 hlt fun ha' ↦ hstill (hsteady.runnable ha')

/-- and a new process has no count. -/
theorem Earning.called (ha : Earning h q a) (hab : a.Called b) : Earning h q b := by
  cases hab with
  | kept hkept hsteady => exact ha.kept hkept hsteady
  | fresh hpriority _ _ =>
    exact ⟨fun _ hlt ↦ absurd hlt hpriority.not_lt, fun _ hlt ↦ absurd hlt hpriority.not_lt⟩

/-- A count of zero is earned by any history. -/
theorem Earning.of_zero (ha : a.waitTicks a.priority = 0) : Earning h q a := by
  refine ⟨fun _ _ ↦ ?_, fun _ _ _ ↦ ?_⟩ <;> rw [ha]
  exact Int.natCast_nonneg _

theorem Earning.seen (ha : Earning h q (t q)) : Earning (.seen t :: h) q (t q) := by
  refine ⟨fun hinuse hlt ↦ ?_, ha.still⟩
  by_cases hrun : (t q).state = .runnable
  · rw [waited, if_pos ⟨hrun, rfl⟩]
    exact ha.counted hinuse hlt
  · exact (ha.still hinuse hlt hrun).trans (Int.natCast_nonneg _)

/-- A process that waits for another dispatch. -/
theorem waited_dispatched (hne : p ≠ q) (hrun : (t q).state = .runnable) :
    waited q (t q).priority (.dispatched p t :: h) = waited q (t q).priority h + 1 :=
  if_pos ⟨hne, hrun, rfl⟩

/-- A dispatch of another process counts a RUNNABLE one, which has waited for it. -/
theorem Earning.dispatched (hne : q ≠ p) (ha : Earning h q (t q))
    (hrun : (t q).state ≠ .unused → (t q).priority < 3 → (t q).state = .runnable) :
    Earning (.dispatched p t :: h) q (dispatch t p q) := by
  rw [dispatch_of_ne hne]
  by_cases hdue : (t q).Due
  · obtain ⟨hpriority, hwait⟩ := boost_of_due hdue
    refine .of_zero ?_
    rw [hwait, hpriority, Function.update_self]
  · rw [boost_of_not_due hdue]
    refine ⟨fun hinuse hlt ↦ ?_, fun hinuse hlt hstill ↦ ?_⟩
    · dsimp only
      rw [Function.update_self, waited_dispatched hne.symm (hrun hinuse hlt), Nat.cast_succ]
      exact Int.add_le_add_right (ha.counted hinuse hlt) 1
    · exact absurd (hrun hinuse hlt) hstill

theorem RaisesEarned.nil : RaisesEarned [] := by
  intro newer p t older heq
  cases newer <;> cases heq

theorem RaisesEarned.seen (hh : RaisesEarned h) : RaisesEarned (.seen t :: h) := by
  intro newer p t' older heq
  cases newer with
  | nil => cases heq
  | cons e newer => exact hh newer p t' older (List.cons.inj heq).2

theorem RaisesEarned.dispatched (hh : RaisesEarned h)
    (hp : ∀ q, (t q).state ≠ .unused → (t q).priority < (dispatch t p q).priority →
      clkWait (t q).priority ≤ waited q (t q).priority (.dispatched p t :: h)) :
    RaisesEarned (.dispatched p t :: h) := by
  intro newer p' t' older heq
  cases newer with
  | nil =>
    cases heq
    exact hp
  | cons e newer => exact hh newer p' t' older (List.cons.inj heq).2

/-- A process that the boost loop raises has waited for it. -/
theorem Earning.raised (hne : q ≠ p) (ha : Earning h q (t q)) (hinuse : (t q).state ≠ .unused)
    (hrun : (t q).priority < 3 → (t q).state = .runnable)
    (hraised : (t q).priority < (dispatch t p q).priority) :
    clkWait (t q).priority ≤ waited q (t q).priority (.dispatched p t :: h) := by
  have hdue : (t q).Due := by
    by_contra hnot
    rw [dispatch_of_ne hne, boost_of_not_due hnot] at hraised
    exact lt_irrefl _ hraised
  obtain ⟨hlt, hwait⟩ := hdue
  rw [waited_dispatched hne.symm (hrun hlt), Nat.cast_succ]
  exact hwait.trans (Int.add_le_add_right (ha.counted hinuse hlt) 1)

/-- Process `q` has used its quantum and its slice goes on. -/
def Machine.GoesOn (m : Machine) (a : Action) (q : Slot) : Prop :=
  ∃ maxPri cou k, m.sched = .running q maxPri (some cou) ∧ m.kernel.leftBy q a = some k ∧
    QuantumUsed k.ptable q ∧ SliceGoesOn (demote k.ptable q) q (cou + 1)

/-- A process that goes on in its slice is the one that is dispatched. -/
theorem Machine.GoesOn.dispatchAhead {m : Machine} {a : Action} (hq : m.GoesOn a q) :
    ∃ u, m.dispatchAhead a = some (q, u) := by
  obtain ⟨maxPri, cou, k, hsched, hleft, hused, hgo⟩ := hq
  refine ⟨demote k.ptable q, ?_⟩
  unfold Machine.dispatchAhead
  rw [hsched]
  dsimp only
  rw [hleft, Option.bind_some, resumeDispatch, comeBack, if_pos hused, if_pos hgo]

/-- What holds between two steps. -/
structure AllEarning (w : Watched) : Prop where
  entry : ∀ q, Earning w.history q (w.machine.kernel.ptable q)
  history : RaisesEarned w.history

/-- Before the end of a step, or its dispatch, every count is earned but that of a process that has
moved down and goes on. -/
theorem AllEarning.ends {w w' : Watched} {a : Action} (hI : AllEarning w)
    (hleftover : w.machine.NoLeftover a) (hcourse : w.machine.Course a w'.machine) :
    w.machine.Ends (fun q b ↦ Earning w.history q b ∨ w.machine.GoesOn a q)
      (w.machine.dispatchAhead a) w'.machine := by
  refine hcourse.ends (fun q ↦ .inl (hI.entry q)) (fun q b c hb hbc ↦ hb.imp_left fun hb ↦ ?_)
    (fun q b ticks hb ↦ hb.imp_left fun hb ↦ ⟨hb.counted, hb.still⟩)
    fun p maxPri cou k hsched hleft hused _ ↦ ?_
  · exact hb.called hbc
  · by_cases hgo : SliceGoesOn (demote k.ptable p) p (cou + 1)
    · exact .inr ⟨maxPri, cou, k, hsched, hleft, hused, hgo⟩
    · left
      have hends : (p, k.ptable) ∈ w.machine.endsSlice a := by
        rw [Machine.endsSlice]
        rw [hsched]
        dsimp only
        rw [hleft, Option.bind_some, if_pos ⟨hused, hgo⟩]
        rfl
      rw [demote, Table.modify_self]
      exact .of_zero (hleftover _ hends)

/-- In every run that meets the condition all counts are earned. -/
theorem allEarning_of_reachable {w : Watched}
    (hw : (watched.restrict fun w a ↦
      w.machine.AllRunnable a ∧ w.machine.NoLeftover a).Reachable w) : AllEarning w := by
  refine Watched.invariant_of_course (I := AllEarning) ⟨fun q ↦ ?_, .nil⟩
    (fun w a w' _ hI ⟨hrunnable, hleftover⟩ hcourse hhistory ↦ ?_) hw
  · have hzero : Earning [] q zeroProc := .of_zero rfl
    have halloc := hzero.called (Kernel.allocproc_called (k := Kernel.zeroed) true q)
    have hinit : ((Kernel.zeroed.allocproc true).2.ptable initproc).state ≠ .unused := by decide
    have hembryo : ((Kernel.zeroed.allocproc true).2.ptable initproc).state ≠ .runnable := by
      decide
    exact halloc.kept (Kernel.setState_kept hinit _ q)
      (Kernel.setState_steady hembryo (by decide) q)
  · have hends := hI.ends hleftover hcourse
    rw [Machine.happening] at hhistory
    generalize hd : w.machine.dispatchAhead a = d at hends hhistory
    cases hends with
    | quiet _ hentry =>
      refine ⟨fun q ↦ ?_, ?_⟩ <;> rw [hhistory]
      · have hq := (hentry q).resolve_right fun hgo ↦ ?_
        · exact hq.seen
        · obtain ⟨u, hu⟩ := hgo.dispatchAhead
          cases hd.symm.trans hu
      · exact hI.history.seen
    | @dispatch _ u p maxPri cou _ htable _ hentry =>
      -- a process that goes on in its slice is the one dispatched, so the counts of the others are
      -- earned
      have hrun := hrunnable (p, u) hd
      have hearning : ∀ q ≠ p, Earning w.history q (u q) := by
        intro q hne
        refine (hentry q).resolve_right fun hgo ↦ ?_
        obtain ⟨v, hv⟩ := hgo.dispatchAhead
        cases hd.symm.trans hv
        exact hne rfl
      refine ⟨fun q ↦ ?_, ?_⟩ <;> rw [hhistory]
      · rw [htable]
        rcases eq_or_ne q p with rfl | hne
        · refine .of_zero ?_
          rw [dispatch_waitTicks_self, dispatch_priority_self, Function.update_self]
        · exact (hearning q hne).dispatched hne (hrun q hne)
      · refine hI.history.dispatched fun q hinuse hraised ↦ ?_
        have hne : q ≠ p := by
          rintro rfl
          rw [dispatch_priority_self] at hraised
          exact lt_irrefl _ hraised
        exact (hearning q hne).raised hne hinuse (hrun q hne hinuse) hraised

/-- **Raises after real waiting.** In every run whose dispatches find all other processes below
level three RUNNABLE, and in which no process moves down to a level with a count that is not zero, a
process is raised from its level only when it has been RUNNABLE there, and passed over, for the last
`clkWait` dispatches. -/
theorem raised_after_waiting {w : Watched}
    (hw : (watched.restrict fun w a ↦
      w.machine.AllRunnable a ∧ w.machine.NoLeftover a).Reachable w) : RaisesEarned w.history :=
  (allEarning_of_reachable hw).history

/-- The latest step has raised the first process from level two. -/
def initRaised : List Happening → Bool
  | .dispatched p t :: _ =>
    (t initproc).priority = 2 ∧ (dispatch t p initproc).priority = 3
  | _ => false

/-- The first process makes ten children and uses its quantum, and after it each of them does. -/
def tenChildren : List Action :=
  .schedule :: (List.replicate 10 [.fork true, .forkCopy true, .forkReturn]).flatten ++
    List.replicate 175 .yield

/-- The first process has waited for 160 dispatches when it is raised. -/
theorem tenChildren_raised_after_waiting :
    ∃ w : Watched, initRaised w.history = true ∧ RaisesEarned w.history := by
  obtain ⟨w, hw, hraised⟩ := System.Reachable.exists_of_run (l := tenChildren)
    (p := fun w ↦ initRaised w.history)
    (System.next_of_checked (S := watched)
      (P := fun w a ↦ w.machine.AllRunnable a ∧ w.machine.NoLeftover a) (f := Watched.step)
      (e := .blocked) fun _ _ _ hstep ↦ hstep) (.init rfl) (by decide +kernel)
  exact ⟨w, hraised, raised_after_waiting hw⟩

/-- The latest step has raised the child without its waiting. -/
def childFavoured : List Happening → Bool
  | .dispatched p t :: h =>
    (t child).state ≠ .unused ∧ (t child).priority < (dispatch t p child).priority ∧
      waited child (t child).priority (.dispatched p t :: h) < clkWait (t child).priority
  | _ => false

/-- The first process makes a child, which uses its first quantum and sleeps, and keeps the
processor for as long as the child would have to wait at level two. -/
def sleepingChild : List Action :=
  [.schedule, .fork true, .forkCopy true, .forkReturn, .sleep 7] ++ List.replicate 8 .yield ++
    [.sleep 8, .wakeup (.addr 7), .schedule] ++ List.replicate 15 .yield ++ [.schedule] ++
    List.replicate 24 .yield ++ [.schedule] ++ List.replicate 120 .yield

/-- **A process that sleeps is raised.** -/
theorem sleeper_raised : ¬ ∀ w, watched.Reachable w → RaisesEarned w.history := by
  intro hall
  obtain ⟨w, hw, hcheck⟩ := System.Reachable.exists_of_run (S := watched) (f := Watched.step)
    (p := fun w ↦ childFavoured w.history) (fun _ _ _ hstep ↦ hstep) (l := sleepingChild)
    (.init rfl) (by decide +kernel)
  have hearned := hall w hw
  generalize w.history = h at hcheck hearned
  cases h with
  | nil => cases hcheck
  | cons e older =>
    cases e with
    | seen t => cases hcheck
    | dispatched p t =>
      obtain ⟨hinuse, hraised, hshort⟩ := of_decide_eq_true hcheck
      exact (hearned [] p t older rfl child hinuse hraised).not_gt hshort

end Mlfq
