import Cs537OS.Mlfq.Bookkeeping

/-!
# At which level processes are dispatched

The scheduler looks for the highest level once, at the start of a pass, and keeps to it until the
pass is over. Processes that are woken, forked or raised in the meantime wait for the next pass,
whatever their level.

* `dispatch_priority` — in every run, a process that has not moved down since the pass came to it is
  dispatched at the highest level that was RUNNABLE when the pass started. So an entry that is
  RUNNABLE at a higher level has become so since;
* `forked_child_passed_over` — there can be such an entry: a process of level two that forks gets
  the processor back before its child of level three.

The proof follows the ledger: `LevelInv` ties the process that runs to the last scan, and each part
of the scheduler's code extends the ledger by dispatches of the right level.
-/

open Xv6

namespace Mlfq

/-! ### Reading the ledger -/

/-- The table at the start of the pass. -/
def lastScan : List Event → Option Table
  | [] => none
  | .scan t :: _ => some t
  | _ :: log => lastScan log

/-- The process that the pass has come to has not moved down since. -/
def Undemoted : List Event → Prop
  | .select _ :: _ => True
  | .dispatch _ _ :: log => Undemoted log
  | _ => False

/-- The entry above is one of level `highest`, or of one that has moved down. -/
def DispatchedHighest (log : List Event) (p : Slot) (t : Table) : Prop :=
  ∃ t₀, lastScan log = some t₀ ∧ (Undemoted log → (t p).priority = highest t₀)

/-- Every dispatch in the ledger is at the right level. -/
def LogOk : List Event → Prop
  | [] => True
  | .dispatch p t :: log => DispatchedHighest log p t ∧ LogOk log
  | _ :: log => LogOk log

theorem LogOk.of_append {later : List Event} {p : Slot} {t : Table} {log : List Event}
    (h : LogOk (later ++ .dispatch p t :: log)) : DispatchedHighest log p t := by
  induction later with
  | nil => exact h.1
  | cons e later ih =>
    cases e with
    | dispatch => exact ih h.2
    | _ => exact ih h

/-- `highest` is at least the level of every RUNNABLE entry. -/
theorem le_highest {t : Table} {q : Slot} (hq : (t q).state = .runnable) :
    (t q).priority ≤ highest t := by
  -- the maximum never falls, and is not below the level of an entry that has been seen
  have hfold : ∀ (l : List Slot) (m : ℕ), m ≤ l.foldl (fun maxPri p ↦
      if (t p).state = .runnable ∧ (t p).priority > maxPri then (t p).priority else maxPri) m ∧
        (q ∈ l → (t q).priority ≤ l.foldl (fun maxPri p ↦
          if (t p).state = .runnable ∧ (t p).priority > maxPri then (t p).priority
          else maxPri) m) := by
    intro l
    induction l with
    | nil => exact fun m ↦ ⟨le_rfl, fun hmem ↦ absurd hmem List.not_mem_nil⟩
    | cons p l ih =>
      intro m
      rw [List.foldl_cons]
      obtain ⟨hle, hmem⟩ := ih (if (t p).state = .runnable ∧ (t p).priority > m then
        (t p).priority else m)
      have hm : m ≤ if (t p).state = .runnable ∧ (t p).priority > m then (t p).priority else m := by
        split_ifs with hp
        · exact hp.2.le
        · exact le_rfl
      refine ⟨hm.trans hle, fun hq' ↦ ?_⟩
      rcases List.mem_cons.1 hq' with rfl | hq'
      · refine le_trans ?_ hle
        split_ifs with hp
        · exact le_rfl
        · exact not_lt.1 fun hlt ↦ hp ⟨hq, hlt⟩
      · exact hmem hq'
  exact (hfold (List.finRange NPROC) 0).2 (List.mem_finRange q)

/-! ### The scheduler's code -/

/-- What holds wherever the scheduler stops: the ledger is right, and the process it waits for runs
at the level of the pass unless it has moved down. -/
structure LevelInv (pt : Point) : Prop where
  log : LogOk pt.log
  running : ∀ p maxPri cou, pt.sched = .running p maxPri cou →
    (pt.table p).state = .running ∧ ∃ t₀, lastScan pt.log = some t₀ ∧ maxPri = highest t₀ ∧
      (Undemoted pt.log → (pt.table p).priority = maxPri)

variable {t t₀ : Table} {log : List Event} {p : Slot} {maxPri : ℕ}

/-- A switch to a process that has the level of the pass, or has moved down. -/
theorem levelInv_swtch {cou : Option ℤ} (hlog : LogOk log) (hscan : lastScan log = some t₀)
    (hmax : maxPri = highest t₀) (hlevel : Undemoted log → (t p).priority = maxPri) :
    LevelInv (swtch t log p maxPri cou) := by
  have hpriority := dispatch_priority_self t p
  refine ⟨⟨⟨t₀, hscan, fun hun ↦ ?_⟩, hlog⟩, ?_⟩
  · rw [hpriority, hlevel hun, hmax]
  · rintro p' maxPri' cou' ⟨⟩
    exact ⟨dispatch_state_self t p, t₀, hscan, hmax, fun hun ↦ hpriority.trans (hlevel hun)⟩

/-- The rest of a pass. -/
theorem levelInv_pass (hmax : maxPri = highest t₀) (ps : List Slot) (hlog : LogOk log)
    (hscan : lastScan log = some t₀) : LevelInv (pass maxPri ps t log) := by
  induction ps generalizing t log with
  | nil => exact ⟨hlog, nofun⟩
  | cons p ps ih =>
    rw [pass]
    split_ifs with hp hpos
    · obtain ⟨hpriority, -⟩ := refill_self t p
      dsimp only
      split_ifs
      · exact levelInv_swtch hlog hscan hmax fun _ ↦ hpriority.trans hp.2
      · exact ih hlog hscan
    · exact levelInv_swtch hlog hscan hmax fun _ ↦ hp.2
    · exact ih hlog hscan

/-- Another turn of the slice, or the rest of the pass. -/
theorem levelInv_nextTurn {cou : ℤ} (hlog : LogOk log) (hscan : lastScan log = some t₀)
    (hmax : maxPri = highest t₀) (hlevel : Undemoted log → (t p).priority = maxPri) :
    LevelInv (nextTurn t log p maxPri cou) := by
  rw [nextTurn]
  split_ifs
  · exact levelInv_swtch hlog hscan hmax hlevel
  · exact levelInv_pass hmax _ hlog hscan

/-- The scheduler goes on after the process that ran has changed the table but not its level. -/
theorem levelInv_resume {pt : Point} (h : LevelInv pt)
    (hlevel : ∀ p maxPri cou, pt.sched = .running p maxPri cou →
      (t p).priority = (pt.table p).priority) : LevelInv (resume t pt.log pt.sched) := by
  rcases hsched : pt.sched with - | ⟨p, maxPri, _ | cou⟩
  · exact ⟨h.log, nofun⟩
  · obtain ⟨-, t₀, hscan, hmax, -⟩ := h.running p maxPri none hsched
    exact levelInv_pass hmax _ h.log hscan
  · obtain ⟨-, t₀, hscan, hmax, hun⟩ := h.running p maxPri (some cou) hsched
    have hpriority := hlevel p maxPri (some cou) hsched
    rw [resume]
    split_ifs
    -- after a process has moved down nothing is said about its level
    · have hlog : LogOk (.demote p :: pt.log) := h.log
      exact levelInv_nextTurn hlog hscan hmax fun hfalse ↦ hfalse.elim
    · exact levelInv_nextTurn h.log hscan hmax fun hu ↦ hpriority.trans (hun hu)

/-- A pass starts with a scan, and dispatches at the level that the scan has found. -/
theorem levelInv_schedule (hlog : LogOk log) : LevelInv (schedule t log) :=
  levelInv_pass rfl _ hlog rfl

/-! ### Runs -/

namespace Machine

variable {m m' : Machine} {a : Action}

/-- Every move keeps the invariant of the scheduler. -/
theorem levelInv_move (hsane : m.Sane) (hm : LevelInv m.point) (h : Move m a m') :
    LevelInv m'.point := by
  cases h with
  | scan => exact levelInv_schedule hm.log
  | stay k hframe _ hrunning =>
    refine ⟨hm.log, fun p maxPri cou hsched ↦ ⟨hrunning p maxPri cou hsched, ?_⟩⟩
    obtain ⟨-, t₀, hscan, hmax, hun⟩ := hm.running p maxPri cou hsched
    have hkept := hframe.kept (hsane.inUse hsched)
    exact ⟨t₀, hscan, hmax, fun hu ↦ hkept.priority.trans (hun hu)⟩
  | leave p maxPri cou k hsched _ hframe _ _ =>
    exact levelInv_resume hm fun p' maxPri' cou' hsched' ↦
      (hframe.kept (hsane.inUse hsched')).priority

/-- The invariant holds in every run. -/
theorem levelInv_of_reachable (hm : system.Reachable m) : LevelInv m.point :=
  (invariant_of_move (I := fun m ↦ LevelInv m.point) ⟨trivial, nofun⟩
    (fun _ _ _ ↦ levelInv_move) hm).2

end Machine

/-- **The level of a dispatch.** When the processor switches to a process that has not moved down
since the pass came to it, the process has the level that was highest among the RUNNABLE entries at
the start of the pass. An entry that is RUNNABLE at a higher level at this moment was not RUNNABLE
then, or has been raised since. -/
theorem dispatch_priority {m : Machine} (hm : system.Reachable m) {later earlier : List Event}
    {p : Slot} {t : Table} (hlog : m.log = later ++ .dispatch p t :: earlier)
    (hun : Undemoted earlier) :
    ∃ t₀, lastScan earlier = some t₀ ∧ (t p).priority = highest t₀ ∧
      (∀ q, (t₀ q).state = .runnable → (t₀ q).priority ≤ (t p).priority) ∧
      ∀ q, (t q).state = .runnable → (t p).priority < (t q).priority →
        (t₀ q).state ≠ .runnable ∨ (t₀ q).priority < (t q).priority := by
  have hok : LogOk m.log := (Machine.levelInv_of_reachable hm).log
  rw [hlog] at hok
  obtain ⟨t₀, hscan, hlevel⟩ := hok.of_append
  have hpriority := hlevel hun
  have hle : ∀ q, (t₀ q).state = .runnable → (t₀ q).priority ≤ (t p).priority := by
    intro q hq
    rw [hpriority]
    exact le_highest hq
  refine ⟨t₀, hscan, hpriority, hle, fun q _ hlt ↦ ?_⟩
  by_cases hq : (t₀ q).state = .runnable
  · exact .inr ((hle q hq).trans_lt hlt)
  · exact .inl hq

/-- The first dispatch of a run, that of the first process. -/
theorem dispatch_priority_init :
    ∃ t₀, lastScan [.select initproc, .scan boot.kernel.ptable] = some t₀ ∧
      (dispatch (refill boot.kernel.ptable initproc) initproc initproc).priority = highest t₀ := by
  have hlog : firstDispatch.log =
      [] ++ .dispatch initproc (dispatch (refill boot.kernel.ptable initproc) initproc) ::
        [.select initproc, .scan boot.kernel.ptable] := rfl
  obtain ⟨t₀, hscan, hlevel, -⟩ := dispatch_priority firstDispatch_reachable hlog trivial
  exact ⟨t₀, hscan, hlevel⟩

/-! ### A process that is passed over -/

/-- No entry is RUNNABLE at a higher level when the processor switches to a process. -/
def Strict : Event → Prop
  | .dispatch p t => ∀ q, (t q).state = .runnable → (t q).priority ≤ (t p).priority
  | _ => True

instance : DecidablePred Strict
  | .dispatch p t =>
    inferInstanceAs (Decidable (∀ q, (t q).state = .runnable → (t q).priority ≤ (t p).priority))
  | .scan _ | .select _ | .demote _ => inferInstanceAs (Decidable True)

/-- The first process uses its first quantum, sleeps, and comes back at level two; then it forks and
yields. -/
def forkAtLevelTwo : List Action :=
  [.schedule] ++ List.replicate 7 .yield ++ [.sleep 7, .wakeup (.addr 7)] ++
    [.schedule, .fork true, .forkCopy true, .forkReturn, .yield]

/-- **Strict priority fails.** The slice of the parent goes on at level two while its child is
RUNNABLE at level three. -/
theorem forked_child_passed_over :
    ¬ ∀ m, system.Reachable m → ∀ e ∈ m.log, Strict e := by
  intro h
  obtain ⟨m, hm, hcheck⟩ := System.Reachable.exists_of_run (S := system) (f := Machine.step)
    (p := fun m ↦ decide (¬ ∀ e ∈ m.log, Strict e)) (fun _ _ _ hstep ↦ hstep)
    (l := forkAtLevelTwo) (.init rfl : system.Reachable boot) (by decide +kernel)
  exact of_decide_eq_true hcheck (h m hm)

end Mlfq
