import Mathlib.Tactic.IntervalCases
import Cs537OS.Mlfq.Moves

/-!
# The bookkeeping of the MLFQ scheduler

The scheduler uses the level of an entry as an index into its counts and into the tables of quanta
and waiting times, and it moves levels in two loops: down at the end of a slice and up in the boost
loop.

* `bookkept_of_reachable` — in every run all levels are between zero and three, no count of ticks at
  the levels one to three exceeds the quantum, and no process is raised by the boost loop of its own
  dispatch;
* `pass_cases` — on such tables a pass dispatches the first RUNNABLE entry of its level, so that it
  comes to at most one entry between two switches.

The counts stay within the quanta because the count of the slice loop is never behind them
(`Point.Bookkept.slice`): `cou` starts as the count of ticks, both go up with every dispatch, and a
demotion sets the ticks to zero and leaves `cou` alone.
-/

open Xv6

namespace Mlfq

/-- The level is one of the four and the ticks are within the quanta. -/
structure Proc.Bookkept (a : Proc) : Prop where
  priority : a.priority ≤ 3
  ticks : ∀ l, 1 ≤ l → l ≤ 3 → 0 ≤ a.ticks l ∧ a.ticks l ≤ clkPerPrio l

theorem Proc.Bookkept.kept {a b : Proc} (ha : a.Bookkept) (hab : a.Kept b) : b.Bookkept := by
  refine ⟨?_, fun l h1 h3 ↦ ?_⟩
  · rw [hab.priority]
    exact ha.priority
  · rw [hab.ticks]
    exact ha.ticks l h1 h3

theorem Proc.Bookkept.boost {a : Proc} (ha : a.Bookkept) : (boost a).Bookkept := by
  refine ⟨?_, fun l h1 h3 ↦ ?_⟩
  · rw [Mlfq.boost]
    dsimp only
    split_ifs with hraise
    · exact hraise.1
    · exact ha.priority
  · rw [boost_ticks]
    exact ha.ticks l h1 h3

/-- Every entry of the table is in order. -/
def Table.Bookkept (t : Table) : Prop := ∀ q, (t q).Bookkept

variable {t : Table} {log : List Event} {p : Slot} {maxPri : ℕ}

theorem clkPerPrio_le (l : ℕ) : clkPerPrio l ≤ 1000 := by
  match l with
  | 0 | 1 | 2 | 3 => decide
  | _ + 4 => exact Nat.zero_le _

/-- A count within the quantum goes up by one. -/
theorem incr_of_lt {l : ℕ} {n : ℤ} (hn : 0 ≤ n) (hlt : n < clkPerPrio l) : incr n = n + 1 := by
  have hle : (clkPerPrio l : ℤ) ≤ 1000 := Int.ofNat_le.2 (clkPerPrio_le l)
  exact incr_eq hn (by omega)

/-- A dispatch within the quantum. -/
theorem Table.Bookkept.dispatch (ht : t.Bookkept)
    (hp : 0 < (t p).priority → (t p).ticks (t p).priority < clkPerPrio (t p).priority) :
    (dispatch t p).Bookkept := by
  intro q
  rcases eq_or_ne q p with rfl | hq
  · refine ⟨?_, fun l h1 h3 ↦ ?_⟩
    · rw [dispatch_priority_self]
      exact (ht q).priority
    · rw [dispatch_ticks_self]
      rcases eq_or_ne l (t q).priority with rfl | hl
      · obtain ⟨hn, -⟩ := (ht q).ticks _ h1 h3
        rw [Function.update_self, incr_of_lt hn (hp h1)]
        exact ⟨Int.le_add_one hn, hp h1⟩
      · rw [Function.update_of_ne hl]
        exact (ht q).ticks l h1 h3
  · rw [dispatch_of_ne hq]
    exact (ht q).boost

/-- A count that is set to zero is within the quantum. -/
theorem Table.Bookkept.modify {l n : ℕ} (ht : t.Bookkept) (hn : n ≤ (t p).priority) :
    (Table.modify t p fun a ↦
      { a with priority := n, ticks := Function.update a.ticks l 0 }).Bookkept := by
  intro q
  rcases eq_or_ne q p with rfl | hq
  · rw [Table.modify_self]
    refine ⟨hn.trans (ht q).priority, fun l' h1 h3 ↦ ?_⟩
    dsimp only
    rcases eq_or_ne l' l with rfl | hl
    · rw [Function.update_self]
      exact ⟨le_rfl, Int.natCast_nonneg _⟩
    · rw [Function.update_of_ne hl]
      exact (ht q).ticks l' h1 h3
  · rw [Table.modify_of_ne hq]
    exact ht q

/-- A process that moves down starts at its new level with no ticks. -/
theorem Table.Bookkept.demote (ht : t.Bookkept) : (demote t p).Bookkept :=
  ht.modify (Nat.sub_le _ _)

/-- A refill starts a new quantum. -/
theorem Table.Bookkept.refill (ht : t.Bookkept) : (refill t p).Bookkept := by
  rw [Mlfq.refill]
  split_ifs
  · exact ht.modify le_rfl
  · exact ht

/-- `refill` only changes the count of the level of `p`. -/
theorem refill_self (t : Table) (p : Slot) :
    (refill t p p).priority = (t p).priority ∧ (refill t p p).state = (t p).state ∧
      (refill t p p).ticks (t p).priority =
        if (t p).ticks (t p).priority = clkPerPrio (t p).priority then 0
        else (t p).ticks (t p).priority := by
  rw [refill]
  split_ifs
  · rw [Table.modify_self]
    exact ⟨rfl, rfl, Function.update_self _ _ _⟩
  · exact ⟨rfl, rfl, rfl⟩

theorem clkPerPrio_pos {l : ℕ} (hl : l ≤ 3) : 0 < clkPerPrio l := by
  interval_cases l <;> decide

/-- After `refill` there is something left of the quantum. -/
theorem Table.Bookkept.refill_lt (ht : t.Bookkept) (hp : 0 < (t p).priority) :
    (Mlfq.refill t p p).ticks (t p).priority < clkPerPrio (t p).priority := by
  rw [(refill_self t p).2.2]
  obtain ⟨-, hle⟩ := (ht p).ticks (t p).priority hp (ht p).priority
  split_ifs with hused
  · exact Int.natCast_pos.2 (clkPerPrio_pos (ht p).priority)
  · exact lt_of_le_of_ne hle hused

theorem Table.Bookkept.refill_nonneg (ht : t.Bookkept) (hp : 0 < (Mlfq.refill t p p).priority) :
    0 ≤ (Mlfq.refill t p p).ticks (Mlfq.refill t p p).priority :=
  ((ht.refill p).ticks _ hp (ht.refill p).priority).1

/-- The first entry that a pass at level `maxPri` comes to. -/
def comesTo (maxPri : ℕ) (ps : List Slot) (t : Table) : Option Slot :=
  ps.find? fun p ↦ (t p).state = .runnable ∧ (t p).priority = maxPri

/-- **What a pass does**: it dispatches the first entry that it comes to, or there is none. -/
theorem pass_cases (ht : t.Bookkept) (maxPri : ℕ) (ps : List Slot) (log : List Event) :
    (comesTo maxPri ps t = none ∧ pass maxPri ps t log = ⟨t, .idle, log⟩) ∨
    ∃ p, comesTo maxPri ps t = some p ∧ (t p).state = .runnable ∧ (t p).priority = maxPri ∧
      ((0 < maxPri ∧ (refill t p p).ticks maxPri < clkPerPrio maxPri ∧
          pass maxPri ps t log = swtch (refill t p) (.select p :: log) p maxPri
            (some ((refill t p p).ticks maxPri))) ∨
        maxPri = 0 ∧ pass maxPri ps t log = swtch t (.select p :: log) p maxPri none) := by
  induction ps with
  | nil => exact .inl ⟨rfl, rfl⟩
  | cons p ps ih =>
    rw [pass, comesTo, List.find?_cons]
    by_cases hp : (t p).state = .runnable ∧ (t p).priority = maxPri
    · rw [if_pos hp, decide_eq_true hp]
      obtain ⟨hrun, rfl⟩ := hp
      refine .inr ⟨p, rfl, hrun, rfl, ?_⟩
      split_ifs with hpos
      · left
        have hlt := ht.refill_lt hpos
        obtain ⟨hpriority, hstate, -⟩ := refill_self t p
        have hgo : SliceGoesOn (refill t p) p ((refill t p p).ticks (t p).priority) :=
          ⟨by rwa [hpriority], hstate.trans hrun⟩
        refine ⟨hpos, hlt, ?_⟩
        dsimp only
        rw [hpriority, if_pos hgo]
      · exact .inr ⟨Nat.eq_zero_of_not_pos hpos, rfl⟩
    · rw [if_neg hp, decide_eq_false hp]
      exact ih

/-! ### The scheduler's code -/

/-- What the ledger says of the tables: they are in order, and the boost loop of a dispatch does not
raise the process that is dispatched. -/
def Event.Bookkept : Event → Prop
  | .scan t => t.Bookkept
  | .dispatch p t => t.Bookkept ∧
      ∃ t', t'.Bookkept ∧ t = Mlfq.dispatch t' p ∧ (t p).priority = (t' p).priority
  | _ => True

/-- Where the scheduler stops the table is in order, and the ticks of the process that runs, which
has at least one, are not ahead of the count of its slice, which is below the quantum. -/
structure Point.Bookkept (pt : Point) : Prop where
  entry : pt.table.Bookkept
  slice : ∀ p maxPri cou, pt.sched = .running p maxPri (some cou) →
    0 < (pt.table p).ticks (pt.table p).priority ∧
      (pt.table p).ticks (pt.table p).priority ≤ cou + 1 ∧ cou < clkPerPrio (pt.table p).priority
  log : ∀ e ∈ pt.log, e.Bookkept

/-- A dispatch within the quantum adds a tick at a level that has room for it. -/
theorem Point.Bookkept.swtch (ht : t.Bookkept) (hlog : ∀ e ∈ log, e.Bookkept) {cou : ℤ}
    (hn : 0 ≤ (t p).ticks (t p).priority) (hcou : (t p).ticks (t p).priority ≤ cou)
    (hgo : cou < clkPerPrio (t p).priority) :
    (swtch t log p maxPri (some cou)).Bookkept := by
  have hdispatch : (dispatch t p).Bookkept := ht.dispatch fun _ ↦ hcou.trans_lt hgo
  have hpriority := dispatch_priority_self t p
  refine ⟨hdispatch, ?_, List.forall_mem_cons.2 ⟨⟨hdispatch, t, ht, rfl, hpriority⟩, hlog⟩⟩
  rintro p' maxPri' cou' ⟨⟩
  show 0 < (dispatch t p p).ticks (dispatch t p p).priority ∧
    (dispatch t p p).ticks (dispatch t p p).priority ≤ cou + 1 ∧
      cou < clkPerPrio (dispatch t p p).priority
  rw [hpriority, dispatch_ticks_self, Function.update_self, incr_of_lt hn (hcou.trans_lt hgo)]
  exact ⟨Int.lt_add_one_of_le hn, Int.add_le_add_right hcou 1, hgo⟩

/-- A pass keeps the books, -/
theorem Point.Bookkept.pass (ht : t.Bookkept) (hlog : ∀ e ∈ log, e.Bookkept) (maxPri : ℕ)
    (ps : List Slot) : (pass maxPri ps t log).Bookkept := by
  have hselect : ∀ q, ∀ e ∈ Event.select q :: log, e.Bookkept :=
    fun q ↦ List.forall_mem_cons.2 ⟨trivial, hlog⟩
  obtain ⟨-, h⟩ | ⟨p, -, -, rfl, ⟨hpos, hlt, h⟩ | ⟨hzero, h⟩⟩ := pass_cases ht maxPri ps log <;>
    rw [h]
  · exact ⟨ht, nofun, hlog⟩
  · obtain ⟨hpriority, -⟩ := refill_self t p
    rw [← hpriority] at hlt
    exact .swtch ht.refill (hselect p) (ht.refill_nonneg (by rwa [hpriority]))
      (by rw [hpriority]) (by rwa [hpriority] at hlt ⊢)
  · have hdispatch : (dispatch t p).Bookkept := ht.dispatch fun hpos ↦ absurd hzero hpos.ne'
    refine ⟨hdispatch, nofun, List.forall_mem_cons.2 ⟨⟨hdispatch, t, ht, rfl, ?_⟩, hselect p⟩⟩
    exact dispatch_priority_self t p

/-- and so does the next turn of a slice. -/
theorem Point.Bookkept.nextTurn {cou : ℤ} (ht : t.Bookkept) (hlog : ∀ e ∈ log, e.Bookkept)
    (hn : 0 ≤ (t p).ticks (t p).priority) (hcou : (t p).ticks (t p).priority ≤ cou) :
    (nextTurn t log p maxPri cou).Bookkept := by
  rw [Mlfq.nextTurn]
  split_ifs with hgo
  · exact .swtch ht hlog hn hcou hgo.1
  · exact .pass ht hlog _ _

/-- The process that moves down is one level lower, with no ticks there. -/
theorem demote_self (t : Table) (p : Slot) :
    (demote t p p).priority = (t p).priority - 1 ∧
      (demote t p p).ticks = Function.update (t p).ticks ((t p).priority - 1) 0 := by
  rw [demote, Table.modify_self]
  exact ⟨rfl, rfl⟩

/-- The scheduler goes on after the process that ran has changed the table but not its counts. -/
theorem Point.Bookkept.resume {pt : Point} (h : pt.Bookkept) (ht : t.Bookkept)
    (hkept : ∀ p maxPri cou, pt.sched = .running p maxPri cou → (pt.table p).Kept (t p)) :
    (resume t pt.log pt.sched).Bookkept := by
  rcases hsched : pt.sched with - | ⟨p, maxPri, _ | cou⟩
  · exact ⟨ht, nofun, h.log⟩
  · exact .pass ht h.log _ _
  · obtain ⟨hpos, hcou, -⟩ := h.slice p maxPri cou hsched
    rw [← (hkept p maxPri _ hsched).ticks, ← (hkept p maxPri _ hsched).priority] at hpos hcou
    rw [Mlfq.resume]
    split_ifs
    · obtain ⟨hpriority, hticks⟩ := demote_self t p
      have hzero : (demote t p p).ticks (demote t p p).priority = 0 := by
        rw [hpriority, hticks, Function.update_self]
      exact .nextTurn ht.demote (List.forall_mem_cons.2 ⟨trivial, h.log⟩) hzero.ge
        (hzero.trans_le (hpos.le.trans hcou))
    · exact .nextTurn ht h.log hpos.le hcou

/-! ### Runs -/

namespace Machine

variable {m m' : Machine} {a : Action}

/-- A call keeps the books: a new process has none. -/
theorem bookkept_frame {k k' : Kernel} (h : k.ptable.Bookkept) (hframe : Kernel.Frame k k') :
    k'.ptable.Bookkept := by
  intro q
  rcases hframe.entry q with hkept | hfresh
  · exact (h q).kept hkept
  · -- a new process starts at level three with all counts zero
    refine ⟨hfresh.priority.le, fun l _ _ ↦ ?_⟩
    rw [hfresh.ticks]
    exact ⟨le_rfl, Int.natCast_nonneg _⟩

/-- A step keeps the books, -/
theorem bookkept_move (hsane : m.Sane) (hm : m.point.Bookkept) (h : Move m a m') :
    m'.point.Bookkept := by
  cases h with
  | scan =>
    have hscan : Event.Bookkept (.scan m.kernel.ptable) := hm.entry
    exact .pass hm.entry (List.forall_mem_cons.2 ⟨hscan, hm.log⟩) _ _
  | stay k hframe _ _ =>
    refine ⟨bookkept_frame hm.entry hframe, fun p maxPri cou hsched ↦ ?_, hm.log⟩
    have hkept := hframe.kept (hsane.inUse hsched)
    show 0 < (k.ptable p).ticks (k.ptable p).priority ∧
      (k.ptable p).ticks (k.ptable p).priority ≤ cou + 1 ∧ cou < clkPerPrio (k.ptable p).priority
    rw [hkept.priority, hkept.ticks]
    exact hm.slice p maxPri cou hsched
  | leave p maxPri cou k _ _ hframe _ _ =>
    exact hm.resume (bookkept_frame hm.entry hframe) fun _ _ _ hsched ↦
      hframe.kept (hsane.inUse hsched)

/-- which are in order at boot, -/
theorem bookkept_boot : boot.point.Bookkept := by
  refine ⟨fun q ↦ ?_, nofun, fun _ h ↦ absurd h List.not_mem_nil⟩
  have hzero : Kernel.zeroed.ptable.Bookkept := fun _ ↦
    ⟨Nat.zero_le 3, fun _ _ _ ↦ ⟨le_rfl, Int.natCast_nonneg _⟩⟩
  have halloc := bookkept_frame hzero (Kernel.allocproc_frame true)
  exact (halloc q).kept (Kernel.setState_kept (by decide) _ q)

/-- and so in every run. -/
theorem point_bookkept_of_reachable (hm : system.Reachable m) : m.point.Bookkept :=
  (invariant_of_move (I := fun m ↦ m.point.Bookkept) bookkept_boot
    (fun _ _ _ ↦ bookkept_move) hm).2

end Machine

/-- The machine after the first dispatch. -/
def firstDispatch : Machine := boot.atPoint (schedule boot.kernel.ptable [])

/-- The first process can be dispatched. -/
theorem firstDispatch_reachable : system.Reachable firstDispatch :=
  .step .schedule (.init rfl) rfl

/-- The first process makes a child and sleeps; the child uses its first quantum, sleeps, and is
dispatched twice at level two before the first process comes back. -/
def twoProcesses : List Action :=
  [.schedule, .fork true, .forkCopy true, .forkReturn, .sleep 7] ++ List.replicate 7 .yield ++
    [.sleep 8, .wakeup (.addr 8), .schedule, .yield, .wakeup (.addr 7), .sleep 8,
      .wakeup (.addr 8), .schedule]

/-- The entry of the child. -/
def child : Slot := ⟨1, by decide⟩

end Mlfq
