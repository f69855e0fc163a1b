import Cs537OS.Mlfq.Bookkeeping

/-!
# The ticks that `getpinfo` reports

`helper` copies the counts of the scheduler to the caller of `getpinfo`, where they are described as
the ticks that a process has accumulated at each level. The scheduler uses the same counts for the
quanta and sets them back, so that a process that comes back to a level starts from zero there.

* `ticks_accounted` — in every run in which no pass refills the quantum of a process, and none goes
  beyond what an `int` can count at level zero, the counts are the numbers of dispatches that the
  process has got at each level, and do not decrease;
* `ticks_set_back` — a process that uses up its first quantum, waits until it is raised again and is
  dispatched has one tick at level three, after nine dispatches.

A demotion sets a count back as well, but only one that is zero already unless a quantum has been
refilled before: a process that is below level three and has not been raised since has no ticks
further down, and full quanta above (`Ladder`).
-/

open Xv6

namespace Mlfq

/-- What `getpinfo` reports. -/
structure Pstat where
  inuse : Slot → Bool
  pid : Slot → ℤ
  priority : Slot → ℕ
  state : Slot → ProcState
  ticks : Slot → ℕ → ℤ
  waitTicks : Slot → ℕ → ℤ

/-- Copy the process table for `getpinfo`. -/
def helper (t : Table) : Pstat where
  inuse i := (t i).inuse
  pid i := (t i).pid
  priority i := (t i).priority
  state i := (t i).state
  ticks i := (t i).ticks
  waitTicks i := (t i).waitTicks

/-- The dispatches of the process with this pid, in entry `p`, at level `l`. -/
def dispatchesAt (log : List Event) (p : Slot) (pid : ℤ) (l : ℕ) : ℕ :=
  log.countP fun
    | .dispatch q t => q = p ∧ (t p).pid = pid ∧ (t p).priority = l
    | _ => false

/-- The pass that a step goes on with: its table, its level and the entries that are left. -/
def Machine.passAhead (m : Machine) (a : Action) : Option (Table × ℕ × List Slot) :=
  match m.sched with
  | .idle =>
    match a with
    | .schedule => some (m.kernel.ptable, highest m.kernel.ptable, List.finRange NPROC)
    | _ => none
  | .running p maxPri cou =>
    (m.kernel.leftBy p a).bind fun k ↦
      match cou with
      | none => some (k.ptable, maxPri, slotsAfter p)
      | some cou =>
        let t := if QuantumUsed k.ptable p then demote k.ptable p else k.ptable
        if SliceGoesOn t p (cou + 1) then none else some (t, maxPri, slotsAfter p)

/-- The pass at this level goes on with the count of the process, and does not set it back: because
its quantum is used up, or at level zero, which has none, because an `int` has no room for it. -/
def Proc.Counts (a : Proc) (maxPri : ℕ) : Prop :=
  if 0 < maxPri then a.ticks maxPri ≠ clkPerPrio maxPri else a.ticks maxPri < 2 ^ 31 - 1

instance (a : Proc) (maxPri : ℕ) : Decidable (a.Counts maxPri) :=
  inferInstanceAs (Decidable
    (if 0 < maxPri then a.ticks maxPri ≠ clkPerPrio maxPri else a.ticks maxPri < 2 ^ 31 - 1))

/-- The pass does not come to a process whose count it would set back. -/
def NoSetBack (m : Machine) (a : Action) : Prop :=
  ∀ r ∈ m.passAhead a, ∀ q ∈ comesTo r.2.1 r.2.2 r.1, (r.1 q).Counts r.2.1

instance (m : Machine) (a : Action) : Decidable (NoSetBack m a) :=
  inferInstanceAs (Decidable (∀ r ∈ m.passAhead a, ∀ q ∈ comesTo r.2.1 r.2.2 r.1, _))

/-! ### Counting dispatches -/

variable {t t' : Table} {log : List Event} {p q : Slot} {maxPri l : ℕ} {pid n : ℤ}

/-- The dispatch of another process is not counted, -/
theorem dispatchesAt_cons_of_ne (hq : q ≠ p) :
    dispatchesAt (.dispatch q t :: log) p pid l = dispatchesAt log p pid l := by
  rw [dispatchesAt, List.countP_cons_of_neg]
  · rfl
  · exact fun h ↦ hq (of_decide_eq_true h).1

/-- and its own is, at the level that it has then. -/
theorem dispatchesAt_cons_self (hpid : (t p).pid = pid) :
    dispatchesAt (.dispatch p t :: log) p pid l =
      dispatchesAt log p pid l + if (t p).priority = l then 1 else 0 := by
  rw [dispatchesAt, List.countP_cons]
  congr 1
  refine if_congr ?_ rfl rfl
  rw [decide_eq_true_iff]
  exact ⟨fun h ↦ h.2.2, fun h ↦ ⟨rfl, hpid, h⟩⟩

theorem dispatchesAt_mono {log' : List Event} (h : log <:+ log') :
    dispatchesAt log p pid l ≤ dispatchesAt log' p pid l :=
  h.sublist.countP_le

/-- A pid that the ledger does not know has no dispatches. -/
theorem dispatchesAt_eq_zero (h : ∀ q t, .dispatch q t ∈ log → (t q).pid < n) :
    dispatchesAt log p n l = 0 := by
  rw [dispatchesAt, List.countP_eq_zero]
  intro e he hcount
  cases e with
  | dispatch q t =>
    obtain ⟨rfl, hpid, -⟩ := of_decide_eq_true hcount
    exact (h q t he).ne hpid
  | _ => cases hcount

/-! ### The ladder -/

/-- At level `low` the process has part of its quantum; it has no ticks below and full quanta
above. -/
structure Proc.Low (a : Proc) (low : ℕ) : Prop where
  le : low ≤ a.priority
  below : ∀ l < low, a.ticks l = 0
  above : ∀ l, low < l → l ≤ 3 → a.ticks l = clkPerPrio l

/-- How the counts of a process look when no quantum has been refilled. -/
def Proc.Ladder (a : Proc) : Prop := ∃ low, a.Low low

/-- A process can be raised without a look at its counts. -/
theorem Proc.Ladder.of_ticks {a b : Proc} (ha : a.Ladder) (hticks : b.ticks = a.ticks)
    (hpriority : a.priority ≤ b.priority) : b.Ladder := by
  obtain ⟨low, hle, hbelow, habove⟩ := ha
  rw [← hticks] at hbelow habove
  exact ⟨low, hle.trans hpriority, hbelow, habove⟩

theorem Proc.Low.kept {a b : Proc} (ha : a.Low a.priority) (hab : a.Kept b) :
    b.Low b.priority := by
  obtain ⟨-, hbelow, habove⟩ := ha
  rw [← hab.ticks, ← hab.priority] at hbelow habove
  exact ⟨le_rfl, hbelow, habove⟩

/-- A process with part of its quantum left at its level is at the foot of its ladder. -/
theorem Proc.Ladder.low {a : Proc} (ha : a.Ladder) (h3 : a.priority ≤ 3)
    (hpart : 0 < a.priority → a.ticks a.priority ≠ clkPerPrio a.priority) : a.Low a.priority := by
  obtain ⟨low, hlow⟩ := ha
  obtain rfl | hlt := hlow.le.eq_or_lt
  · exact hlow
  · exact absurd (hlow.above _ hlt h3) (hpart (Nat.zero_lt_of_lt hlt))

/-! ### The accounts -/

/-- The counts of an entry in use are those of the ledger, and its pid has been given out. -/
structure Accounted (n : ℤ) (log : List Event) (p : Slot) (a : Proc) : Prop where
  ticks : ∀ l, a.ticks l = dispatchesAt log p a.pid l
  ladder : a.Ladder
  pid : a.pid < n

/-- What holds in the middle of a pass, when `n` is the next pid. -/
structure Tally (n : ℤ) (t : Table) (log : List Event) : Prop where
  entry : ∀ p, (t p).state ≠ .unused → Accounted n log p (t p)
  log : ∀ p t, .dispatch p t ∈ log → (t p).pid < n

/-- What holds wherever the scheduler stops. -/
structure TallyInv (n : ℤ) (pt : Point) : Prop where
  tally : Tally n pt.table pt.log
  running : ∀ p maxPri cou, pt.sched = .running p maxPri cou →
    (pt.table p).Low (pt.table p).priority

/-- An event that is not a dispatch changes no account. -/
theorem Tally.cons {e : Event} (h : Tally n t log) (he : ∀ p t, e ≠ .dispatch p t) :
    Tally n t (e :: log) := by
  have hcount : ∀ p pid l, dispatchesAt (e :: log) p pid l = dispatchesAt log p pid l := by
    intro p pid l
    cases e with
    | dispatch p t => exact absurd rfl (he p t)
    | _ => rfl
  refine ⟨fun p hp ↦ ⟨fun l ↦ ?_, (h.entry p hp).ladder, (h.entry p hp).pid⟩, fun p t hmem ↦ ?_⟩
  · rw [hcount]
    exact (h.entry p hp).ticks l
  · rcases List.mem_cons.1 hmem with heq | hmem
    · exact absurd heq.symm (he p t)
    · exact h.log p t hmem

theorem boost_priority_le (a : Proc) : a.priority ≤ (boost a).priority := by
  rw [boost]
  dsimp only
  split_ifs
  · exact Nat.le_succ _
  · exact le_rfl

/-- A dispatch adds the tick that it is counted for, as long as there is room in the `int`. -/
theorem tallyInv_swtch {cou : Option ℤ} (h : Tally n t log) (hrun : (t p).state = .runnable)
    (hlow : (t p).Low (t p).priority) (hlt : (t p).ticks (t p).priority < 2 ^ 31 - 1) :
    TallyInv n (swtch t log p maxPri cou) := by
  have hp := h.entry p (by rw [hrun]; exact nofun)
  have hpid : (dispatch t p p).pid = (t p).pid := (dispatch_scheduled hrun p).1
  have hpriority := dispatch_priority_self t p
  -- no wrap: there is room for one more tick
  have hticks : (dispatch t p p).ticks =
      Function.update (t p).ticks (t p).priority ((t p).ticks (t p).priority + 1) := by
    rw [dispatch_ticks_self, incr_eq ?_ hlt]
    rw [hp.ticks]
    exact Int.natCast_nonneg _
  have hlow' : (dispatch t p p).Low (dispatch t p p).priority := by
    rw [hpriority]
    refine ⟨hpriority.ge, fun l hl ↦ ?_, fun l hl h3 ↦ ?_⟩ <;> rw [hticks]
    · rw [Function.update_of_ne hl.ne]
      exact hlow.below l hl
    · rw [Function.update_of_ne hl.ne']
      exact hlow.above l hl h3
  refine ⟨⟨fun q hq ↦ ?_, fun q t' hmem ↦ ?_⟩, ?_⟩
  · show Accounted n (.dispatch p (dispatch t p) :: log) q (dispatch t p q)
    rcases eq_or_ne q p with rfl | hne
    · refine ⟨fun l ↦ ?_, ⟨_, hlow'⟩, hpid.trans_lt hp.pid⟩
      rw [dispatchesAt_cons_self rfl, hpid, Nat.cast_add, ← hp.ticks l, hpriority, hticks]
      split_ifs with hl
      · rw [← hl, Function.update_self]
        rfl
      · rw [Function.update_of_ne (Ne.symm hl)]
        exact (Int.add_zero _).symm
    · have hentry := dispatch_of_ne (t := t) hne
      have hq' := h.entry q (by
        rw [← (boost_scheduled (t q)).2, ← hentry]
        exact hq)
      rw [hentry]
      refine ⟨fun l ↦ ?_, hq'.ladder.of_ticks (boost_ticks _) (boost_priority_le _), ?_⟩
      · rw [dispatchesAt_cons_of_ne hne.symm, boost_ticks, (boost_scheduled _).1]
        exact hq'.ticks l
      · rw [(boost_scheduled _).1]
        exact hq'.pid
  · rcases List.mem_cons.1 hmem with heq | hmem
    · cases heq
      exact hpid.trans_lt hp.pid
    · exact h.log q t' hmem
  · rintro p' maxPri' cou' ⟨⟩
    exact hlow'

/-- An `int` has room for a quantum. -/
theorem lt_max_of_lt_clkPerPrio {l : ℕ} {n : ℤ} (hn : n < clkPerPrio l) : n < 2 ^ 31 - 1 :=
  hn.trans ((Int.ofNat_le.2 (clkPerPrio_le l)).trans_lt (by decide))

/-- A quantum that is not used up is left alone. -/
theorem refill_eq (hpart : (t p).ticks (t p).priority ≠ clkPerPrio (t p).priority) :
    refill t p = t := by
  rw [refill, if_neg hpart]

/-- A pass keeps the accounts if it comes to no process whose count it would set back. -/
theorem tallyInv_pass {ps : List Slot} (ht : t.Bookkept) (h : Tally n t log)
    (hno : ∀ q, comesTo maxPri ps t = some q → (t q).Counts maxPri) :
    TallyInv n (pass maxPri ps t log) := by
  have hselect : ∀ q, Tally n t (.select q :: log) := fun q ↦ h.cons fun _ _ ↦ nofun
  obtain ⟨-, hpass⟩ | ⟨p, hcomes, hrun, rfl, hcase⟩ := pass_cases ht maxPri ps log
  · rw [hpass]
    exact ⟨h, nofun⟩
  · have hcounts := hno p hcomes
    have hpart : 0 < (t p).priority → (t p).ticks (t p).priority ≠ clkPerPrio (t p).priority :=
      fun hpos ↦ (if_pos hpos).mp hcounts
    have hlow : (t p).Low (t p).priority :=
      (h.entry p (by rw [hrun]; exact nofun)).ladder.low (ht p).priority hpart
    obtain ⟨hpos, hlt, hpass⟩ | ⟨hzero, hpass⟩ := hcase <;> rw [hpass]
    · rw [refill_eq (hpart hpos)] at hlt ⊢
      exact tallyInv_swtch (hselect p) hrun hlow (lt_max_of_lt_clkPerPrio hlt)
    · exact tallyInv_swtch (hselect p) hrun hlow
        ((if_neg fun hpos ↦ hpos.ne' hzero).mp hcounts)

/-- A process at the foot of its ladder moves down without losing ticks. -/
theorem Tally.demote (h : Tally n t log) (hlow : (t p).Low (t p).priority)
    (hused : QuantumUsed t p) (ht : t.Bookkept) :
    Tally n (demote t p) (.demote p :: log) ∧ (demote t p p).Low (demote t p p).priority := by
  obtain ⟨hpos, hge⟩ := hused
  obtain ⟨hpriority, hticks⟩ := demote_self t p
  have hsame : (Mlfq.demote t p p).ticks = (t p).ticks := by
    rw [hticks, ← hlow.below _ (Nat.sub_lt hpos Nat.one_pos), Function.update_eq_self]
  have hfull := le_antisymm ((ht p).ticks _ hpos (ht p).priority).2 hge
  have hlow' : (Mlfq.demote t p p).Low (Mlfq.demote t p p).priority := by
    refine ⟨le_rfl, fun l hl ↦ ?_, fun l hl h3 ↦ ?_⟩ <;> rw [hsame] <;> rw [hpriority] at hl
    · exact hlow.below l (by omega)
    · obtain rfl | hlt : l = (t p).priority ∨ (t p).priority < l := by omega
      · exact hfull
      · exact hlow.above l hlt h3
  refine ⟨Tally.cons ⟨fun q hq ↦ ?_, h.log⟩ fun _ _ ↦ nofun, hlow'⟩
  obtain ⟨hpid, hstate⟩ := demote_scheduled t p q
  rw [hstate] at hq
  have hacc := h.entry q hq
  rcases eq_or_ne q p with rfl | hne
  · refine ⟨fun l ↦ ?_, ⟨_, hlow'⟩, hpid.trans_lt hacc.pid⟩
    rw [hsame, hpid]
    exact hacc.ticks l
  · rw [Mlfq.demote, Table.modify_of_ne hne]
    exact hacc

/-- The next turn of a slice keeps the accounts under the same condition. -/
theorem tallyInv_nextTurn {cou : ℤ} (ht : t.Bookkept) (h : Tally n t log)
    (hlow : (t p).Low (t p).priority) (hcou : (t p).ticks (t p).priority ≤ cou)
    (hno : ¬ SliceGoesOn t p cou → ∀ q, comesTo maxPri (slotsAfter p) t = some q →
      (t q).Counts maxPri) : TallyInv n (nextTurn t log p maxPri cou) := by
  rw [nextTurn]
  split_ifs with hgo
  · exact tallyInv_swtch h hgo.2 hlow (lt_max_of_lt_clkPerPrio (hcou.trans_lt hgo.1))
  · exact tallyInv_pass ht h (hno hgo)

/-! ### The ledger grows -/

theorem suffix_pass (maxPri : ℕ) (ps : List Slot) (t : Table) (log : List Event) :
    log <:+ (pass maxPri ps t log).log := by
  induction ps generalizing t log with
  | nil => exact List.suffix_rfl
  | cons p ps ih =>
    rw [pass]
    split_ifs
    · dsimp only
      split_ifs
      · exact (List.suffix_cons _ _).trans (List.suffix_cons _ _)
      · exact (List.suffix_cons _ _).trans (ih _ _)
    · exact (List.suffix_cons _ _).trans (List.suffix_cons _ _)
    · exact ih _ _

theorem suffix_nextTurn (t : Table) (log : List Event) (p : Slot) (maxPri : ℕ) (cou : ℤ) :
    log <:+ (nextTurn t log p maxPri cou).log := by
  rw [nextTurn]
  split_ifs
  · exact List.suffix_cons _ _
  · exact suffix_pass _ _ _ _

theorem suffix_resume (t : Table) (log : List Event) (s : Sched) :
    log <:+ (resume t log s).log := by
  rcases s with - | ⟨p, maxPri, _ | cou⟩
  · exact List.suffix_rfl
  · exact suffix_pass _ _ _ _
  · rw [resume]
    split_ifs
    · exact (List.suffix_cons _ _).trans (suffix_nextTurn _ _ _ _ _)
    · exact suffix_nextTurn _ _ _ _ _

/-! ### Runs -/

namespace Machine

variable {m m' : Machine} {a : Action}

/-- What a call does to the accounts. -/
theorem tally_frame {k k' : Kernel} (h : Tally k.nextpid k.ptable log)
    (hframe : Kernel.Frame k k') : Tally k'.nextpid k'.ptable log := by
  refine ⟨fun q hq ↦ ?_, fun q t hmem ↦ (h.log q t hmem).trans_le hframe.nextpid⟩
  rcases hframe.entry q with hkept | hfresh
  · obtain ⟨hpid, hinuse⟩ := hkept.same hq
    have hacc := h.entry q hinuse
    refine ⟨fun l ↦ ?_, hacc.ladder.of_ticks hkept.ticks hkept.priority.ge, ?_⟩
    · rw [hkept.ticks, hpid]
      exact hacc.ticks l
    · rw [hpid]
      exact hacc.pid.trans_le hframe.nextpid
  · -- the ledger does not know the pid of a new process
    refine ⟨fun l ↦ ?_, ⟨3, hfresh.priority.ge, fun l _ ↦ ?_, fun l hlt h3 ↦ ?_⟩, ?_⟩
    · rw [hfresh.ticks, hfresh.pid, dispatchesAt_eq_zero h.log]
      rfl
    · rw [hfresh.ticks]
    · exact absurd h3 hlt.not_ge
    · rw [hfresh.pid, hfresh.nextpid]
      exact Int.lt_succ _

/-- A step that sets no count back keeps the accounts. -/
theorem tallyInv_move (hsane : m.Sane)
    (hm : m.point.Bookkept ∧ TallyInv m.kernel.nextpid m.point) (hno : NoSetBack m a)
    (h : Move m a m') : m'.point.Bookkept ∧ TallyInv m'.kernel.nextpid m'.point := by
  refine ⟨bookkept_move hsane hm.1 h, ?_⟩
  obtain ⟨hbook, hm⟩ := hm
  cases h with
  | scan hidle ha =>
    subst ha
    refine tallyInv_pass hbook.entry (hm.tally.cons fun _ _ ↦ nofun)
      (hno (m.kernel.ptable, highest m.kernel.ptable, List.finRange NPROC) ?_)
    rw [passAhead]
    rw [hidle]
    rfl
  | stay k hframe _ _ =>
    refine ⟨tally_frame hm.tally hframe, fun p maxPri cou hsched ↦ ?_⟩
    exact (hm.running p maxPri cou hsched).kept (hframe.kept (hsane.inUse hsched))
  | leave p maxPri cou k hsched hleft hframe _ _ =>
    have htally : Tally k.nextpid k.ptable m.log := tally_frame hm.tally hframe
    have hbook' := bookkept_frame hbook.entry hframe
    have hkept := hframe.kept (hsane.inUse hsched)
    have hlow : (k.ptable p).Low (k.ptable p).priority :=
      (hm.running p maxPri cou hsched).kept hkept
    have hahead {t : Table} (ht : m.passAhead a = some (t, maxPri, slotsAfter p)) :
        ∀ q ∈ comesTo maxPri (slotsAfter p) t, (t q).Counts maxPri :=
      hno (t, maxPri, slotsAfter p) ht
    show TallyInv k.nextpid (resume k.ptable m.log m.sched)
    rw [hsched]
    cases cou with
    | none =>
      refine tallyInv_pass hbook' htally (hahead ?_)
      unfold passAhead
      rw [hsched]
      dsimp only
      rw [hleft]
      rfl
    | some cou =>
      obtain ⟨hpos, hcou, -⟩ := hbook.slice p maxPri cou hsched
      rw [resume]
      split_ifs with hused
      -- the quantum is used up: the count of the next level is set to zero, where it was zero
      · obtain ⟨hdemoted, hlow'⟩ := htally.demote hlow hused hbook'
        refine tallyInv_nextTurn hbook'.demote hdemoted hlow' ?_ fun hgo ↦
          hahead (t := demote k.ptable p) ?_
        · obtain ⟨hpriority, hticks⟩ := demote_self k.ptable p
          rw [hpriority, hticks, Function.update_self]
          exact hpos.le.trans hcou
        unfold passAhead
        rw [hsched]
        dsimp only
        rw [hleft, Option.bind_some, if_pos hused, if_neg hgo]
      · refine tallyInv_nextTurn hbook' htally hlow ?_ fun hgo ↦ hahead ?_
        · rw [hkept.priority, hkept.ticks]
          exact hcou
        unfold passAhead
        rw [hsched]
        dsimp only
        rw [hleft, Option.bind_some, if_neg hused, if_neg hgo]

theorem suffix_move (h : Move m a m') : m.log <:+ m'.log := by
  cases h with
  | scan => exact (List.suffix_cons _ _).trans (suffix_pass _ _ _ _)
  | stay => exact List.suffix_rfl
  | leave p maxPri cou k => exact suffix_resume _ _ _

theorem tallyInv_boot : TallyInv boot.kernel.nextpid boot.point := by
  have hzero : Tally 1 Kernel.zeroed.ptable [] :=
    ⟨fun _ h ↦ absurd rfl h, fun _ _ h ↦ absurd h List.not_mem_nil⟩
  have halloc : Kernel.Frame Kernel.zeroed (Kernel.zeroed.allocproc true).2 :=
    Kernel.allocproc_frame true
  have hset : Kernel.Frame (Kernel.zeroed.allocproc true).2 Kernel.userinit :=
    .of_kept rfl (Kernel.setState_kept (by decide) _)
  exact ⟨tally_frame (tally_frame hzero halloc) hset, nofun⟩

/-- In every run that sets no count back the accounts are right. -/
theorem tallyInv_of_reachable (hm : (system.restrict NoSetBack).Reachable m) :
    m.Sane ∧ m.point.Bookkept ∧ TallyInv m.kernel.nextpid m.point := by
  refine invariant_of_move_restrict
    (I := fun m ↦ m.point.Bookkept ∧ TallyInv m.kernel.nextpid m.point)
    ⟨bookkept_boot, tallyInv_boot⟩ (fun m a m' hsane hI hno h ↦ ?_) hm
  exact tallyInv_move hsane hI hno h

end Machine

/-- **The accounting of ticks.** In every run in which no pass sets a count back, `getpinfo` reports
for every process in use the number of dispatches it has got at each level, and reports no less
later on. -/
theorem ticks_accounted {m : Machine} (hm : (system.restrict NoSetBack).Reachable m) {p : Slot}
    (hp : (m.kernel.ptable p).state ≠ .unused) (l : ℕ) :
    (helper m.kernel.ptable).ticks p l =
        dispatchesAt m.log p ((helper m.kernel.ptable).pid p) l ∧
      ∀ a m', (system.restrict NoSetBack).next m a m' → (m'.kernel.ptable p).state ≠ .unused →
        (m'.kernel.ptable p).pid = (m.kernel.ptable p).pid →
          (helper m.kernel.ptable).ticks p l ≤ (helper m'.kernel.ptable).ticks p l := by
  have hcount : ∀ {m : Machine}, (system.restrict NoSetBack).Reachable m →
      (m.kernel.ptable p).state ≠ .unused →
        (m.kernel.ptable p).ticks l = dispatchesAt m.log p (m.kernel.ptable p).pid l :=
    fun hm hp ↦ ((Machine.tallyInv_of_reachable hm).2.2.tally.entry p hp).ticks l
  refine ⟨hcount hm hp, fun a m' hnext hp' hpid ↦ ?_⟩
  have hmove := Machine.move_of_step (Machine.tallyInv_of_reachable hm).1 hnext.2
  show (m.kernel.ptable p).ticks l ≤ (m'.kernel.ptable p).ticks l
  rw [hcount hm hp, hcount (.step a hm hnext) hp', hpid]
  exact Int.ofNat_le.2 (dispatchesAt_mono (Machine.suffix_move hmove))

/-- The child has eight ticks at level three and two at level two. -/
theorem twoProcesses_ticks_accounted :
    ∃ m : Machine, (m.kernel.ptable child).ticks 3 = 8 ∧ (m.kernel.ptable child).ticks 2 = 2 ∧
      (helper m.kernel.ptable).ticks child 3 =
        dispatchesAt m.log child ((helper m.kernel.ptable).pid child) 3 := by
  obtain ⟨m, hm, hcheck⟩ := System.Reachable.exists_of_run (l := twoProcesses)
    (p := fun m ↦ decide ((m.kernel.ptable child).state ≠ .unused ∧
      (m.kernel.ptable child).ticks 3 = 8 ∧ (m.kernel.ptable child).ticks 2 = 2))
    (System.next_of_checked (S := system) (P := NoSetBack) (f := Machine.step) (e := .blocked)
      fun _ _ _ hstep ↦ hstep) (.init rfl) (by decide +kernel)
  obtain ⟨hlive, hthree, htwo⟩ := of_decide_eq_true hcheck
  exact ⟨m, hthree, htwo, (ticks_accounted hm hlive 3).1⟩

/-- The first process makes a child, which uses its first quantum and sleeps. The first process has
the processor until the child has waited long enough at level two to be raised, and wakes it. -/
def raiseChild : List Action :=
  [.schedule, .fork true, .forkCopy true, .forkReturn, .sleep 7] ++ List.replicate 8 .yield ++
    [.sleep 8, .wakeup (.addr 7), .schedule] ++ List.replicate 15 .yield ++ [.schedule] ++
    List.replicate 24 .yield ++ [.schedule] ++ List.replicate 120 .yield ++
    [.sleep 7, .wakeup (.addr 8), .schedule]

/-- **Ticks are set back.** The child has one tick at level three after nine dispatches there. -/
theorem ticks_set_back : ¬ ∀ m, system.Reachable m → ∀ p, (m.kernel.ptable p).state ≠ .unused →
    ∀ l, (helper m.kernel.ptable).ticks p l =
      dispatchesAt m.log p ((helper m.kernel.ptable).pid p) l := by
  intro h
  obtain ⟨m, hm, hcheck⟩ := System.Reachable.exists_of_run (S := system) (f := Machine.step)
    (p := fun m ↦ decide ((m.kernel.ptable child).state ≠ .unused ∧
      (m.kernel.ptable child).ticks 3 < dispatchesAt m.log child (m.kernel.ptable child).pid 3))
    (fun _ _ _ hstep ↦ hstep) (l := raiseChild) (.init rfl : system.Reachable boot)
    (by decide +kernel)
  obtain ⟨hlive, hlt⟩ := of_decide_eq_true hcheck
  exact hlt.ne (h m hm child hlive 3)

end Mlfq
