import Cs537OS.Mlfq.Priority

/-!
# The quantum of a process

A process that a pass comes to at a level above zero should get the processor for no more than the
quantum of this level, move down when it has used it, and then wait for another pass. The loop of
the slice reads its bound through the level of the process, and the level changes when the quantum
is used up: the loop goes on with the larger quantum of the level below.

* `quantum_enforced` — the quantum is enforced in every run in which no process yields at the moment
  when it has used its quantum, but sleeps, waits or exits. The slice ends then, because the process
  is not RUNNABLE;
* `quantum_overrun` — the first process yields until its quantum at level three is used up, and is
  dispatched at level two before the next scan.

The ledger shows all this: `QuantumEnforced` is about the dispatches that it records.
-/

open Xv6

namespace Mlfq

/-- The dispatches since the pass came to the process. -/
def turns : List Event → ℕ
  | .dispatch _ _ :: log => turns log + 1
  | .demote _ :: log => turns log
  | _ => 0

/-- What a ledger looks like when the quanta are enforced. -/
structure QuantumEnforced (log : List Event) : Prop where
  /-- A process that is selected at a level above zero is dispatched at this level, and for no more
  than a quantum. -/
  within : ∀ newer p t older, log = newer ++ .dispatch p t :: older →
    ∃ t₀, lastScan older = some t₀ ∧ (0 < highest t₀ →
      (t p).priority = highest t₀ ∧ turns (.dispatch p t :: older) ≤ clkPerPrio (highest t₀))
  /-- When it has used its quantum it moves down, -/
  moved : ∀ newer e p t older, log = newer ++ e :: .dispatch p t :: older → QuantumUsed t p →
    e = .demote p
  /-- and is not dispatched again before the next scan. -/
  rescan : ∀ newer p t' between t older,
    log = newer ++ .dispatch p t' :: between ++ .dispatch p t :: older → QuantumUsed t p →
      ∃ t₁, .scan t₁ ∈ between

/-- A process that has used its quantum does not yield. -/
def NoLateYield (m : Machine) (a : Action) : Prop :=
  ∀ p maxPri cou, m.sched = .running p maxPri (some cou) → QuantumUsed m.kernel.ptable p →
    a ≠ .yield

instance (m : Machine) (a : Action) : Decidable (NoLateYield m a) :=
  match hsched : m.sched with
  | .running p maxPri (some cou) =>
    decidable_of_iff (QuantumUsed m.kernel.ptable p → a ≠ .yield) ⟨fun h p' maxPri' cou' hrun ↦ by
      cases hsched.symm.trans hrun
      exact h, fun h ↦ h p maxPri cou hsched⟩
  | .running _ _ none => isTrue fun _ _ _ hrun ↦ by cases hsched.symm.trans hrun
  | .idle => isTrue fun _ _ _ hrun ↦ by cases hsched.symm.trans hrun

/-! ### The ledger, event by event -/

/-- Process `p` has used its quantum since the last scan. -/
def UsedUp (p : Slot) : List Event → Prop
  | [] => False
  | .scan _ :: _ => False
  | .dispatch q t :: log => (q = p ∧ QuantumUsed t p) ∨ UsedUp p log
  | _ :: log => UsedUp p log

/-- The process of the last event has not just used its quantum. -/
def Clear : List Event → Prop
  | .dispatch p t :: _ => ¬ QuantumUsed t p
  | _ => True

/-- What an event must be after a dispatch. -/
def MovedOk (e : Event) : List Event → Prop
  | .dispatch p t :: _ => QuantumUsed t p → e = .demote p
  | _ => True

/-- What a dispatch must be. -/
def WithinOk : Event → List Event → Prop
  | .dispatch p t, log => (∃ t₀, lastScan log = some t₀ ∧ (0 < highest t₀ →
      (t p).priority = highest t₀ ∧ turns log < clkPerPrio (highest t₀))) ∧ ¬ UsedUp p log
  | _, _ => True

def LedgerOk : List Event → Prop
  | [] => True
  | e :: log => (MovedOk e log ∧ WithinOk e log) ∧ LedgerOk log

theorem LedgerOk.of_append {newer log : List Event} (h : LedgerOk (newer ++ log)) :
    LedgerOk log := by
  induction newer with
  | nil => exact h
  | cons e newer ih => exact ih h.2

/-- After a clear ledger anything may happen but a wrong dispatch. -/
theorem MovedOk.of_clear {e : Event} {log : List Event} (h : Clear log) : MovedOk e log := by
  cases log with
  | nil => trivial
  | cons e' log =>
    cases e' with
    | dispatch p t => exact fun hused ↦ absurd hused h
    | _ => trivial

/-- Without a scan a quantum stays used up. -/
theorem usedUp_of_append {p : Slot} {t : Table} {between older : List Event}
    (hused : QuantumUsed t p) (hscan : ∀ t₁, .scan t₁ ∉ between) :
    UsedUp p (between ++ .dispatch p t :: older) := by
  induction between with
  | nil => exact .inl ⟨rfl, hused⟩
  | cons e between ih =>
    have hrest := ih fun t₁ hmem ↦ hscan t₁ (List.mem_cons_of_mem e hmem)
    cases e with
    | scan t₁ => exact absurd List.mem_cons_self (hscan t₁)
    | dispatch q t' => exact .inr hrest
    | _ => exact hrest

/-- The two ways to say that the quanta are enforced agree. -/
theorem LedgerOk.enforced {log : List Event} (h : LedgerOk log) : QuantumEnforced log where
  within newer p t older hlog := by
    rw [hlog] at h
    obtain ⟨⟨-, ⟨t₀, hscan, hlevel⟩, -⟩, -⟩ := h.of_append
    exact ⟨t₀, hscan, hlevel⟩
  moved newer e p t older hlog := by
    rw [hlog] at h
    exact h.of_append.1.1
  rescan newer p t' between t older hlog hused := by
    rw [hlog, List.append_assoc] at h
    obtain ⟨⟨-, -, hnot⟩, -⟩ := h.of_append
    by_contra! hscan
    exact hnot (usedUp_of_append hused hscan)

/-! ### The scheduler's code -/

variable {t t₀ : Table} {log : List Event} {p : Slot} {maxPri : ℕ} {cou : Option ℤ}

/-- Process `p` has the processor at level `maxPri`, and the count of its slice is that of its
ticks. -/
structure Slice (pt : Point) (p : Slot) (maxPri : ℕ) (cou : Option ℤ) : Prop where
  log : ∃ t older, pt.log = .dispatch p t :: older ∧ (QuantumUsed t p ↔ QuantumUsed pt.table p) ∧
    ∀ q, UsedUp q older → q < p
  scan : ∃ t₀, lastScan pt.log = some t₀ ∧ maxPri = highest t₀
  level : (pt.table p).priority = maxPri
  turnsLe : 0 < maxPri → turns pt.log ≤ (pt.table p).ticks maxPri
  inLoop : ∀ c, cou = some c → 0 < maxPri ∧ c + 1 = (pt.table p).ticks maxPri
  atZero : cou = none → maxPri = 0

/-- What holds wherever the scheduler stops. -/
structure QuantumInv (pt : Point) : Prop where
  ledger : LedgerOk pt.log
  idle : pt.sched = .idle → Clear pt.log
  running : ∀ p maxPri cou, pt.sched = .running p maxPri cou → Slice pt p maxPri cou

/-- The dispatch of a process that is within its quantum. -/
theorem quantumInv_swtch (hlog : LedgerOk log) (hclear : Clear log)
    (hscan : lastScan log = some t₀) (hmax : maxPri = highest t₀)
    (hlevel : (t p).priority = maxPri)
    (hturns : 0 < maxPri → turns log ≤ (t p).ticks maxPri ∧ (t p).ticks maxPri < clkPerPrio maxPri)
    (hused : ∀ q, UsedUp q log → q < p)
    (hcou : ∀ c, cou = some c → 0 < maxPri ∧ c = (t p).ticks maxPri)
    (hnone : cou = none → maxPri = 0) : QuantumInv (swtch t log p maxPri cou) := by
  have hpriority := (dispatch_priority_self t p).trans hlevel
  have hticks : 0 < maxPri → (dispatch t p p).ticks maxPri = (t p).ticks maxPri + 1 := fun hpos ↦ by
    obtain ⟨hle, hlt⟩ := hturns hpos
    rw [dispatch_ticks_self, hlevel, Function.update_self]
    exact incr_of_lt ((Int.natCast_nonneg _).trans hle) hlt
  refine ⟨⟨⟨.of_clear hclear, ⟨t₀, hscan, fun hpos ↦ ?_⟩, fun hu ↦ (hused p hu).ne rfl⟩, hlog⟩,
    nofun, ?_⟩
  · subst hmax
    exact ⟨hpriority, Int.ofNat_lt.1 ((hturns hpos).1.trans_lt (hturns hpos).2)⟩
  · rintro p' maxPri' cou' ⟨⟩
    refine ⟨⟨_, log, rfl, Iff.rfl, hused⟩, ⟨t₀, hscan, hmax⟩, hpriority, fun hpos ↦ ?_,
      fun c hc ↦ ?_, hnone⟩
    · show ((turns log + 1 : ℕ) : ℤ) ≤ (dispatch t p p).ticks maxPri
      rw [hticks hpos, Nat.cast_succ]
      exact Int.add_le_add_right (hturns hpos).1 1
    · obtain ⟨hpos, rfl⟩ := hcou c hc
      exact ⟨hpos, (hticks hpos).symm⟩

/-- The rest of a pass over entries that have not had their turn. -/
theorem quantumInv_pass {ps : List Slot} (ht : t.Bookkept) (hlog : LedgerOk log)
    (hclear : Clear log) (hscan : lastScan log = some t₀) (hmax : maxPri = highest t₀)
    (hused : ∀ q, UsedUp q log → ∀ r ∈ ps, q < r) : QuantumInv (pass maxPri ps t log) := by
  have hselect : ∀ q, LedgerOk (.select q :: log) := fun q ↦ ⟨⟨.of_clear hclear, trivial⟩, hlog⟩
  obtain ⟨-, h⟩ | ⟨p, hfind, -, hlevel, ⟨hpos, hlt, h⟩ | ⟨hzero, h⟩⟩ :=
      pass_cases ht maxPri ps log <;>
    rw [h]
  · exact ⟨hlog, fun _ ↦ hclear, nofun⟩
  · obtain ⟨hpriority, -⟩ := refill_self t p
    have hn : 0 ≤ (refill t p p).ticks maxPri := by
      have hnonneg := ht.refill_nonneg (p := p) (by rwa [hpriority, hlevel])
      rwa [hpriority, hlevel] at hnonneg
    refine quantumInv_swtch (hselect p) trivial hscan hmax (hpriority.trans hlevel)
      (fun _ ↦ ⟨hn, hlt⟩)
      (fun q hu ↦ hused q hu p (List.mem_of_find?_eq_some hfind)) ?_ nofun
    rintro c ⟨⟩
    exact ⟨hpos, rfl⟩
  · exact quantumInv_swtch (hselect p) trivial hscan hmax hlevel
      (fun hpos ↦ absurd hzero hpos.ne')
      (fun q hu ↦ hused q hu p (List.mem_of_find?_eq_some hfind)) nofun fun _ ↦ hzero

/-- The pass goes upwards. -/
theorem lt_of_mem_slotsAfter {p q : Slot} (hq : q ∈ slotsAfter p) : p < q := by
  rw [slotsAfter, List.mem_drop_iff_getElem] at hq
  obtain ⟨i, hi, rfl⟩ := hq
  rw [List.getElem_finRange, Fin.lt_def]
  show p.val < p.val + 1 + i
  omega

/-- The scheduler goes on after the process that ran has changed the table but not its counts. A
process that has used its quantum must not be RUNNABLE then. -/
theorem quantumInv_resume {pt : Point} (h : QuantumInv pt) (ht : t.Bookkept)
    (hkept : ∀ p maxPri cou, pt.sched = .running p maxPri cou → (pt.table p).Kept (t p))
    (hlate : ∀ p maxPri cou, pt.sched = .running p maxPri (some cou) → QuantumUsed pt.table p →
      (t p).state ≠ .runnable) : QuantumInv (resume t pt.log pt.sched) := by
  rcases hsched : pt.sched with - | ⟨p, maxPri, cou⟩
  · exact ⟨h.ledger, fun _ ↦ h.idle hsched, fun _ _ _ hrun ↦ by cases hrun⟩
  · have hslice := h.running p maxPri cou hsched
    have hp := hkept p maxPri cou hsched
    have hlevel : (t p).priority = maxPri := hp.priority.trans hslice.level
    have hquantum : QuantumUsed t p ↔ QuantumUsed pt.table p := by
      rw [QuantumUsed, QuantumUsed, hp.priority, hp.ticks]
    obtain ⟨⟨t', older, hlog, hsame, hused⟩, ⟨t₀, hscan, hmax⟩, -, hturns, hcou, hzero⟩ := hslice
    have hpassed : ∀ q, UsedUp q pt.log → ∀ r ∈ slotsAfter p, q < r := by
      intro q hu r hr
      rw [hlog] at hu
      obtain ⟨rfl, -⟩ | hu := hu
      · exact lt_of_mem_slotsAfter hr
      · exact (hused q hu).trans (lt_of_mem_slotsAfter hr)
    have hclear (hno : ¬ QuantumUsed pt.table p) : Clear pt.log := by
      rw [hlog]
      exact fun hu ↦ hno (hsame.1 hu)
    cases cou with
    | none =>
      have hno : ¬ QuantumUsed pt.table p := fun hu ↦ by
        have hpos := hu.1
        rw [← hp.priority, hlevel, hzero rfl] at hpos
        exact lt_irrefl 0 hpos
      exact quantumInv_pass ht h.ledger (hclear hno) hscan hmax hpassed
    | some c =>
      obtain ⟨hpos, hc⟩ := hcou c rfl
      rw [resume]
      split_ifs with hu
      · -- the slice ends, because the process is not RUNNABLE
        have hnot : ¬ SliceGoesOn (demote t p) p (c + 1) := fun hgo ↦
          hlate p maxPri c hsched (hquantum.1 hu) ((demote_scheduled t p p).2.symm.trans hgo.2)
        have hdemote : LedgerOk (.demote p :: pt.log) := by
          refine ⟨⟨?_, trivial⟩, h.ledger⟩
          rw [hlog]
          exact fun _ ↦ rfl
        rw [nextTurn, if_neg hnot]
        exact quantumInv_pass ht.demote hdemote trivial hscan hmax hpassed
      · have hno : ¬ QuantumUsed pt.table p := fun hu' ↦ hu (hquantum.2 hu')
        rw [nextTurn]
        split_ifs
        · have hticks : (t p).ticks maxPri = (pt.table p).ticks maxPri := by rw [hp.ticks]
          have hlt : (t p).ticks maxPri < clkPerPrio maxPri := by
            by_contra! hge
            refine hu ⟨by rwa [hlevel], ?_⟩
            rwa [hlevel]
          refine quantumInv_swtch h.ledger (hclear hno) hscan hmax hlevel
            (fun hpos ↦ ⟨(hturns hpos).trans hticks.ge, hlt⟩) (fun q hq ↦ ?_) ?_ (by simp)
          · rw [hlog] at hq
            obtain ⟨rfl, hq⟩ | hq := hq
            · exact absurd (hsame.1 hq) hno
            · exact hused q hq
          · rintro _ ⟨⟩
            exact ⟨hpos, hc.trans hticks.symm⟩
        · exact quantumInv_pass ht h.ledger (hclear hno) hscan hmax hpassed

/-! ### Runs -/

namespace Machine

variable {m m' : Machine} {a : Action}

/-- A step without a late yield keeps the invariant, -/
theorem quantumInv_move (hsane : m.Sane) (hm : m.point.Bookkept ∧ QuantumInv m.point)
    (hlate : NoLateYield m a) (h : Move m a m') : m'.point.Bookkept ∧ QuantumInv m'.point := by
  refine ⟨bookkept_move hsane hm.1 h, ?_⟩
  obtain ⟨hbook, hm⟩ := hm
  cases h with
  | scan hidle _ =>
    exact quantumInv_pass hbook.entry ⟨⟨.of_clear (hm.idle hidle), trivial⟩, hm.ledger⟩ trivial rfl
      rfl fun q hfalse ↦ hfalse.elim
  | stay k hframe _ _ =>
    refine ⟨hm.ledger, hm.idle, fun p maxPri cou hsched ↦ ?_⟩
    have hkept : (m.point.table p).Kept (k.ptable p) := hframe.kept (hsane.inUse hsched)
    obtain ⟨⟨t, older, hlog, hsame, hused⟩, hscan, hlevel, hturns, hcou, hzero⟩ :=
      hm.running p maxPri cou hsched
    rw [← hkept.ticks] at hturns hcou
    refine ⟨⟨t, older, hlog, hsame.trans ?_, hused⟩, hscan, hkept.priority.trans hlevel, hturns,
      hcou, hzero⟩
    show QuantumUsed m.point.table p ↔ QuantumUsed k.ptable p
    rw [QuantumUsed, QuantumUsed, hkept.priority, hkept.ticks]
  | leave p maxPri cou k hsched _ hframe _ hstate =>
    refine quantumInv_resume hm (bookkept_frame hbook.entry hframe)
      (fun _ _ _ hsched' ↦ hframe.kept (hsane.inUse hsched')) fun p' maxPri' cou' hsched' hu ↦ ?_
    have hyield := hlate p' maxPri' cou' hsched' hu
    cases hsched.symm.trans hsched'
    exact hstate hyield

/-- so it holds in every run of such steps. -/
theorem quantumInv_of_reachable (hm : (system.restrict NoLateYield).Reachable m) :
    m.Sane ∧ m.point.Bookkept ∧ QuantumInv m.point := by
  refine invariant_of_move_restrict (I := fun m ↦ m.point.Bookkept ∧ QuantumInv m.point)
    ⟨bookkept_boot, trivial, fun _ ↦ trivial, nofun⟩ (fun m a m' hsane hI hlate h ↦ ?_) hm
  exact quantumInv_move hsane hI hlate h

/-- The process that runs gives up the processor: it moves down to the next level, and the pass goes
on behind it. -/
def MovesDown (m : Machine) (p : Slot) (maxPri : ℕ) (m' : Machine) : Prop :=
  ∃ k : Kernel, m' = { m with kernel := k }.atPoint
      (pass maxPri (slotsAfter p) (demote k.ptable p) (.demote p :: m.log)) ∧
    (k.ptable p).priority = maxPri ∧ (demote k.ptable p p).priority = maxPri - 1

/-- A process that has used its quantum keeps the processor or moves down. -/
theorem movesDown_of_move {p : Slot} {maxPri : ℕ} {c : ℤ} (hsane : m.Sane) (hm : QuantumInv m.point)
    (hsched : m.sched = .running p maxPri (some c)) (hused : QuantumUsed m.kernel.ptable p)
    (hlate : NoLateYield m a) (h : Move m a m') :
    (m'.sched = m.sched ∧ m'.log = m.log) ∨ MovesDown m p maxPri m' := by
  cases h with
  | scan hidle _ => cases hidle.symm.trans hsched
  | stay k _ _ _ => exact .inl ⟨rfl, rfl⟩
  | leave p' maxPri' cou k hsched' _ hframe _ hstate =>
    cases hsched.symm.trans hsched'
    have hkept := hframe.kept (hsane.inUse hsched)
    have hlevel : (k.ptable p).priority = maxPri :=
      hkept.priority.trans (hm.running p maxPri _ hsched).level
    have hused' : QuantumUsed k.ptable p := by
      rwa [QuantumUsed, hkept.priority, hkept.ticks]
    have hnot : ¬ SliceGoesOn (demote k.ptable p) p (c + 1) := fun hgo ↦
      hstate (hlate p maxPri c hsched hused) ((demote_scheduled k.ptable p p).2.symm.trans hgo.2)
    refine .inr ⟨k, ?_, hlevel, ?_⟩
    · rw [Machine.leave, hsched, resume, if_pos hused', nextTurn, if_neg hnot]
    · rw [(demote_self k.ptable p).1, hlevel]

end Machine

/-- **The quantum is enforced** in every run in which no process yields when it has used its
quantum: the ledger shows it, and a process that has used its quantum moves down when it gives up
the processor. -/
theorem quantum_enforced {m : Machine} (hm : (system.restrict NoLateYield).Reachable m) :
    QuantumEnforced m.log ∧
      ∀ p maxPri c, m.sched = .running p maxPri (some c) → QuantumUsed m.kernel.ptable p →
        ∀ a m', (system.restrict NoLateYield).next m a m' →
          (m'.sched = m.sched ∧ m'.log = m.log) ∨ m.MovesDown p maxPri m' := by
  obtain ⟨hsane, -, hinv⟩ := Machine.quantumInv_of_reachable hm
  refine ⟨hinv.ledger.enforced, ?_⟩
  rintro p maxPri c hsched hused a m' ⟨hlate, hstep⟩
  exact Machine.movesDown_of_move hsane hinv hsched hused hlate (Machine.move_of_step hsane hstep)

/-- The child has moved down once it has used its quantum. -/
theorem twoProcesses_quantum_enforced :
    ∃ m : Machine, (m.kernel.ptable child).priority = 2 ∧ QuantumEnforced m.log := by
  obtain ⟨m, hm, hlevel⟩ := System.Reachable.exists_of_run (l := twoProcesses)
    (p := fun m ↦ decide ((m.kernel.ptable child).priority = 2))
    (System.next_of_checked (S := system) (P := NoLateYield) (f := Machine.step) (e := .blocked)
      fun _ _ _ hstep ↦ hstep) (.init rfl) (by decide +kernel)
  exact ⟨m, of_decide_eq_true hlevel, (quantum_enforced hm).1⟩

/-- The first process yields until its first quantum is used up. -/
def yieldEight : List Action := .schedule :: List.replicate 8 .yield

/-- **The quantum is overrun.** The slice goes on at level two. -/
theorem quantum_overrun : ¬ ∀ m, system.Reachable m → QuantumEnforced m.log := by
  intro h
  obtain ⟨m, hm, hcheck⟩ := System.Reachable.exists_of_run (S := system) (f := Machine.step)
    (p := fun m ↦ match m.log with
      | .dispatch p t :: older =>
        match lastScan older with
        | some t₀ => decide (0 < highest t₀ ∧ (t p).priority ≠ highest t₀)
        | none => false
      | _ => false)
    (fun _ _ _ hstep ↦ hstep) (l := yieldEight) (.init rfl : system.Reachable boot)
    (by decide +kernel)
  split at hcheck
  · next p t older hlog =>
    obtain ⟨t₀, hscan, hlevel⟩ := (h m hm).within [] p t older hlog
    rw [hscan] at hcheck
    obtain ⟨hpos, hne⟩ := of_decide_eq_true hcheck
    exact hne (hlevel hpos).1
  · cases hcheck

end Mlfq
