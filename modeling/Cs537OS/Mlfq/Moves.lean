import Cs537OS.Mlfq.Scheduler

/-!
# What a step of the MLFQ kernel does

Every step is one of three moves: the scheduler starts a pass, the process that runs changes the
kernel and goes on, or it changes the kernel and switches back to the scheduler.

* `Machine.move_of_step` — the inversion: which move a step is, and that the change of the kernel is
  a `Kernel.Frame`, so that every entry keeps its level and its counts unless it becomes a new
  process;
* `Machine.Sane.move` — a step keeps the process that runs RUNNING, and an entry that a `fork` fills
  in an EMBRYO of that `fork` alone.

Invariants of runs are proved from these and from what the scheduler's own code does to a table.
-/

open Xv6

namespace Mlfq

/-! ### What the scheduler does to an entry -/

/-- The scheduler does not change who an entry belongs to, and only makes RUNNABLE entries
RUNNING. -/
def Proc.Scheduled (a b : Proc) : Prop :=
  b.pid = a.pid ∧ (b.state = a.state ∨ a.state = .runnable ∧ b.state = .running)

theorem Proc.Scheduled.refl (a : Proc) : a.Scheduled a := ⟨rfl, .inl rfl⟩

/-- Only a RUNNABLE process gets another state from the scheduler. -/
theorem Proc.Scheduled.state_eq {a b : Proc} (h : a.Scheduled b) (ha : a.state ≠ .runnable) :
    b.state = a.state :=
  h.2.resolve_right fun hrun ↦ ha hrun.1

theorem boost_scheduled (a : Proc) : (boost a).pid = a.pid ∧ (boost a).state = a.state := by
  rw [boost]
  dsimp only
  split_ifs <;> exact ⟨rfl, rfl⟩

variable {t : Table} {log : List Event} {p : Slot} {maxPri : ℕ}

/-- What `dispatch` does to the other entries. -/
theorem dispatch_of_ne {q : Slot} (hq : q ≠ p) : dispatch t p q = boost (t q) := by
  rw [dispatch, Table.modify_of_ne hq, Table.modify_of_ne hq]

/-- The entry that is dispatched, as the boost loop leaves it. -/
def boostedSelf (a : Proc) : Proc :=
  boost { a with waitTicks := Function.update a.waitTicks a.priority (-1) }

/-- The process that is dispatched: it has gone through the boost loop as the one that does not
wait, gets a tick and runs. -/
theorem dispatch_self : dispatch t p p =
    { boostedSelf (t p) with
      ticks := Function.update (boostedSelf (t p)).ticks (boostedSelf (t p)).priority
        (incr ((boostedSelf (t p)).ticks (boostedSelf (t p)).priority))
      inuse := true
      state := .running } := by
  rw [dispatch, Table.modify_self, Table.modify_self]
  rfl

/-- An entry that has just started to wait is not raised. -/
theorem boost_priority {a : Proc} (ha : a.waitTicks a.priority = -1) :
    (boost a).priority = a.priority := by
  have hnot : ¬ (a.priority < 3 ∧
      Function.update a.waitTicks a.priority (a.waitTicks a.priority + 1) a.priority ≥
        clkWait a.priority) := by
    rintro ⟨hlt, hwait⟩
    rw [Function.update_self, ha] at hwait
    have hpos : 0 < clkWait a.priority := by
      obtain h | h | h : a.priority = 0 ∨ a.priority = 1 ∨ a.priority = 2 := by omega
      all_goals
        rw [h]
        decide
    omega
  rw [boost]
  dsimp only
  rw [if_neg hnot]

theorem boost_ticks (a : Proc) : (boost a).ticks = a.ticks := by
  rw [boost]
  dsimp only
  split_ifs <;> rfl

/-- The process that is dispatched keeps its level. -/
theorem dispatch_priority_self (t : Table) (p : Slot) :
    (dispatch t p p).priority = (t p).priority := by
  rw [dispatch_self]
  exact boost_priority (Function.update_self _ _ _)

/-- It gets a tick at this level. -/
theorem dispatch_ticks_self (t : Table) (p : Slot) :
    (dispatch t p p).ticks =
      Function.update (t p).ticks (t p).priority (incr ((t p).ticks (t p).priority)) := by
  have hpriority : (boostedSelf (t p)).priority = (t p).priority :=
    boost_priority (Function.update_self _ _ _)
  have hticks : (boostedSelf (t p)).ticks = (t p).ticks := boost_ticks _
  rw [dispatch_self]
  dsimp only
  rw [hpriority, hticks]

theorem dispatch_state_self (t : Table) (p : Slot) : (dispatch t p p).state = .running := by
  rw [dispatch_self]

/-- A dispatch makes a RUNNABLE process run, and changes no other state. -/
theorem dispatch_scheduled (hp : (t p).state = .runnable) (q : Slot) :
    (t q).Scheduled (dispatch t p q) := by
  rcases eq_or_ne q p with rfl | hq
  · refine ⟨?_, .inr ⟨hp, dispatch_state_self t q⟩⟩
    rw [dispatch_self]
    exact (boost_scheduled _).1
  · rw [dispatch_of_ne hq]
    exact ⟨(boost_scheduled _).1, .inl (boost_scheduled _).2⟩

theorem refill_scheduled (t : Table) (p q : Slot) :
    (refill t p q).pid = (t q).pid ∧ (refill t p q).state = (t q).state := by
  rw [refill]
  split_ifs
  · rcases eq_or_ne q p with rfl | hq
    · rw [Table.modify_self]
      exact ⟨rfl, rfl⟩
    · rw [Table.modify_of_ne hq]
      exact ⟨rfl, rfl⟩
  · exact ⟨rfl, rfl⟩

theorem demote_scheduled (t : Table) (p q : Slot) :
    (demote t p q).pid = (t q).pid ∧ (demote t p q).state = (t q).state := by
  rw [demote]
  rcases eq_or_ne q p with rfl | hq
  · rw [Table.modify_self]
    exact ⟨rfl, rfl⟩
  · rw [Table.modify_of_ne hq]
    exact ⟨rfl, rfl⟩

/-- What holds of every point that the scheduler comes to from the table `t`. -/
structure Point.From (t : Table) (pt : Point) : Prop where
  scheduled : ∀ q, (t q).Scheduled (pt.table q)
  running : ∀ p maxPri cou, pt.sched = .running p maxPri cou → (pt.table p).state = .running

/-- What has changed no pid and no state may come before. -/
theorem Point.From.of_same {t' : Table} {pt : Point} (h : Point.From t' pt)
    (hsame : ∀ q, (t' q).pid = (t q).pid ∧ (t' q).state = (t q).state) : Point.From t pt := by
  refine ⟨fun q ↦ ?_, h.running⟩
  obtain ⟨hpid, hstate⟩ := hsame q
  have hq := h.scheduled q
  rw [Proc.Scheduled, hpid, hstate] at hq
  exact hq

/-- A dispatch comes from a table in which the process is RUNNABLE. -/
theorem swtch_from {cou : Option ℤ} (hp : (t p).state = .runnable) :
    Point.From t (swtch t log p maxPri cou) := by
  refine ⟨dispatch_scheduled hp, ?_⟩
  rintro p' maxPri' cou' ⟨⟩
  exact dispatch_state_self t p

/-- A pass changes states only by its dispatch, -/
theorem pass_from (maxPri : ℕ) (ps : List Slot) (t : Table) (log : List Event) :
    Point.From t (pass maxPri ps t log) := by
  induction ps generalizing t log with
  | nil => exact ⟨fun q ↦ .refl _, nofun⟩
  | cons p ps ih =>
    rw [pass]
    split_ifs with hp hpos
    · have hrefill := refill_scheduled t p
      dsimp only
      split_ifs with hgo
      · exact (swtch_from hgo.2).of_same hrefill
      · exact (ih _ _).of_same hrefill
    · exact swtch_from hp.1
    · exact ih _ _

/-- and so does the next turn of a slice, -/
theorem nextTurn_from (t : Table) (log : List Event) (p : Slot) (maxPri : ℕ) (cou : ℤ) :
    Point.From t (nextTurn t log p maxPri cou) := by
  rw [nextTurn]
  split_ifs with hgo
  · exact swtch_from hgo.2
  · exact pass_from _ _ _ _

/-- and all that the scheduler does when a process has come back. -/
theorem resume_from (t : Table) (log : List Event) (s : Sched) :
    Point.From t (resume t log s) := by
  rcases s with - | ⟨p, maxPri, _ | cou⟩
  · exact ⟨fun q ↦ .refl _, nofun⟩
  · exact pass_from _ _ _ _
  · rw [resume]
    split_ifs
    · exact (nextTurn_from _ _ _ _ _).of_same (demote_scheduled t p)
    · exact nextTurn_from _ _ _ _ _

/-! ### Moves -/

/-- An entry that a `fork` fills in is an EMBRYO, and no other `fork` fills it in. -/
structure Kernel.ForkInv (k : Kernel) : Prop where
  embryo : ∀ p np, k.call p = .fork np → (k.ptable np).state = .embryo
  unique : ∀ p q np, k.call p = .fork np → k.call q = .fork np → p = q

/-- The calls of `fork` go on as long as no new one starts and the children stay EMBRYOs. -/
theorem Kernel.ForkInv.mono {k k' : Kernel} (h : k.ForkInv)
    (hcall : ∀ q np, k'.call q = .fork np → k.call q = .fork np)
    (hstate : ∀ q np, k'.call q = .fork np → (k.ptable np).state = .embryo →
      (k'.ptable np).state = .embryo) : k'.ForkInv where
  embryo q np hq := hstate q np hq (h.embryo q np (hcall q np hq))
  unique p q np hp hq := h.unique p q np (hcall p np hp) (hcall q np hq)

/-- A call that leaves the settled entries alone does not disturb them. -/
theorem Kernel.ForkInv.quiet {k k' : Kernel} (h : k.ForkInv) (hk : Kernel.Quiet k k') :
    k'.ForkInv := by
  refine h.mono (fun q np hq ↦ ?_) fun _ np _ hnp ↦ ?_
  · rwa [hk.call] at hq
  · rw [hk.state np (.inl hnp), hnp]

/-- A process that runs changes its own state. -/
theorem Kernel.ForkInv.modify {k : Kernel} {p : Slot} {f : Proc → Proc} (h : k.ForkInv)
    (hp : (k.ptable p).state = .running) : (k.modify p f).ForkInv := by
  refine h.mono (fun q np hq ↦ hq) fun q np _ hnp ↦ ?_
  rw [Kernel.modify_ptable_of_ne, hnp]
  rintro rfl
  cases hp.symm.trans hnp

/-- A call that is not a `fork` begins or ends. -/
theorem Kernel.ForkInv.setCall {k : Kernel} {p : Slot} {c : Call} (h : k.ForkInv)
    (hc : ∀ np, c ≠ .fork np) : (k.setCall p c).ForkInv := by
  refine h.mono (fun q np hq ↦ ?_) fun _ _ _ hnp ↦ hnp
  change Function.update k.call p c q = .fork np at hq
  rcases eq_or_ne q p with rfl | hne
  · rw [Function.update_self] at hq
    exact absurd hq (hc np)
  · rwa [Function.update_of_ne hne] at hq

/-- A new `fork` has an entry of its own, -/
theorem Kernel.ForkInv.fork {k : Kernel} {p : Slot} {kstack : Bool} (h : k.ForkInv) :
    (k.fork p kstack).ForkInv := by
  have hkeep : ∀ np, (k.ptable np).state = .embryo →
      ((k.fork p kstack).ptable np).state = .embryo := by
    intro np hnp
    rw [Kernel.fork_ptable, Kernel.allocproc_of_settled (.inl hnp), hnp]
  refine ⟨fun q np hq ↦ ?_, fun q r np hq hr ↦ ?_⟩
  · rcases Kernel.fork_call hq with hq | ⟨-, -, hnp⟩
    · exact hkeep np (h.embryo q np hq)
    · exact hnp
  · -- the new entry was UNUSED, so it is not that of an older `fork`
    rcases Kernel.fork_call hq with hq' | ⟨hqp, hunused, -⟩ <;>
      rcases Kernel.fork_call hr with hr' | ⟨hrp, hunused', -⟩
    · exact h.unique q r np hq' hr'
    · cases hunused'.symm.trans (h.embryo q np hq')
    · cases hunused.symm.trans (h.embryo r np hr')
    · exact hqp.trans hrp.symm

/-- and one that has made its child is over. -/
theorem Kernel.ForkInv.forkCopy {k : Kernel} {p np : Slot} {copied : Bool} (h : k.ForkInv)
    (hp : k.call p = .fork np) : ((k.forkCopy p np copied).1.setCall p .forked).ForkInv := by
  refine h.mono (fun q c hq ↦ ?_) fun q c hq hc ↦ ?_ <;>
    change Function.update (k.forkCopy p np copied).1.call p .forked q = .fork c at hq <;>
    rcases eq_or_ne q p with rfl | hne
  · rw [Function.update_self] at hq
    cases hq
  · rwa [Function.update_of_ne hne, Kernel.forkCopy_call] at hq
  · rw [Function.update_self] at hq
    cases hq
  · rw [Function.update_of_ne hne, Kernel.forkCopy_call] at hq
    have hcnp : c ≠ np := by
      rintro rfl
      exact hne (h.unique q p c hq hp)
    show ((k.forkCopy p np copied).1.ptable c).state = .embryo
    rw [Kernel.forkCopy_ptable_of_ne hcnp, hc]

/-- The kernel as process `p` leaves it when the action gives up the processor. -/
def Kernel.leftBy (k : Kernel) (p : Slot) : Action → Option Kernel
  | .yield => some (k.setState p .runnable)
  | .sleep a => some (k.sleep p (.addr a))
  | .exit => some (k.exit p)
  | .wait =>
    match k.wait p with
    | (_, some _) => none
    | (k', none) => some (k'.setCall p .wait)
  | _ => none

namespace Machine

/-- Where the scheduler stands in a machine. -/
def point (m : Machine) : Point := ⟨m.kernel.ptable, m.sched, m.log⟩

/-- The process that the scheduler waits for is RUNNING. -/
structure Sane (m : Machine) : Prop where
  running : ∀ p maxPri cou, m.sched = .running p maxPri cou → (m.kernel.ptable p).state = .running
  fork : m.kernel.ForkInv

/-- What a step is. -/
inductive Move (m : Machine) (a : Action) : Machine → Prop where
  /-- The scheduler starts a pass. -/
  | scan : m.sched = .idle → a = .schedule →
      Move m a (m.atPoint (Mlfq.schedule m.kernel.ptable m.log))
  /-- Nobody switches. -/
  | stay (k : Kernel) : Kernel.Frame m.kernel k → k.ForkInv →
      (∀ p maxPri cou, m.sched = .running p maxPri cou → (k.ptable p).state = .running) →
      Move m a { m with kernel := k }
  /-- The process that runs switches back to the scheduler. -/
  | leave (p : Slot) (maxPri : ℕ) (cou : Option ℤ) (k : Kernel) :
      m.sched = .running p maxPri cou → m.kernel.leftBy p a = some k → Kernel.Frame m.kernel k →
      k.ForkInv → (a ≠ .yield → (k.ptable p).state ≠ .runnable) → Move m a (m.leave k)

variable {m m' : Machine} {k : Kernel} {p : Slot} {maxPri : ℕ} {cou : Option ℤ} {a : Action}

/-- The process that the scheduler waits for is in use. -/
theorem Sane.inUse (hm : m.Sane) (hsched : m.sched = .running p maxPri cou) :
    (m.kernel.ptable p).state ≠ .unused := by
  rw [hm.running p maxPri cou hsched]
  exact nofun

/-- The process that runs stays on the processor. -/
theorem Move.stayOf (hsched : m.sched = .running p maxPri cou) (hframe : Kernel.Frame m.kernel k)
    (hfork : k.ForkInv) (hp : (k.ptable p).state = .running) : Move m a { m with kernel := k } := by
  refine .stay k hframe hfork fun p' maxPri' cou' hsched' ↦ ?_
  cases hsched.symm.trans hsched'
  exact hp

/-- The move of a step that a process takes. -/
theorem move_of_stepOf (hm : m.Sane) (hsched : m.sched = .running p maxPri cou)
    (h : m.stepOf p a = .ok m') : Move m a m' := by
  have hrunning := hm.running p maxPri cou hsched
  have hinuse := hm.inUse hsched
  have hquiet {k : Kernel} (hk : Kernel.Quiet m.kernel k) : (k.ptable p).state = .running :=
    (hk.state p (.inr hrunning)).trans hrunning
  cases a with
  | schedule => cases h
  | wakeup c =>
    cases h
    have hk : Kernel.Quiet m.kernel _ := Kernel.wakeup1_quiet c
    exact .stayOf hsched (.of_kept rfl hk.kept) (hm.fork.quiet hk) (hquiet hk)
  | yield =>
    cases h
    exact .leave p maxPri cou _ hsched rfl (.of_kept rfl (Kernel.setState_kept hinuse _))
      (hm.fork.modify hrunning) fun hne ↦ absurd rfl hne
  | kill pid =>
    cases h
    have hk : Kernel.Quiet m.kernel _ := Kernel.kill_quiet pid
    exact .stayOf hsched (.of_kept hk.nextpid hk.kept) (hm.fork.quiet hk) (hquiet hk)
  | sleep b =>
    rw [Machine.stepOf] at h
    split_ifs at h
    cases h
    refine .leave p maxPri cou _ hsched rfl (.of_kept rfl (Kernel.sleep_kept hinuse _))
      (hm.fork.modify hrunning) fun _ ↦ ?_
    rw [Kernel.sleep, Kernel.modify_ptable_self]
    exact nofun
  | fork kstack =>
    rw [Machine.stepOf] at h
    split_ifs at h
    cases h
    refine .stayOf hsched (Kernel.fork_frame kstack) hm.fork.fork ?_
    rw [Kernel.fork_ptable, Kernel.allocproc_of_settled (.inr hrunning), hrunning]
  | forkCopy copied =>
    rw [Machine.stepOf] at h
    split at h
    · next np hcall =>
      cases h
      -- the child is the EMBRYO of this call, so it is not the process that runs
      have hembryo := hm.fork.embryo p np hcall
      have hnp : (m.kernel.ptable np).state ≠ .unused := by
        rw [hembryo]
        exact nofun
      have hne : p ≠ np := by
        rintro rfl
        cases hrunning.symm.trans hembryo
      refine .stayOf hsched
        (.of_kept (Kernel.forkCopy_nextpid np copied) (Kernel.forkCopy_kept hnp copied))
        (hm.fork.forkCopy hcall) ?_
      show ((m.kernel.forkCopy p np copied).1.ptable p).state = .running
      rw [Kernel.forkCopy_ptable_of_ne hne, hrunning]
    · cases h
  | forkReturn =>
    rw [Machine.stepOf] at h
    split_ifs at h
    cases h
    exact .stayOf hsched (.of_kept rfl fun _ ↦ .refl _) (hm.fork.setCall fun _ ↦ nofun) hrunning
  | exit =>
    rw [Machine.stepOf] at h
    split_ifs at h
    cases h
    -- before the last assignment `exit` only wakes and passes children on
    obtain ⟨k', hk', hexit⟩ := Kernel.exit_eq (k := m.kernel) p
    have hp := hquiet hk'
    have hkept : ∀ q, (m.kernel.ptable q).Kept ((m.kernel.exit p).ptable q) := by
      rw [hexit]
      refine fun q ↦ (hk'.kept q).trans (Kernel.setState_kept ?_ _ q)
      rw [hp]
      exact nofun
    refine .leave p maxPri cou _ hsched rfl (.of_kept ?_ hkept) ?_ fun _ ↦ ?_ <;> rw [hexit]
    · exact hk'.nextpid
    · exact (hm.fork.quiet hk').modify hp
    · rw [Kernel.setState, Kernel.modify_ptable_self]
      exact nofun
  | wait =>
    rw [Machine.stepOf] at h
    split_ifs at h
    split at h
    · next k' pid hwait =>
      cases h
      have hk : Kernel.Quiet m.kernel k' :=
        ((Kernel.wait_cases hwait).resolve_right fun hr ↦ nomatch hr.1).2
      have hp : (k'.ptable p).state = .running := hquiet hk
      exact .stayOf hsched (.of_kept hk.nextpid hk.kept)
        ((hm.fork.quiet hk).setCall fun _ ↦ nofun) hp
    · next k' hwait =>
      cases h
      -- the scan has found no ZOMBIE, and the process sleeps
      obtain rfl : k' = m.kernel.sleep p (.proc p) :=
        ((Kernel.wait_cases hwait).resolve_left fun hr ↦ nomatch hr.1).2
      have hleft : m.kernel.leftBy p .wait =
          some ((m.kernel.sleep p (.proc p)).setCall p .wait) := by
        rw [Kernel.leftBy, hwait]
      refine .leave p maxPri cou _ hsched hleft (.of_kept rfl (Kernel.sleep_kept hinuse _))
        ((hm.fork.modify hrunning).setCall fun _ ↦ nofun) fun _ ↦ ?_
      show ((m.kernel.sleep p (.proc p)).ptable p).state ≠ .runnable
      rw [Kernel.sleep, Kernel.modify_ptable_self]
      exact nofun

/-- **What a step is.** -/
theorem move_of_step (hm : m.Sane) (h : m.step a = .ok m') : Move m a m' := by
  unfold Machine.step at h
  cases hsched : m.sched with
  | running p maxPri cou =>
    rw [hsched] at h
    exact move_of_stepOf hm hsched h
  | idle =>
    rw [hsched] at h
    cases a with
    | schedule =>
      cases h
      exact .scan hsched rfl
    | wakeup c =>
      cases h
      have hk : Kernel.Quiet m.kernel (m.kernel.wakeup1 c) := Kernel.wakeup1_quiet c
      rw [← hsched]
      exact .stay (m.kernel.wakeup1 c) (.of_kept rfl hk.kept) (hm.fork.quiet hk)
        fun _ _ _ hrun ↦ nomatch hsched.symm.trans hrun
    | _ => cases h

/-- The scheduler comes to a point from the table of the kernel. -/
theorem Sane.atPoint {pt : Point} (hfork : m.kernel.ForkInv)
    (hpt : Point.From m.kernel.ptable pt) : (m.atPoint pt).Sane := by
  refine ⟨hpt.running, hfork.mono (fun _ _ hq ↦ hq) fun _ np _ hnp ↦ ?_⟩
  have hstate : (pt.table np).state = (m.kernel.ptable np).state :=
    (hpt.scheduled np).state_eq (by rw [hnp]; exact nofun)
  exact hstate.trans hnp

/-- A step keeps the machine sane, -/
theorem Sane.move (hm : m.Sane) (h : Move m a m') : m'.Sane := by
  cases h with
  | scan => exact .atPoint hm.fork (pass_from _ _ _ _)
  | stay k _ hfork hrunning => exact ⟨hrunning, hfork⟩
  | leave p maxPri cou k _ _ _ hfork _ =>
    exact .atPoint (m := { m with kernel := k }) hfork (resume_from _ _ _)

/-- as it is at boot. -/
theorem sane_boot : boot.Sane := ⟨nofun, nofun, nofun⟩

/-- A property of machines that every move keeps holds in every run. When the steps of the run meet
a condition the moves may use it. -/
theorem invariant_of_move_restrict {P : Machine → Action → Prop} {I : Machine → Prop}
    (hboot : I boot) (hmove : ∀ m a m', m.Sane → I m → P m a → Move m a m' → I m')
    (hm : (system.restrict P).Reachable m) : m.Sane ∧ I m := by
  refine hm.invariant (I := fun m ↦ m.Sane ∧ I m) ?_
    fun m a m' ⟨hsane, hI⟩ hnext ↦ ?_
  · rintro m rfl
    exact ⟨sane_boot, hboot⟩
  · obtain ⟨hP, hstep⟩ := hnext
    have h := move_of_step hsane hstep
    exact ⟨hsane.move h, hmove m a m' hsane hI hP h⟩

/-- **Invariants.** What holds at boot and is kept by every step of a sane machine holds in every
run. -/
theorem invariant_of_move {I : Machine → Prop} (hboot : I boot)
    (hmove : ∀ m a m', m.Sane → I m → Move m a m' → I m') (hm : system.Reachable m) :
    m.Sane ∧ I m :=
  invariant_of_move_restrict (P := fun _ _ ↦ True) hboot
    (fun m a m' hsane hI _ ↦ hmove m a m' hsane hI) (hm.restrict fun _ _ _ _ ↦ trivial)

end Machine

end Mlfq
