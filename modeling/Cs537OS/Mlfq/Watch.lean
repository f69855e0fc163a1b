import Cs537OS.Mlfq.Accounting

/-!
# What happens to an entry between two dispatches

The boost loop raises an entry by its count of waited ticks, and neither the counts nor the ledger
say what the entry did in the meantime. A `Watched` machine keeps the tables of its run: the table
that each step leaves, and for a step that dispatches a process the table that the scheduler finds
before it touches the counts (`Machine.dispatchAhead`).

* `Machine.course_of_step` — the inversion for entries: a step first calls the kernel, where an
  entry keeps its level and its counts and does not stop being RUNNABLE, or is given to a new
  process; then the scheduler may lower the process that comes back and dispatch one;
* `Machine.Course.ends` — so a property of entries that calls keep, and moves down, holds at the end
  of a step, or before its dispatch.
-/

open Xv6

namespace Mlfq

/-- What the history of a run records. -/
inductive Happening where
  /-- A step that dispatches nobody leaves this table. -/
  | seen (t : Table)
  /-- The scheduler has found this table and dispatches `p`. -/
  | dispatched (p : Slot) (t : Table)

/-- Whom the rest of a pass dispatches, and the table before the dispatch. -/
def passDispatch (maxPri : ℕ) : List Slot → Table → Option (Slot × Table)
  | [], _ => none
  | p :: ps, t =>
    if (t p).state = .runnable ∧ (t p).priority = maxPri then
      if (t p).priority > 0 then
        let t' := refill t p
        if SliceGoesOn t' p ((t' p).ticks (t' p).priority) then
          some (p, t')
        else
          passDispatch maxPri ps t'
      else
        some (p, t)
    else
      passDispatch maxPri ps t

/-- The table when process `p` has come back in its slice. -/
def comeBack (t : Table) (p : Slot) : Table := if QuantumUsed t p then demote t p else t

/-- Whom the scheduler dispatches when the process it has waited for has come back. -/
def resumeDispatch (t : Table) : Sched → Option (Slot × Table)
  | .idle => none
  | .running p maxPri none => passDispatch maxPri (slotsAfter p) t
  | .running p maxPri (some cou) =>
    if SliceGoesOn (comeBack t p) p (cou + 1) then
      some (p, comeBack t p)
    else
      passDispatch maxPri (slotsAfter p) (comeBack t p)

/-- Whom a step dispatches, and the table before the dispatch. -/
def Machine.dispatchAhead (m : Machine) (a : Action) : Option (Slot × Table) :=
  match m.sched with
  | .idle =>
    match a with
    | .schedule => passDispatch (highest m.kernel.ptable) (List.finRange NPROC) m.kernel.ptable
    | _ => none
  | .running p _ _ => (m.kernel.leftBy p a).bind fun k ↦ resumeDispatch k.ptable m.sched

/-- A machine with the history of its run, newest first. -/
structure Watched where
  machine : Machine
  history : List Happening

/-- What a step that comes to `m'` adds to the history. -/
def Machine.happening (m : Machine) (a : Action) (m' : Machine) : Happening :=
  match m.dispatchAhead a with
  | some (p, t) => .dispatched p t
  | none => .seen m'.kernel.ptable

/-- A step with its history. -/
def Watched.step (w : Watched) (a : Action) : Except Fault Watched :=
  (w.machine.step a).map fun m' ↦ ⟨m', w.machine.happening a m' :: w.history⟩

/-- The runs of the kernel from boot, with their histories. -/
def watched : System Watched Action where
  init w := w = ⟨boot, []⟩
  next w a w' := w.step a = .ok w'

/-! ### What the scheduler's code does -/

/-- The tables differ in ticks only. -/
def Table.Refilled (t u : Table) : Prop := ∀ q, ∃ ticks, u q = { t q with ticks := ticks }

theorem Table.Refilled.refl (t : Table) : t.Refilled t := fun _ ↦ ⟨_, rfl⟩

theorem Table.Refilled.trans {t u v : Table} (h : t.Refilled u) (h' : u.Refilled v) :
    t.Refilled v := by
  intro q
  obtain ⟨ticks, hu⟩ := h q
  obtain ⟨ticks', hv⟩ := h' q
  refine ⟨ticks', ?_⟩
  rw [hv, hu]

/-- The refill at the start of a slice changes ticks only. -/
theorem refill_refilled (t : Table) (p : Slot) : t.Refilled (refill t p) := by
  rw [refill]
  split_ifs
  · intro q
    rcases eq_or_ne q p with rfl | hq
    · rw [Table.modify_self]
      exact ⟨_, rfl⟩
    · rw [Table.modify_of_ne hq]
      exact ⟨_, rfl⟩
  · exact .refl t

/-- From the table `t` the scheduler comes to the end of its pass, or to a dispatch. -/
inductive Sequel (t : Table) : Option (Slot × Table) → Point → Prop where
  | idle {pt : Point} : t.Refilled pt.table → pt.sched = .idle → Sequel t none pt
  | dispatch {pt : Point} {u : Table} {p : Slot} {maxPri : ℕ} {cou : Option ℤ} :
    t.Refilled u → (u p).state = .runnable → pt.table = dispatch u p →
      pt.sched = .running p maxPri cou → Sequel t (some (p, u)) pt

/-- A refill may come before what the scheduler does. -/
theorem Sequel.of_refilled {t u : Table} {d : Option (Slot × Table)} {pt : Point}
    (htu : t.Refilled u) (h : Sequel u d pt) : Sequel t d pt := by
  cases h with
  | idle ht hsched => exact .idle (htu.trans ht) hsched
  | dispatch ht hrun htable hsched => exact .dispatch (htu.trans ht) hrun htable hsched

variable {t : Table} {log : List Event} {p : Slot} {maxPri : ℕ}

/-- A RUNNABLE process is dispatched from the table that the scheduler has found. -/
theorem sequel_swtch {cou : Option ℤ} (hrun : (t p).state = .runnable) :
    Sequel t (some (p, t)) (swtch t log p maxPri cou) :=
  .dispatch (.refl t) hrun rfl rfl

/-- A pass comes to the dispatch that `passDispatch` foretells, or to its end. -/
theorem sequel_pass (maxPri : ℕ) (ps : List Slot) (t : Table) (log : List Event) :
    Sequel t (passDispatch maxPri ps t) (pass maxPri ps t log) := by
  induction ps generalizing t log with
  | nil => exact .idle (.refl t) rfl
  | cons p ps ih =>
    rw [pass, passDispatch]
    split_ifs with hp hpos
    · dsimp only
      split_ifs with hgo
      · exact (sequel_swtch hgo.2).of_refilled (refill_refilled t p)
      · exact (ih _ _).of_refilled (refill_refilled t p)
    · exact sequel_swtch hp.1
    · exact ih _ _

/-- The table that the scheduler goes on with when a process has come back. -/
def Sched.back (t : Table) : Sched → Table
  | .running p _ (some _) => comeBack t p
  | _ => t

/-- When a process has come back, the scheduler goes on as `resumeDispatch` foretells. -/
theorem sequel_resume (t : Table) (log : List Event) (s : Sched) :
    Sequel (s.back t) (resumeDispatch t s) (resume t log s) := by
  rcases s with - | ⟨p, maxPri, _ | cou⟩
  · exact .idle (.refl t) rfl
  · exact sequel_pass _ _ _ _
  · have hturn : ∀ log, Sequel (comeBack t p) (resumeDispatch t (.running p maxPri (some cou)))
        (nextTurn (comeBack t p) log p maxPri (cou + 1)) := by
      intro log
      rw [resumeDispatch, nextTurn]
      split_ifs with hgo
      · exact sequel_swtch hgo.2
      · exact sequel_pass _ _ _ _
    rw [resume]
    split_ifs with hused
    · have hback := hturn (.demote p :: log)
      rw [Sched.back]
      rwa [comeBack, if_pos hused] at hback ⊢
    · have hback := hturn log
      rw [Sched.back]
      rwa [comeBack, if_neg hused] at hback ⊢

/-! ### What the calls do -/

/-- The entry does not stop being RUNNABLE and does not become an EMBRYO. -/
structure Proc.Steady (a b : Proc) : Prop where
  inuse : b.inuse = a.inuse
  runnable : a.state = .runnable → b.state = .runnable
  embryo : b.state = .embryo → a.state = .embryo

theorem Proc.Steady.refl (a : Proc) : a.Steady a := ⟨rfl, id, id⟩

theorem Proc.Steady.trans {a b c : Proc} (hab : a.Steady b) (hbc : b.Steady c) : a.Steady c where
  inuse := hbc.inuse.trans hab.inuse
  runnable ha := hbc.runnable (hab.runnable ha)
  embryo hc := hab.embryo (hbc.embryo hc)

/-- What a call does to an entry: it keeps its level and its counts, or it is given to a new
process. -/
inductive Proc.Called (a b : Proc) : Prop where
  | kept : a.Kept b → a.Steady b → Called a b
  | fresh : b.priority = 3 → (b.waitTicks = fun _ ↦ 0) → b.inuse = false → Called a b

theorem Proc.Called.refl (a : Proc) : a.Called a := .kept (.refl a) (.refl a)

/-- A call that keeps the entry may come behind one that gives it away. -/
theorem Proc.Called.trans_kept {a b c : Proc} (hab : a.Called b) (hbc : b.Kept c)
    (hsteady : b.Steady c) : a.Called c := by
  cases hab with
  | kept hkept hab => exact .kept (hkept.trans hbc) (hab.trans hsteady)
  | fresh hpriority hwait hinuse =>
    exact .fresh (hbc.priority.trans hpriority) (hbc.waitTicks.trans hwait)
      (hsteady.inuse.trans hinuse)

namespace Kernel

variable {k : Kernel} {q : Slot}

theorem modify_steady {f : Proc → Proc} (hf : (k.ptable p).Steady (f (k.ptable p))) (q : Slot) :
    (k.ptable q).Steady ((k.modify p f).ptable q) := by
  rcases eq_or_ne q p with rfl | hne
  · rwa [modify_ptable_self]
  · rw [modify_ptable_of_ne hne]
    exact .refl _

/-- An entry that is not RUNNABLE can get any state but EMBRYO. -/
theorem setState_steady {s : ProcState} (hp : (k.ptable p).state ≠ .runnable) (hs : s ≠ .embryo)
    (q : Slot) : (k.ptable q).Steady ((k.setState p s).ptable q) :=
  modify_steady ⟨rfl, fun h ↦ absurd h hp, fun h ↦ absurd h hs⟩ q

/-- A process that goes to sleep was not RUNNABLE. -/
theorem sleep_steady (hp : (k.ptable p).state ≠ .runnable) (c : Chan) (q : Slot) :
    (k.ptable q).Steady ((k.sleep p c).ptable q) :=
  modify_steady ⟨rfl, fun h ↦ absurd h hp, fun h ↦ by cases h⟩ q

/-- Waking makes entries RUNNABLE and none of them an EMBRYO. -/
theorem wakeup1_steady (c : Chan) (q : Slot) :
    (k.ptable q).Steady ((k.wakeup1 c).ptable q) := by
  dsimp only [wakeup1]
  split_ifs
  · exact ⟨rfl, fun _ ↦ rfl, fun h ↦ by cases h⟩
  · exact .refl _

theorem kill_steady (pid : ℤ) (q : Slot) : (k.ptable q).Steady ((k.kill pid).ptable q) := by
  rw [kill]
  split
  · exact .refl _
  · next p _ =>
    refine modify_steady ⟨rfl, fun h ↦ ?_, fun h ↦ ?_⟩ q
    · show (if _ then _ else _) = _
      rw [if_neg (by rw [h]; decide), h]
    · change (if _ then _ else _) = _ at h
      split_ifs at h
      exact h

/-- Passing a child to init does not stop anyone, -/
theorem passChild_steady (p r q : Slot) : (k.ptable q).Steady ((passChild p k r).ptable q) := by
  have hparent : (k.ptable q).Steady
      ((k.modify r fun a ↦ { a with parent := some initproc }).ptable q) :=
    modify_steady ⟨rfl, id, id⟩ q
  rw [passChild]
  dsimp only
  split_ifs
  · exact hparent.trans (wakeup1_steady _ q)
  · exact hparent
  · exact .refl _

/-- and the process that exits was RUNNING, not RUNNABLE. -/
theorem exit_steady (hp : (k.ptable p).state = .running) (q : Slot) :
    (k.ptable q).Steady ((k.exit p).ptable q) := by
  have hloop : ∀ (l : List Slot) (k' : Kernel), Quiet k k' →
      (k.ptable q).Steady (k'.ptable q) → Quiet k (l.foldl (passChild p) k') ∧
        (k.ptable q).Steady ((l.foldl (passChild p) k').ptable q) := by
    intro l
    induction l with
    | nil => exact fun k' hquiet hsteady ↦ ⟨hquiet, hsteady⟩
    | cons r l ih =>
      exact fun k' hquiet hsteady ↦
        ih _ (hquiet.trans (passChild_quiet p r)) (hsteady.trans (passChild_steady p r q))
  obtain ⟨hquiet, hsteady⟩ := hloop (List.finRange NPROC) _ (wakeup1_quiet _) (wakeup1_steady _ q)
  refine hsteady.trans (setState_steady ?_ (by decide) q)
  rw [hquiet.state p (.inr hp), hp]
  decide

/-- `allocproc` keeps every entry or starts a new process in it. -/
theorem allocproc_called (kstack : Bool) (q : Slot) :
    (k.ptable q).Called ((k.allocproc kstack).2.ptable q) := by
  rw [allocproc]
  split
  · exact .refl _
  · next np _ =>
    have halloc : (k.ptable q).Called ((k.allocEntry np).ptable q) := by
      rcases eq_or_ne q np with rfl | hne
      · refine .fresh ?_ ?_ ?_ <;>
        · rw [allocEntry, modify_ptable_self]
          rfl
      · rw [allocEntry, modify_ptable_of_ne hne]
        exact .refl _
    split_ifs
    · exact halloc
    · have hembryo : ((k.allocEntry np).ptable np).state ≠ .runnable := by
        rw [allocEntry, modify_ptable_self]
        show ProcState.embryo ≠ .runnable
        decide
      exact halloc.trans_kept (setState_unused_kept np q) (setState_steady hembryo (by decide) q)

/-- The child of a `fork` was an EMBRYO. -/
theorem forkCopy_steady {np : Slot} (hnp : (k.ptable np).state = .embryo) (copied : Bool)
    (q : Slot) : (k.ptable q).Steady ((k.forkCopy p np copied).1.ptable q) := by
  have hrun : (k.ptable np).state ≠ .runnable := by rw [hnp]; decide
  rw [forkCopy]
  split_ifs
  · exact modify_steady ⟨rfl, fun h ↦ absurd h hrun, fun h ↦ by cases h⟩ q
  · exact setState_steady hrun (by decide) q

/-- The entry that `wait` frees was a ZOMBIE. -/
theorem wait_steady {k' : Kernel} {pid : ℤ} (h : k.wait p = (k', some pid)) (q : Slot) :
    (k.ptable q).Steady (k'.ptable q) := by
  rw [wait] at h
  split at h
  · next z hfind =>
    obtain ⟨rfl, -⟩ := Prod.mk.inj h
    have hz := List.find?_some hfind
    have hzombie : (k.ptable z).state = .zombie := (of_decide_eq_true hz).2
    refine modify_steady ⟨rfl, fun h ↦ ?_, fun h ↦ by cases h⟩ q
    cases hzombie.symm.trans h
  · split_ifs at h
    · obtain ⟨rfl, -⟩ := Prod.mk.inj h
      exact .refl _
    · cases (Prod.mk.inj h).2

/-- A process that leaves the kernel changes no level and no count. -/
theorem leftBy_kept {k' : Kernel} {a : Action} (hp : (k.ptable p).state = .running)
    (hleft : k.leftBy p a = some k') (q : Slot) :
    (k.ptable q).Kept (k'.ptable q) ∧ (k.ptable q).Steady (k'.ptable q) := by
  have hinuse : (k.ptable p).state ≠ .unused := by rw [hp]; decide
  have hrun : (k.ptable p).state ≠ .runnable := by rw [hp]; decide
  cases a with
  | yield =>
    cases hleft
    exact ⟨setState_kept hinuse _ q, setState_steady hrun (by decide) q⟩
  | sleep b =>
    cases hleft
    exact ⟨sleep_kept hinuse _ q, sleep_steady hrun _ q⟩
  | exit =>
    cases hleft
    refine ⟨?_, exit_steady hp q⟩
    obtain ⟨k', hk', hexit⟩ := exit_eq (k := k) p
    rw [hexit]
    refine (hk'.kept q).trans (setState_kept ?_ _ q)
    rw [hk'.state p (.inr hp), hp]
    decide
  | wait =>
    rw [leftBy] at hleft
    split at hleft
    · cases hleft
    · next k₁ hwait =>
      cases hleft
      obtain rfl : k₁ = k.sleep p (.proc p) :=
        ((wait_cases hwait).resolve_left fun hr ↦ absurd hr.1 (by decide)).2
      exact ⟨sleep_kept hinuse _ q, sleep_steady hrun _ q⟩
  | _ => cases hleft

end Kernel

namespace Machine

/-- What a step is for the entries. -/
inductive Course (m : Machine) (a : Action) (m' : Machine) : Prop where
  /-- Nobody switches. -/
  | stay : m.dispatchAhead a = none → m'.sched = m.sched →
      (∀ q, (m.kernel.ptable q).Called (m'.kernel.ptable q)) → Course m a m'
  /-- The scheduler starts a pass. -/
  | scan : m.sched = .idle → Sequel m.kernel.ptable (m.dispatchAhead a) m'.point → Course m a m'
  /-- The process that runs switches back to the scheduler. -/
  | leave (p : Slot) (maxPri : ℕ) (cou : Option ℤ) (k : Kernel) :
      m.sched = .running p maxPri cou → m.kernel.leftBy p a = some k →
      (∀ q, (m.kernel.ptable q).Called (k.ptable q)) →
      Sequel (m.sched.back k.ptable) (m.dispatchAhead a) m'.point → Course m a m'

variable {m m' : Machine} {k : Kernel} {cou : Option ℤ} {a : Action}

/-- An action that gives up the processor does. -/
theorem stepOf_of_leftBy (hleft : m.kernel.leftBy p a = some k) (h : m.stepOf p a = .ok m') :
    m' = m.leave k := by
  cases a with
  | yield =>
    cases hleft
    cases h
    rfl
  | wait =>
    rw [Kernel.leftBy] at hleft
    rw [stepOf] at h
    split_ifs at h
    split at hleft
    · cases hleft
    · next hwait =>
      cases hleft
      rw [hwait] at h
      cases h
      rfl
  | sleep b =>
    cases hleft
    rw [stepOf] at h
    split_ifs at h
    cases h
    rfl
  | exit =>
    cases hleft
    rw [stepOf] at h
    split_ifs at h
    cases h
    rfl
  | _ => cases hleft

/-- Any other action leaves the processor with the process. -/
theorem stepOf_of_stays (hm : m.Sane) (hleft : m.kernel.leftBy p a = none)
    (h : m.stepOf p a = .ok m') :
    m'.sched = m.sched ∧ ∀ q, (m.kernel.ptable q).Called (m'.kernel.ptable q) := by
  cases a with
  | schedule => cases h
  | yield => cases hleft
  | sleep b => cases hleft
  | exit => cases hleft
  | wakeup c =>
    cases h
    exact ⟨rfl, fun q ↦ .kept (Kernel.wakeup1_kept c q) (Kernel.wakeup1_steady c q)⟩
  | kill pid =>
    cases h
    exact ⟨rfl, fun q ↦ .kept (Kernel.kill_kept pid q) (Kernel.kill_steady pid q)⟩
  | fork kstack =>
    rw [stepOf] at h
    split_ifs at h
    cases h
    refine ⟨rfl, fun q ↦ ?_⟩
    show (m.kernel.ptable q).Called ((m.kernel.fork p kstack).ptable q)
    rw [Kernel.fork_ptable]
    exact Kernel.allocproc_called kstack q
  | forkCopy copied =>
    rw [stepOf] at h
    split at h
    · next np hcall =>
      cases h
      have hembryo := hm.fork.embryo p np hcall
      have hunused : (m.kernel.ptable np).state ≠ .unused := by rw [hembryo]; decide
      exact ⟨rfl, fun q ↦
        .kept (Kernel.forkCopy_kept hunused copied q) (Kernel.forkCopy_steady hembryo copied q)⟩
    · cases h
  | forkReturn =>
    rw [stepOf] at h
    split_ifs at h
    cases h
    exact ⟨rfl, fun _ ↦ .refl _⟩
  | wait =>
    rw [Kernel.leftBy] at hleft
    rw [stepOf] at h
    split_ifs at h
    split at hleft
    · next k' pid hwait =>
      rw [hwait] at h
      cases h
      have hk : Kernel.Quiet m.kernel k' :=
        ((Kernel.wait_cases hwait).resolve_right fun hr ↦ absurd hr.1 (by simp)).2
      exact ⟨rfl, fun q ↦ .kept (hk.kept q) (Kernel.wait_steady hwait q)⟩
    · cases hleft

/-- **What a step is for the entries**: a call of the kernel, and then the scheduler's code. -/
theorem course_of_step (hm : m.Sane) (h : m.step a = .ok m') : Course m a m' := by
  cases hsched : m.sched with
  | idle =>
    unfold Machine.step at h
    rw [hsched] at h
    cases a with
    | schedule =>
      cases h
      refine .scan hsched ?_
      have hpass := sequel_pass (highest m.kernel.ptable) (List.finRange NPROC) m.kernel.ptable
        (.scan m.kernel.ptable :: m.log)
      rw [dispatchAhead]
      rw [hsched]
      exact hpass
    | wakeup c =>
      cases h
      refine .stay ?_ hsched.symm fun q ↦
        .kept (Kernel.wakeup1_kept c q) (Kernel.wakeup1_steady c q)
      unfold dispatchAhead
      rw [hsched]
    | _ => cases h
  | running p maxPri cou =>
    unfold Machine.step at h
    rw [hsched] at h
    have hahead : m.dispatchAhead a =
        (m.kernel.leftBy p a).bind fun k ↦ resumeDispatch k.ptable m.sched := by
      unfold dispatchAhead
      rw [hsched]
    cases hleft : m.kernel.leftBy p a with
    | none =>
      obtain ⟨hstay, hcalled⟩ := stepOf_of_stays hm hleft h
      refine .stay ?_ hstay hcalled
      rw [hahead, hleft, Option.bind_none]
    | some k =>
      obtain rfl : m' = m.leave k := stepOf_of_leftBy hleft h
      have hcalled := Kernel.leftBy_kept (hm.running p maxPri cou hsched) hleft
      refine .leave p maxPri cou k hsched hleft (fun q ↦ .kept (hcalled q).1 (hcalled q).2) ?_
      rw [hahead, hleft, Option.bind_some]
      exact sequel_resume k.ptable m.log m.sched

/-- How a step ends, when `P` holds of all entries at the end of a step that dispatches nobody, and
before the dispatch of any other. -/
inductive Ends (m : Machine) (P : Slot → Proc → Prop) : Option (Slot × Table) → Machine → Prop where
  | quiet {m' : Machine} : m'.sched = m.sched ∨ m'.sched = .idle →
      (∀ q, P q (m'.kernel.ptable q)) → Ends m P none m'
  | dispatch {m' : Machine} {u : Table} {p : Slot} {maxPri : ℕ} {cou : Option ℤ} :
      (u p).state = .runnable → m'.kernel.ptable = Mlfq.dispatch u p →
      m'.sched = .running p maxPri cou → (∀ q, P q (u q)) → Ends m P (some (p, u)) m'

/-- What the scheduler's moves keep holds up to the dispatch that the step ends with. -/
theorem Ends.of_sequel {P : Slot → Proc → Prop} {d : Option (Slot × Table)}
    (hticks : ∀ q b ticks, P q b → P q { b with ticks := ticks }) (ht : ∀ q, P q (t q))
    (h : Sequel t d m'.point) : Ends m P d m' := by
  have hrefilled : ∀ {u : Table}, t.Refilled u → ∀ q, P q (u q) := by
    intro u htu q
    obtain ⟨ticks, hu⟩ := htu q
    rw [hu]
    exact hticks q _ ticks (ht q)
  cases h with
  | idle htu hsched => exact .quiet (.inr hsched) (hrefilled htu)
  | dispatch htu hrun htable hsched => exact .dispatch hrun htable hsched (hrefilled htu)

/-- **The entries of a step.** What calls keep, and new counts of ticks, and the move down of a
process, holds of the entries to the end of the step or to its dispatch. -/
theorem Course.ends {P : Slot → Proc → Prop} (h : Course m a m')
    (hm : ∀ q, P q (m.kernel.ptable q)) (hcalled : ∀ q b c, P q b → b.Called c → P q c)
    (hticks : ∀ q b ticks, P q b → P q { b with ticks := ticks })
    (hdemote : ∀ p maxPri cou k, m.sched = .running p maxPri (some cou) →
      m.kernel.leftBy p a = some k → QuantumUsed k.ptable p → P p (k.ptable p) →
        P p (demote k.ptable p p)) : Ends m P (m.dispatchAhead a) m' := by
  cases h with
  | stay hnone hsched hentry =>
    rw [hnone]
    exact .quiet (.inl hsched) fun q ↦ hcalled q _ _ (hm q) (hentry q)
  | scan _ hs => exact .of_sequel hticks hm hs
  | leave p maxPri cou k hsched hleft hentry hs =>
    have hk : ∀ q, P q (k.ptable q) := fun q ↦ hcalled q _ _ (hm q) (hentry q)
    refine .of_sequel hticks (fun q ↦ ?_) hs
    rw [hsched]
    cases cou with
    | none => exact hk q
    | some cou =>
      rw [Sched.back, comeBack]
      split_ifs with hused
      · rcases eq_or_ne q p with rfl | hne
        · exact hdemote q maxPri cou k hsched hleft hused (hk q)
        · rw [demote, Table.modify_of_ne hne]
          exact hk q
      · exact hk q

/-- A property of machines that every step keeps holds in every run. When the steps of the run meet
a condition they may use it. -/
theorem invariant_of_course {P : Machine → Action → Prop} {I : Machine → Prop} (hboot : I boot)
    (hstep : ∀ m a m', m.Sane → I m → P m a → m.step a = .ok m' → Course m a m' → I m')
    (hm : (system.restrict P).Reachable m) : m.Sane ∧ I m := by
  refine hm.invariant (I := fun m ↦ m.Sane ∧ I m) ?_ fun m a m' ⟨hsane, hI⟩ hnext ↦ ?_
  · rintro m rfl
    exact ⟨sane_boot, hboot⟩
  · obtain ⟨hP, hnext⟩ := hnext
    exact ⟨hsane.move (move_of_step hsane hnext),
      hstep m a m' hsane hI hP hnext (course_of_step hsane hnext)⟩

end Machine

/-! ### Runs with histories -/

theorem Watched.step_ok {w w' : Watched} {a : Action} (h : w.step a = .ok w') :
    w.machine.step a = .ok w'.machine ∧
      w'.history = w.machine.happening a w'.machine :: w.history := by
  rw [Watched.step] at h
  cases hstep : w.machine.step a with
  | error e =>
    rw [hstep] at h
    cases h
  | ok m' =>
    rw [hstep] at h
    cases h
    exact ⟨rfl, rfl⟩

/-- A property of watched machines that every step keeps holds in every run. When the steps of the
run meet a condition they may use it. -/
theorem Watched.invariant_of_course {P : Watched → Action → Prop} {I : Watched → Prop}
    (hboot : I ⟨boot, []⟩)
    (hstep : ∀ w a w', w.machine.Sane → I w → P w a → w.machine.Course a w'.machine →
      w'.history = w.machine.happening a w'.machine :: w.history → I w')
    {w : Watched} (hw : (watched.restrict P).Reachable w) : I w := by
  refine (hw.invariant (I := fun w ↦ w.machine.Sane ∧ I w) ?_ fun w a w' ⟨hsane, hI⟩ hnext ↦ ?_).2
  · rintro w rfl
    exact ⟨Machine.sane_boot, hboot⟩
  · obtain ⟨hP, hnext⟩ := hnext
    obtain ⟨hmachine, hhistory⟩ := Watched.step_ok hnext
    exact ⟨hsane.move (Machine.move_of_step hsane hmachine),
      hstep w a w' hsane hI hP (Machine.course_of_step hsane hmachine) hhistory⟩

end Mlfq
