import Cs537OS.Mlfq.Watch

/-!
# The flag that says that an entry is in use

`getpinfo` reports for every entry whether it is in use. The scheduler sets the flag when it
dispatches the entry, `allocproc` clears it, and nobody else touches it: a new process is reported
as not in use until it runs for the first time, and an entry that `wait` has freed as in use until
it is allocated again.

* `not_inuseTrue_of_fork` — so the flags are wrong whenever a `fork` that has succeeded returns
  before its child has run, and every `fork` that succeeds can return at once;
* `inuseTrue_until_fork` — and they are right in the runs in which no `fork` succeeds, where the
  first process stays alone;
* `child_not_inuse` — the shortest run in which it does not.
-/

open Xv6

namespace Mlfq

/-- The flags that `getpinfo` reports tell which entries hold a process. -/
def InuseTrue (t : Table) : Prop :=
  ∀ p, (helper t).inuse p = true ↔ (helper t).state p ≠ .unused

/-- The processor is outside the calls of the kernel and the scheduler: the process that runs is in
none of them. -/
def Machine.Outside (m : Machine) : Prop :=
  ∃ p maxPri cou, m.sched = .running p maxPri cou ∧ m.kernel.call p = .user

variable {t u : Table} {p q : Slot}

theorem boost_inuse (a : Proc) : (boost a).inuse = a.inuse := by
  rw [boost]
  dsimp only
  split_ifs <;> rfl

/-- A dispatch changes neither flag nor state of the others, -/
theorem dispatch_use_of_ne (hq : q ≠ p) :
    (dispatch t p q).inuse = (t q).inuse ∧ (dispatch t p q).state = (t q).state := by
  rw [dispatch_of_ne hq]
  exact ⟨boost_inuse _, (boost_scheduled _).2⟩

/-- and marks the process that it dispatches. -/
theorem dispatch_inuse_self : (dispatch t p p).inuse = true := by
  rw [dispatch_self]

/-! ### A new process -/

namespace Machine

variable {m m' : Machine} {a : Action}

/-- An EMBRYO is not marked as in use. -/
theorem embryo_not_inuse (hm : system.Reachable m) :
    m.Sane ∧ ∀ q, (m.kernel.ptable q).state = .embryo → (m.kernel.ptable q).inuse = false := by
  refine invariant_of_course (P := fun _ _ ↦ True)
    (I := fun m ↦ ∀ q, (m.kernel.ptable q).state = .embryo → (m.kernel.ptable q).inuse = false)
    (by decide) (fun m a m' _ hI _ _ hcourse ↦ ?_) (hm.restrict fun _ _ _ _ ↦ trivial)
  have hends := hcourse.ends (P := fun _ b ↦ b.state = .embryo → b.inuse = false) hI
    (fun q b c hb hbc hc ↦ ?_) (fun q b ticks hb ↦ hb) fun p maxPri cou k _ _ _ hk ↦ ?_
  · generalize m.dispatchAhead a = d at hends
    cases hends with
    | quiet _ hentry => exact hentry
    | @dispatch _ u p maxPri cou _ htable _ hentry =>
      intro q hq
      rw [htable] at hq ⊢
      rcases eq_or_ne q p with rfl | hne
      · rw [dispatch_state_self] at hq
        cases hq
      · obtain ⟨hinuse, hstate⟩ := dispatch_use_of_ne (t := u) hne
        rw [hinuse]
        exact hentry q (hstate ▸ hq)
  · cases hbc with
    | kept _ hsteady => exact hsteady.inuse.trans (hb (hsteady.embryo hc))
    | fresh _ _ hinuse => exact hinuse
  · rw [demote, Table.modify_self]
    exact hk

end Machine

/-- **A child that has not run yet.** When a `fork` that succeeds returns at once the flags are
wrong: the child is RUNNABLE and not marked. -/
theorem not_inuseTrue_of_fork {m m' : Machine} (hm : system.Reachable m)
    (h : m.step (.forkCopy true) = .ok m') :
    ∃ m'', m'.step .forkReturn = .ok m'' ∧ m''.Outside ∧ ¬ InuseTrue m''.kernel.ptable := by
  obtain ⟨hsane, hembryo⟩ := Machine.embryo_not_inuse hm
  unfold Machine.step at h
  split at h
  · next p maxPri cou hsched =>
    rw [Machine.stepOf] at h
    split at h
    · next np hcall =>
      cases h
      set k := (m.kernel.forkCopy p np true).1.setCall p .forked with hk
      refine ⟨{ m with kernel := k.setCall p .user }, ?_,
        ⟨p, maxPri, cou, hsched, Function.update_self _ _ _⟩, fun htrue ↦ ?_⟩
      · have hforked : k.call p = .forked := Function.update_self _ _ _
        unfold Machine.step
        dsimp only
        rw [hsched]
        exact if_pos hforked
      -- the child is RUNNABLE, and its flag is as `allocproc` has left it
      have hchild : (m.kernel.forkCopy p np true).1.ptable np =
          { m.kernel.ptable np with parent := some p, state := .runnable } :=
        Kernel.modify_ptable_self
      have hnot : ((m.kernel.forkCopy p np true).1.ptable np).inuse = false := by
        rw [hchild]
        exact hembryo np (hsane.fork.embryo p np hcall)
      have hmarked : ((m.kernel.forkCopy p np true).1.ptable np).inuse = true :=
        (htrue np).2 (by
          show ((m.kernel.forkCopy p np true).1.ptable np).state ≠ .unused
          rw [hchild]
          show ProcState.runnable ≠ .unused
          decide)
      cases hnot.symm.trans hmarked
    · cases h
  · cases h

/-! ### The first process alone -/

/-- Every entry but the first is not marked, and free or filled in by a `fork` of the first. -/
def Kernel.OnlyInit (k : Kernel) : Prop :=
  ∀ q ≠ initproc, (k.ptable q).inuse = false ∧
    ((k.ptable q).state = .unused ∨ (k.ptable q).state = .embryo ∧ k.call initproc = .fork q)

namespace Kernel

variable {k k' : Kernel}

/-- The other entries keep flag and state, and a `fork` of the first process goes on. -/
theorem OnlyInit.of_same (hk : k.OnlyInit)
    (hentry : ∀ q ≠ initproc, (k'.ptable q).inuse = (k.ptable q).inuse ∧
      (k'.ptable q).state = (k.ptable q).state)
    (hcall : ∀ q, k.call initproc = .fork q → k'.call initproc = .fork q) : k'.OnlyInit := by
  intro q hq
  obtain ⟨hinuse, hstate⟩ := hentry q hq
  rw [hinuse, hstate]
  exact ⟨(hk q hq).1, (hk q hq).2.imp_right fun hembryo ↦ ⟨hembryo.1, hcall q hembryo.2⟩⟩

/-- The first process changes its own entry. -/
theorem OnlyInit.modify (hk : k.OnlyInit) (f : Proc → Proc) :
    (k.modify initproc f).OnlyInit := by
  refine hk.of_same (fun q hq ↦ ?_) fun _ h ↦ h
  rw [modify_ptable_of_ne hq]
  exact ⟨rfl, rfl⟩

/-- No other entry is anything but UNUSED or EMBRYO. -/
theorem OnlyInit.eq_initproc (hk : k.OnlyInit) (hunused : (k.ptable q).state ≠ .unused)
    (hembryo : (k.ptable q).state ≠ .embryo) : q = initproc := by
  by_contra hne
  exact (hk q hne).2.elim hunused fun h ↦ hembryo h.1

/-- The first process is not in the middle of a `fork`. -/
theorem OnlyInit.setCall (hk : k.OnlyInit) (hcall : ∀ q, k.call initproc ≠ .fork q) (c : Call) :
    (k.setCall initproc c).OnlyInit :=
  hk.of_same (fun _ _ ↦ ⟨rfl, rfl⟩) fun q h ↦ absurd h (hcall q)

theorem OnlyInit.wakeup1 (hk : k.OnlyInit) (c : Chan) : (k.wakeup1 c).OnlyInit := by
  refine hk.of_same (fun q hq ↦ ?_) fun _ h ↦ h
  dsimp only [Kernel.wakeup1]
  rw [if_neg]
  · exact ⟨rfl, rfl⟩
  · rintro ⟨hsleeping, -⟩
    exact hq (hk.eq_initproc (by rw [hsleeping]; decide) (by rw [hsleeping]; decide))

theorem OnlyInit.kill (hk : k.OnlyInit) (pid : ℤ) : (k.kill pid).OnlyInit := by
  refine hk.of_same (fun q hq ↦ ⟨(kill_steady pid q).inuse, ?_⟩) fun _ h ↦ ?_
  · rw [Kernel.kill]
    split
    · rfl
    · next p _ =>
      rcases eq_or_ne q p with rfl | hne
      · rw [modify_ptable_self]
        refine if_neg fun hsleeping ↦ hq ?_
        exact hk.eq_initproc (by rw [hsleeping]; decide) (by rw [hsleeping]; decide)
      · rw [modify_ptable_of_ne hne]
  · rwa [kill_call]

/-- A new entry is an EMBRYO of the `fork` that has begun, or free again. -/
theorem OnlyInit.fork (hk : k.OnlyInit) (hcall : k.call initproc = .user) (kstack : Bool) :
    (k.fork initproc kstack).OnlyInit := by
  have hunused : ∀ q ≠ initproc, (k.ptable q).state = .unused := fun q hq ↦
    (hk q hq).2.resolve_right fun h ↦ by cases hcall.symm.trans h.2
  rw [Kernel.fork, allocproc]
  cases (List.finRange NPROC).find? fun p ↦ (k.ptable p).state = .unused with
  | none => exact hk.of_same (fun _ _ ↦ ⟨rfl, rfl⟩) fun _ h ↦ h
  | some np =>
    have hself : (k.allocEntry np).ptable np =
        { k.ptable np with state := .embryo, pid := k.nextpid, inuse := false }.startLevels :=
      modify_ptable_self
    have hne : ∀ q ≠ np, (k.allocEntry np).ptable q = k.ptable q := fun q hq ↦
      modify_ptable_of_ne hq
    -- with a stack the entry is that of this call, without one it is free again
    cases kstack with
    | true =>
      intro q hq
      show ((k.allocEntry np).ptable q).inuse = false ∧
        (((k.allocEntry np).ptable q).state = .unused ∨
          ((k.allocEntry np).ptable q).state = .embryo ∧
            Function.update k.call initproc (.fork np) initproc = .fork q)
      rcases eq_or_ne q np with rfl | hqnp
      · rw [hself, Function.update_self]
        exact ⟨rfl, .inr ⟨rfl, rfl⟩⟩
      · rw [hne q hqnp]
        exact ⟨(hk q hq).1, .inl (hunused q hq)⟩
    | false =>
      intro q hq
      show (((k.allocEntry np).setState np .unused).ptable q).inuse = false ∧
        ((((k.allocEntry np).setState np .unused).ptable q).state = .unused ∨ _)
      rw [setState]
      rcases eq_or_ne q np with rfl | hqnp
      · rw [modify_ptable_self, hself]
        exact ⟨rfl, .inl rfl⟩
      · rw [modify_ptable_of_ne hqnp, hne q hqnp]
        exact ⟨(hk q hq).1, .inl (hunused q hq)⟩

/-- A `fork` that fails gives its entry up. -/
theorem OnlyInit.forkCopy {np : Slot} (hk : k.OnlyInit) (hcall : k.call initproc = .fork np) :
    ((k.forkCopy initproc np false).1.setCall initproc .forked).OnlyInit := by
  intro q hq
  show ((k.setState np .unused).ptable q).inuse = false ∧
    (((k.setState np .unused).ptable q).state = .unused ∨ _)
  rw [setState]
  rcases eq_or_ne q np with rfl | hne
  · rw [modify_ptable_self]
    exact ⟨(hk q hq).1, .inl rfl⟩
  · rw [modify_ptable_of_ne hne]
    refine ⟨(hk q hq).1, .inl ((hk q hq).2.resolve_right fun h ↦ hne ?_)⟩
    cases hcall.symm.trans h.2
    rfl

end Kernel

namespace Machine

/-- What holds between two steps of a run in which no `fork` succeeds. -/
structure OnlyInit (m : Machine) : Prop where
  kernel : m.kernel.OnlyInit
  running : ∀ p maxPri cou, m.sched = .running p maxPri cou →
    p = initproc ∧ (m.kernel.ptable initproc).inuse = true

variable {m m' : Machine} {a : Action}

/-- The scheduler comes to a point from a kernel where the first process is alone. -/
theorem OnlyInit.of_sequel {k : Kernel} {d : Option (Slot × Table)} (hk : k.OnlyInit)
    (htable : ∀ q, (t q).inuse = (k.ptable q).inuse ∧ (t q).state = (k.ptable q).state)
    (hcall : m'.kernel.call = k.call) (h : Sequel t d m'.point) : m'.OnlyInit := by
  have hsame : ∀ {u : Table}, t.Refilled u → ∀ q,
      (u q).inuse = (k.ptable q).inuse ∧ (u q).state = (k.ptable q).state := by
    intro u htu q
    obtain ⟨ticks, hu⟩ := htu q
    rw [hu]
    exact htable q
  have hfork : ∀ q, k.call initproc = .fork q → m'.kernel.call initproc = .fork q := by
    intro q hq
    rwa [hcall]
  cases h with
  | idle htu hsched =>
    refine ⟨hk.of_same (fun q _ ↦ hsame htu q) hfork, fun p maxPri cou hrun ↦ ?_⟩
    cases hsched.symm.trans hrun
  | @dispatch _ u p maxPri cou htu hrun hdispatch hsched =>
    change m'.kernel.ptable = dispatch u p at hdispatch
    have hrunnable : (k.ptable p).state = .runnable := (hsame htu p).2 ▸ hrun
    obtain rfl : p = initproc :=
      hk.eq_initproc (by rw [hrunnable]; decide) (by rw [hrunnable]; decide)
    refine ⟨hk.of_same (fun q hq ↦ ?_) hfork, fun p' maxPri' cou' hrun' ↦ ?_⟩
    · obtain ⟨hinuse, hstate⟩ := dispatch_use_of_ne (t := u) hq
      rw [hdispatch, hinuse, hstate]
      exact hsame htu q
    · cases hsched.symm.trans hrun'
      rw [hdispatch]
      exact ⟨rfl, dispatch_inuse_self⟩

/-- The first process switches back to the scheduler. -/
theorem OnlyInit.leave {k : Kernel} (hk : k.OnlyInit) : (m.leave k).OnlyInit := by
  refine .of_sequel hk (fun q ↦ ?_) rfl (sequel_resume k.ptable m.log m.sched)
  have hdemote : ∀ p, (comeBack k.ptable p q).inuse = (k.ptable q).inuse ∧
      (comeBack k.ptable p q).state = (k.ptable q).state := by
    intro p
    rw [comeBack]
    split_ifs
    · rw [demote]
      rcases eq_or_ne q p with rfl | hne
      · rw [Table.modify_self]
        exact ⟨rfl, rfl⟩
      · rw [Table.modify_of_ne hne]
        exact ⟨rfl, rfl⟩
    · exact ⟨rfl, rfl⟩
  rcases m.sched with - | ⟨p, maxPri, _ | cou⟩
  · exact ⟨rfl, rfl⟩
  · exact ⟨rfl, rfl⟩
  · exact hdemote p

/-- What a step of the first process does when no `fork` succeeds. -/
theorem OnlyInit.stepOf (hsane : m.Sane) (hm : m.OnlyInit) {maxPri : ℕ} {cou : Option ℤ}
    (hsched : m.sched = .running initproc maxPri cou) (hfork : a ≠ .forkCopy true)
    (h : m.stepOf initproc a = .ok m') : m'.OnlyInit := by
  have hrunning := hsane.running initproc maxPri cou hsched
  have hmarked := (hm.running initproc maxPri cou hsched).2
  have hstay : ∀ k : Kernel, k.OnlyInit → (k.ptable initproc).inuse = true →
      OnlyInit { m with kernel := k } := by
    refine fun k hk hinit ↦ ⟨hk, fun p maxPri' cou' hrun ↦ ⟨?_, hinit⟩⟩
    exact (hm.running p maxPri' cou' hrun).1
  cases a with
  | schedule => cases h
  | wakeup c =>
    cases h
    exact hstay _ (hm.kernel.wakeup1 c) ((Kernel.wakeup1_steady c initproc).inuse.trans hmarked)
  | kill pid =>
    cases h
    exact hstay _ (hm.kernel.kill pid) ((Kernel.kill_steady pid initproc).inuse.trans hmarked)
  | yield =>
    cases h
    exact .leave (hm.kernel.modify _)
  | sleep b =>
    rw [Machine.stepOf] at h
    split_ifs at h
    cases h
    exact .leave (hm.kernel.modify _)
  | fork kstack =>
    rw [Machine.stepOf] at h
    split_ifs at h with hcall
    cases h
    refine hstay _ (hm.kernel.fork hcall kstack) ?_
    rw [Kernel.fork_ptable, Kernel.allocproc_of_settled (.inr hrunning), hmarked]
  | forkCopy copied =>
    rw [Machine.stepOf] at h
    split at h
    · next np hcall =>
      cases h
      have hembryo := hsane.fork.embryo initproc np hcall
      cases copied with
      | true => exact absurd rfl hfork
      | false =>
        refine hstay _ (hm.kernel.forkCopy hcall) ?_
        exact (Kernel.forkCopy_steady (p := initproc) hembryo false initproc).inuse.trans hmarked
    · cases h
  | forkReturn =>
    rw [Machine.stepOf] at h
    split_ifs at h with hcall
    cases h
    refine hstay _ (hm.kernel.setCall (fun q hq ↦ ?_) _) hmarked
    cases hcall.symm.trans hq
  | exit =>
    rw [Machine.stepOf] at h
    split_ifs at h with _ hne
    exact absurd rfl hne
  | wait =>
    rw [Machine.stepOf] at h
    split_ifs at h with hcall
    have hnofork : ∀ q, m.kernel.call initproc ≠ .fork q := by
      intro q hq
      rcases hcall with hcall | hcall <;> cases hcall.symm.trans hq
    split at h
    · next k' pid hwait =>
      cases h
      -- nobody is a zombie, so the table does not change
      have hsame : k' = m.kernel := by
        rw [Kernel.wait] at hwait
        split at hwait
        · next z hfind =>
          have hz := List.find?_some hfind
          have hzombie : (m.kernel.ptable z).state = .zombie := (of_decide_eq_true hz).2
          obtain rfl : z = initproc :=
            hm.kernel.eq_initproc (by rw [hzombie]; decide) (by rw [hzombie]; decide)
          cases hrunning.symm.trans hzombie
        · split_ifs at hwait
          · exact (Prod.mk.inj hwait).1.symm
          · cases (Prod.mk.inj hwait).2
      subst hsame
      exact hstay _ (hm.kernel.setCall hnofork _) hmarked
    · next k' hwait =>
      cases h
      obtain rfl : k' = m.kernel.sleep initproc (.proc initproc) :=
        ((Kernel.wait_cases hwait).resolve_left fun hr ↦ absurd hr.1 (by decide)).2
      exact .leave (Kernel.OnlyInit.setCall (hm.kernel.modify _) hnofork _)

/-- As long as no `fork` has succeeded the first process is alone. -/
theorem onlyInit_of_reachable
    (hm : (system.restrict fun _ a ↦ a ≠ .forkCopy true).Reachable m) : m.Sane ∧ m.OnlyInit := by
  refine invariant_of_course (I := OnlyInit) ⟨?_, fun _ _ _ hrun ↦ by cases hrun⟩
    (fun m a m' hsane hI hfork hstep _hcourse ↦ ?_) hm
  · rw [Kernel.OnlyInit]
    decide +kernel
  · unfold Machine.step at hstep
    split at hstep
    · next p maxPri cou hsched =>
      obtain ⟨rfl, -⟩ := hI.running p maxPri cou hsched
      exact hI.stepOf hsane hsched hfork hstep
    · next hsched =>
      split at hstep
      · cases hstep
        exact .of_sequel hI.kernel (fun _ ↦ ⟨rfl, rfl⟩) rfl
          (sequel_pass _ _ _ (.scan m.kernel.ptable :: m.log))
      · next c =>
        cases hstep
        refine ⟨hI.kernel.wakeup1 c, fun p maxPri cou hrun ↦ ?_⟩
        cases hsched.symm.trans hrun
      · cases hstep

end Machine

/-- **The flags are right as long as no `fork` succeeds.** In every run without a successful `fork`
the flags are right whenever the processor is outside the calls of the kernel; and whatever run a
successful `fork` ends, they are wrong when it returns at once. -/
theorem inuseTrue_until_fork (m m' : Machine) :
    ((system.restrict fun _ a ↦ a ≠ .forkCopy true).Reachable m → m.Outside →
      InuseTrue m.kernel.ptable) ∧
    (system.Reachable m → m.step (.forkCopy true) = .ok m' →
      ∃ m'', m'.step .forkReturn = .ok m'' ∧ m''.Outside ∧ ¬ InuseTrue m''.kernel.ptable) := by
  refine ⟨fun hm hout q ↦ ?_, not_inuseTrue_of_fork⟩
  obtain ⟨p, maxPri, cou, hsched, hcall⟩ := hout
  obtain ⟨hsane, honly⟩ := Machine.onlyInit_of_reachable hm
  obtain ⟨rfl, hmarked⟩ := honly.running p maxPri cou hsched
  show (m.kernel.ptable q).inuse = true ↔ (m.kernel.ptable q).state ≠ .unused
  rcases eq_or_ne q initproc with rfl | hq
  · rw [hmarked, hsane.running initproc maxPri cou hsched]
    decide
  · obtain ⟨hnot, hstate⟩ := honly.kernel q hq
    have hunused : (m.kernel.ptable q).state = .unused :=
      hstate.resolve_right fun h ↦ by cases hcall.symm.trans h.2
    rw [hnot, hunused]
    decide

/-- `p` is the process that runs. -/
def Sched.runs (p : Slot) : Sched → Bool
  | .running q _ _ => decide (q = p)
  | .idle => false

/-- A process that runs in user mode is outside of all calls. -/
theorem Machine.outside_of_runs {m : Machine} (hrun : m.sched.runs p = true)
    (hcall : m.kernel.call p = .user) : m.Outside := by
  cases hsched : m.sched with
  | idle =>
    rw [hsched] at hrun
    cases hrun
  | running q maxPri cou =>
    rw [hsched] at hrun
    obtain rfl : q = p := of_decide_eq_true hrun
    exact ⟨q, maxPri, cou, hsched, hcall⟩

/-- The first process cannot copy its memory for a child; then it sleeps and is dispatched again. -/
def failedFork : List Action :=
  [.schedule, .fork true, .forkCopy false, .forkReturn, .sleep 7, .wakeup (.addr 7), .schedule]

/-- A `fork` has failed, and the flags are right. -/
theorem failedFork_inuseTrue :
    ∃ m : Machine, m.kernel.nextpid = 3 ∧ InuseTrue m.kernel.ptable := by
  obtain ⟨m, hm, hcheck⟩ := System.Reachable.exists_of_run (l := failedFork)
    (p := fun m ↦ decide (m.kernel.nextpid = 3 ∧ m.kernel.call initproc = .user) &&
      m.sched.runs initproc)
    (System.next_of_checked (S := system) (P := fun _ a ↦ a ≠ .forkCopy true) (f := Machine.step)
      (e := .blocked) fun _ _ _ hstep ↦ hstep) (.init rfl) (by decide +kernel)
  obtain ⟨hcall, hrun⟩ := (Bool.and_eq_true _ _).mp hcheck
  obtain ⟨hpid, hcall⟩ := of_decide_eq_true hcall
  exact ⟨m, hpid, (inuseTrue_until_fork m m).1 hm (Machine.outside_of_runs hrun hcall)⟩

/-- The first process makes a child. -/
def firstChild : List Action := [.schedule, .fork true, .forkCopy true, .forkReturn]

/-- **A process that is not in use.** After the first `fork` the child is RUNNABLE, and `getpinfo`
reports it as not in use. -/
theorem child_not_inuse : ¬ ∀ m, system.Reachable m → m.Outside → InuseTrue m.kernel.ptable := by
  intro hall
  obtain ⟨m, hm, hcheck⟩ := System.Reachable.exists_of_run (S := system) (f := Machine.step)
    (p := fun m ↦ decide ((m.kernel.ptable child).inuse = false ∧
      (m.kernel.ptable child).state = .runnable ∧ m.kernel.call initproc = .user) &&
      m.sched.runs initproc)
    (fun _ _ _ hstep ↦ hstep) (l := firstChild) (.init rfl : system.Reachable boot)
    (by decide +kernel)
  obtain ⟨hchild, hrun⟩ := (Bool.and_eq_true _ _).mp hcheck
  obtain ⟨hnot, hrunnable, hcall⟩ := of_decide_eq_true hchild
  have hmarked : (m.kernel.ptable child).inuse = true :=
    (hall m hm (Machine.outside_of_runs hrun hcall) child).2 (by
      show (m.kernel.ptable child).state ≠ .unused
      rw [hrunnable]
      decide)
  cases hnot.symm.trans hmarked

end Mlfq
