import Cs537OS.Threads.History

/-!
# What holds of every table

`Orderly` is what the bookkeeping of threads needs of the table, and `Numbered` adds that pids are
positive. Every step keeps both, also one that frees a page directory in use or a `clone` that fails
after it has taken an entry, so that they hold in every run (`numbered_of_reachable`).

With them go facts of single steps: an entry with a parent is an EMBRYO after the step exactly when
it was one before, but for the thread that `clone` makes RUNNABLE (`embryo_iff_of_step`), and a
process keeps its page directory and its stack until it executes another program or exits
(`frame_of_step`).
-/

open GuardedLoop (bind_eq_ok_iff)
open Xv6

namespace Threads

open Kernel

variable {k k' : Kernel} {p q np i : Slot} {a : Action}

/-! ### Pids -/

/-- The pids that are in use or will be given out are positive. -/
structure Kernel.Numbered (k : Kernel) : Prop extends Orderly k where
  nextpid : 0 < k.nextpid
  pid : ∀ i, (k.ptable i).state ≠ .unused → 0 < (k.ptable i).pid

/-- A change of the table gives out positive pids. -/
theorem Kernel.Numbered.of_change (h : Numbered k) (hk' : Orderly k') {es : List Event}
    (hchange : Change k k' a es) : Numbered k' := by
  -- the entry `x` changes, and has a positive pid if it is in use
  have hentry : ∀ x, k.nextpid ≤ k'.nextpid →
      (∀ i, i ≠ x → Alike (k.ptable i) (k'.ptable i)) →
      ((k'.ptable x).state ≠ .unused → 0 < (k'.ptable x).pid) → Numbered k' := by
    intro x hnext hrest hx
    refine ⟨hk', lt_of_lt_of_le h.nextpid hnext, fun i hi ↦ ?_⟩
    by_cases hix : i = x
    · exact hix ▸ hx (hix ▸ hi)
    · rw [(hrest i hix).pid]
      exact h.pid i (mt (hrest i hix).unused.2 hi)
  cases hchange with
  | idle hsame hnext =>
    exact hentry initproc hnext.ge (fun i _ ↦ (hsame i).toAlike) fun hi ↦
      (hsame initproc).pid ▸ h.pid _ (mt (hsame initproc).unused.2 hi)
  | take np hold hnew hpid hrest hnext =>
    exact hentry np (by omega) (fun i hi ↦ (hrest i hi).toAlike) fun _ ↦ hpid ▸ h.nextpid
  | giveUp np hold hnew hrest hnext =>
    exact hentry np hnext.ge (fun i hi ↦ (hrest i hi).toAlike) fun hi ↦ absurd hnew hi
  | child q np hq hold hnew hpid hparent hpgdir hrest hnext =>
    exact hentry np hnext.ge (fun i hi ↦ (hrest i hi).toAlike) fun _ ↦
      hpid ▸ h.pid np (by rw [hold.1]; decide)
  | reset q np heq hcall hnew hrest hnext =>
    refine hentry np hnext.ge (fun i hi ↦ (hrest i hi).toAlike) fun hi ↦ ?_
    rw [hnew] at hi ⊢
    exact h.pid np hi
  | claim q np stack heq hq hcall hold hnew hpid hparent hpgdir hstack hrest hnext =>
    exact hentry np hnext.ge (fun i hi ↦ (hrest i hi).toAlike) fun _ ↦
      hpid ▸ h.pid np (by rw [hold.1]; decide)
  | thread q np heq hcall hold hnew hrest hnext =>
    refine hentry np hnext.ge (fun i hi ↦ (hrest i hi).toAlike) fun _ ↦ ?_
    rw [hnew]
    exact h.pid np (by rw [hold]; decide)
  | exec q d sz ha hq hd hnew hrest hnext =>
    refine hentry q hnext.ge (fun i hi ↦ (hrest i hi).toAlike) fun _ ↦ ?_
    rw [hnew]
    exact h.pid q hq.present.1
  | exit q ha hq hroot hnew hpid hpgdir hstack hcount hparent hrest hnext =>
    exact hentry q hnext.ge hrest fun _ ↦ hpid ▸ h.pid q hq.present.1
  | wait q x hq hx hold hnew hrest hnext =>
    exact hentry x hnext.ge (fun i hi ↦ (hrest i hi).toAlike) fun hi ↦ absurd hnew hi
  | join q x hq hx hold hnew hrest hnext =>
    exact hentry x hnext.ge (fun i hi ↦ (hrest i hi).toAlike) fun hi ↦ absurd hnew hi

/-- A `clone` that fails leaves the entry as it is, and any other step is a change. -/
theorem change_or_failed (h : Numbered k) (hstep : Unmonitored.step k a = .ok k') :
    Change k k' a (k.events a) ∨ ∃ q, k' = k.setCall q .user := by
  by_cases ha : ∀ q copied, a = .cloneReturn q copied → copied = true
  · exact .inl (change_of_step h.toOrderly h.pid ha hstep)
  · obtain ⟨q, ha⟩ := not_forall.1 ha
    obtain ⟨copied, ha⟩ := not_forall.1 ha
    obtain ⟨rfl, hcopied⟩ := Classical.not_imp.1 ha
    obtain rfl : copied = false := eq_false_of_ne_true hcopied
    obtain ⟨np, -, -, rfl⟩ := Unmonitored.step_cloneReturn hstep
    exact .inr ⟨q, rfl⟩

/-- A step keeps the pids apart, -/
theorem Kernel.Numbered.step (h : Numbered k) (hstep : Unmonitored.step k a = .ok k') :
    Numbered k' := by
  have hk' := h.toOrderly.step hstep
  rcases change_or_failed h hstep with hchange | ⟨q, rfl⟩
  · exact h.of_change hk' hchange
  · exact ⟨hk', h.nextpid, h.pid⟩

/-- and so does every run. -/
theorem numbered_of_reachable (hk : Unmonitored.system.Reachable k) : Numbered k := by
  refine hk.invariant ?_ fun s a t hs hstep ↦ hs.step hstep
  rintro s ⟨d, hd, rfl⟩
  refine ⟨(userinit_inv hd).toOrderly, ?_, fun i hi ↦ ?_⟩
  · rw [userinit_nextpid]
    decide
  · by_cases hroot : i = initproc
    · rw [hroot, userinit_ptable_initproc]
      exact Int.one_pos
    · rw [userinit_ptable_of_ne d hroot] at hi
      exact absurd rfl hi

/-! ### Entries with a parent -/

/-- A failed `clone` leaves an EMBRYO with a parent, which stays one, and no other entry with a
parent becomes one. -/
theorem embryo_iff_of_step (h : Orderly k) (hstep : Unmonitored.step k a = .ok k')
    (hparent : (k.ptable i).parent ≠ none)
    (hreturn : ∀ q, k.call q = .cloneReturn i → a ≠ .cloneReturn q true) :
    (k'.ptable i).state = .embryo ↔ (k.ptable i).state = .embryo := by
  have hused : (k.ptable i).state ≠ .unused := fun hu ↦ hparent (h.unused_parent i hu)
  have hfills : ∀ q, ¬ k.Fills q i := fun q hf ↦ hparent (h.fills_halfMade q i hf).2
  by_cases hexit : ∃ q, a = .exit q
  · obtain ⟨q, rfl⟩ := hexit
    obtain ⟨hq, hok⟩ := Unmonitored.require_eq_ok hstep
    obtain ⟨hroot, -⟩ := exit_eq_ok hok
    obtain ⟨k₁, hk₁, -, -, hkept, hzombie, -⟩ := exit_spec (k := k) hroot
    obtain rfl : k₁ = k' := Except.ok.inj (hk₁.symm.trans hok)
    by_cases hi : i = q
    · subst hi
      rw [hzombie, hq.1]
      decide
    · exact (hkept i hi).embryo
  by_cases hcopy : ∃ q, a = .cloneCopy q
  · obtain ⟨q, rfl⟩ := hcopy
    obtain ⟨np, stack, hcall, hq, rfl⟩ := Unmonitored.step_cloneCopy hstep
    have hf : k.Fills q np := .inr ⟨stack, hcall⟩
    have hinp : i ≠ np := fun heq ↦ hfills q (heq ▸ hf)
    exact (same_cloneCopy hq (Fills.ne h hq hf) stack hinp).embryo
  by_cases hlast : ∃ q copied, a = .cloneReturn q copied
  · obtain ⟨q, copied, rfl⟩ := hlast
    obtain ⟨np, hcall, -, rfl⟩ := Unmonitored.step_cloneReturn hstep
    cases copied with
    | false => exact .rfl
    | true =>
      have hinp : i ≠ np := by
        rintro rfl
        exact hreturn q hcall rfl
      rw [setCall_ptable, cloneReturn_ptable_of_ne hinp]
  have hfate := fate_of_step_of_ne (fun q heq ↦ hexit ⟨q, heq⟩) (fun q heq ↦ hcopy ⟨q, heq⟩)
    (fun q copied heq ↦ hlast ⟨q, copied, heq⟩) hstep i
  cases hfate with
  | kept hstate hstill => rw [hstate]
  | dispatched ha hold hnew => rw [hold, hnew]; decide
  | yielded ha hold hnew => rw [hold, hnew]; decide
  | slept ha hold hnew => rw [hold, hnew]; decide
  | woken hchan hold hnew => rw [hold, hnew]; decide
  | killed pid ha hit hnew =>
    rw [hnew]
    split_ifs with hs
    · rw [hs]
      decide
    · exact .rfl
  | exited ha hold hnew => rw [hold, hnew]; decide
  | reaped hold hnew => rw [hold, hnew]; decide
  | taken hold hnew => exact absurd hold hused
  | filled q ha hmakes hnew =>
    rcases hmakes with hf | ⟨-, heq⟩
    · exact absurd hf (hfills q)
    · exact absurd ⟨q, true, heq⟩ hlast

/-! ### What a step leaves alone -/

/-- A process that has not exited keeps its page directory and its stack, unless it executes another
program. -/
theorem Change.frame {es : List Event} (hchange : Change k k' a es) (hi : (k.ptable i).Present)
    (hlive : (k.ptable i).state ≠ .zombie) (hexec : ∀ d sz, a ≠ .exec i (.ready d sz)) :
    (k'.ptable i).pgdir = (k.ptable i).pgdir ∧ (k'.ptable i).stack = (k.ptable i).stack := by
  have hsame : Same (k.ptable i) (k'.ptable i) →
      (k'.ptable i).pgdir = (k.ptable i).pgdir ∧ (k'.ptable i).stack = (k.ptable i).stack :=
    fun h ↦ ⟨h.pgdir, h.stack⟩
  have hhalf : ∀ {x}, (k.ptable x).HalfMade → i ≠ x := fun hx heq ↦ hi.2 (heq ▸ hx)
  have hzombie : ∀ {x}, (k.ptable x).state = .zombie → i ≠ x := fun hx heq ↦ hlive (heq ▸ hx)
  cases hchange with
  | idle hall => exact hsame (hall i)
  | take np hold _ _ hrest => exact hsame (hrest i fun heq ↦ hi.1 (heq ▸ hold))
  | giveUp np hold _ hrest => exact hsame (hrest i (hhalf hold))
  | child q np _ hold _ _ _ _ hrest => exact hsame (hrest i (hhalf hold))
  | claim q np stack _ _ _ hold _ _ _ _ _ hrest => exact hsame (hrest i (hhalf hold))
  | reset q np _ _ hnew hrest =>
    by_cases hnp : i = np
    · rw [hnp, hnew]
      exact ⟨rfl, rfl⟩
    · exact hsame (hrest i hnp)
  | thread q np _ _ _ hnew hrest =>
    by_cases hnp : i = np
    · rw [hnp, hnew]
      exact ⟨rfl, rfl⟩
    · exact hsame (hrest i hnp)
  | exec q d sz ha _ _ _ hrest =>
    refine hsame (hrest i ?_)
    rintro rfl
    exact hexec d sz ha
  | exit q _ _ _ _ _ hpgdir hstack _ _ hrest =>
    refine ⟨hpgdir i, ?_⟩
    by_cases hq : i = q
    · exact hq ▸ hstack
    · exact (hrest i hq).stack
  | wait q x _ _ hold _ hrest => exact hsame (hrest i (hzombie hold))
  | join q x _ _ hold _ hrest => exact hsame (hrest i (hzombie hold))

/-- **What a step leaves alone** in the entry of a process. -/
theorem frame_of_step (h : Numbered k) (hi : (k.ptable i).Present)
    (hlive : (k.ptable i).state ≠ .zombie) (hexec : ∀ d sz, a ≠ .exec i (.ready d sz))
    (hstep : Unmonitored.step k a = .ok k') :
    (k'.ptable i).pgdir = (k.ptable i).pgdir ∧ (k'.ptable i).stack = (k.ptable i).stack := by
  rcases change_or_failed h hstep with hchange | ⟨q, rfl⟩
  · exact hchange.frame hi hlive hexec
  · exact ⟨rfl, rfl⟩

/-- A thread that has been filled in and is not RUNNABLE yet keeps its page directory and its stack,
and its parent its page directory. -/
theorem frame_of_made (h : Numbered k) (hcall : k.call p = .cloneReturn np)
    (hstep : Unmonitored.step k a = .ok k') :
    ((k'.ptable np).pgdir = (k.ptable np).pgdir ∧ (k'.ptable np).stack = (k.ptable np).stack) ∧
      (k'.ptable p).pgdir = (k.ptable p).pgdir := by
  have hembryo := h.made_embryo p np hcall
  have hparent := h.made_parent p np (.inr hcall)
  have hp : (k.ptable p).Awake := h.busy p fun huser ↦ by cases hcall.symm.trans huser
  have hnp : (k.ptable np).Present :=
    Proc.present_of_parent (by rw [hembryo]; decide) hparent
  obtain ⟨hunused, hnembryo, hlive⟩ := Proc.awake_iff.1 hp
  refine ⟨frame_of_step h hnp (by rw [hembryo]; decide) (fun d sz ha ↦ ?_) hstep,
    (frame_of_step h (Proc.present_of_ne hunused hnembryo) hlive (fun d sz ha ↦ ?_) hstep).1⟩
  · subst ha
    obtain ⟨⟨hrun, -⟩, -⟩ := Unmonitored.require_eq_ok hstep
    cases hembryo.symm.trans hrun.1
  · subst ha
    obtain ⟨⟨hrun, -⟩, -⟩ := Unmonitored.require_eq_ok hstep
    cases hcall.symm.trans hrun.2

/-! ### The record -/

/-- Who has asked for what a step adds to the record. -/
theorem action_of_mem_events {e : Event} (he : e ∈ k.events a) :
    (∀ pid, e = .forked q pid → ∃ space, a = .forkCopy q space) ∧
      (∀ pid stack, e = .cloned q pid stack → ∃ copied, a = .cloneReturn q copied) ∧
        ∀ pid stack, e = .joined q pid stack → ∃ ptr, a = .join q ptr := by
  cases a with
  | forkCopy p space =>
    simp only [events] at he
    split at he
    · split at he
      · obtain rfl := List.mem_singleton.1 he
        simp
      · exact absurd he List.not_mem_nil
    · exact absurd he List.not_mem_nil
  | cloneReturn p copied =>
    simp only [events] at he
    split at he
    · split_ifs at he with hfail
      · exact absurd he List.not_mem_nil
      · obtain rfl := List.mem_singleton.1 he
        simp
    · exact absurd he List.not_mem_nil
  | exit p =>
    obtain rfl := List.mem_singleton.1 he
    simp
  | wait p =>
    simp only [events] at he
    split at he
    · split_ifs at he with hfail
      · exact absurd he List.not_mem_nil
      · obtain rfl := List.mem_singleton.1 he
        simp
    · exact absurd he List.not_mem_nil
  | join p ptr =>
    simp only [events] at he
    split at he
    · obtain rfl := List.mem_singleton.1 he
      simp
    · exact absurd he List.not_mem_nil
  | _ => exact absurd he List.not_mem_nil

end Threads
