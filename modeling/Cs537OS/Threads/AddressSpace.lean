import Cs537OS.Threads.Reaping

/-!
# The lifetime of an address space

When is it right that `wait` and `exec` free a page directory? The README says that `wait` frees it
only when the last reference to it is gone; what the code has for that is `count_thread`, the number
of threads a process has cloned and not joined.

* `freevm_safe` — in every run whose steps meet `Meets`, no page directory is freed that an entry
  still uses or that is not allocated;
* `orphanThread_freed` — a run in which `wait` frees the page directory of a running process: a
  thread clones another thread and exits, the new one is passed to the first process, which reaps it
  with count zero, as if it were the last.

`Meets` asks nothing of the calls that free no page directory and move nobody to another parent.
-/

open Xv6

namespace Threads

open Kernel

/-- The step does not break the bookkeeping of page directories. -/
def Meets (k : Kernel) : Action → Prop
  | .forkCopy _ space => ∀ d, space = .aborted d → ¬ k.Leftover d
  | .forkReturn p => ∀ np, k.call p = .forkReturn np → (k.ptable np).countThread = 0
  | .exec p space =>
    (∀ d, space = .aborted d → ¬ k.Leftover d) ∧
      ∀ d sz, space = .ready d sz →
        k.Alone p ∧ ¬ k.StaleBelow p d ∧ ¬ k.Leftover (k.ptable p).pgdir
  | .exit p =>
    (k.IsThread p → ∀ i, ¬ k.SharingChild p i) ∧
      ∀ i j, k.SharingChild p i → k.SharingChild p j → i = j
  | .wait p => ∀ q, k.zombieChild p = some q → (k.ptable q).countThread = 0 →
      ¬ k.Leftover (k.ptable q).pgdir
  | _ => True

instance (k : Kernel) (p : Slot) : Decidable (k.IsThread p) := inferInstanceAs (Decidable (∃ _, _))

instance (k : Kernel) (p i : Slot) : Decidable (k.SharingChild p i) :=
  inferInstanceAs (Decidable (_ ∧ _))

instance (k : Kernel) : (a : Action) → Decidable (Meets k a)
  | .forkCopy _ (.aborted d) =>
    decidable_of_iff (¬ k.Leftover d) ⟨fun h _ heq ↦ NewSpace.aborted.inj heq ▸ h, fun h ↦ h d rfl⟩
  | .forkCopy _ .none => .isTrue nofun
  | .forkCopy _ (.ready _ _) => .isTrue nofun
  | .forkReturn _ => inferInstanceAs (Decidable (∀ _, _ → _))
  | .exec _ (.aborted d) =>
    decidable_of_iff (¬ k.Leftover d)
      ⟨fun h ↦ ⟨fun _ heq ↦ NewSpace.aborted.inj heq ▸ h, nofun⟩, fun h ↦ h.1 d rfl⟩
  | .exec _ .none => .isTrue ⟨nofun, nofun⟩
  | .exec p (.ready d sz) =>
    decidable_of_iff (k.Alone p ∧ ¬ k.StaleBelow p d ∧ ¬ k.Leftover (k.ptable p).pgdir)
      ⟨fun h ↦ ⟨nofun, fun _ _ heq ↦ (NewSpace.ready.inj heq).1 ▸ h⟩, fun h ↦ h.2 d sz rfl⟩
  | .exit _ => inferInstanceAs (Decidable ((_ → ∀ _, _) ∧ ∀ _ _, _ → _ → _))
  | .wait _ => inferInstanceAs (Decidable (∀ _, _ → _ → _))
  | .dispatch _ | .yield _ | .sleep _ _ | .wakeup _ | .kill _ | .growproc _ _ _ | .growNext _
  | .fork _ | .noKstack _ | .clone _ _ | .cloneCopy _ | .cloneReturn _ _ | .join _ _ =>
    .isTrue trivial

/-- The step frees no page directory that is in use or not allocated. -/
def FreesSafely (k : Kernel) (a : Action) : Prop :=
  k.step a ≠ .error .inUse ∧ k.step a ≠ .error .notAllocated

/-! ### The invariant along a run -/

/-- What a step can come to when the invariant holds before it. -/
def Fine (x : Except Fault Kernel) : Prop :=
  x = .error .blocked ∨ x = .error .panic ∨ ∃ k, x = .ok k ∧ Inv k

theorem Fine.ok {k : Kernel} (h : Inv k) : Fine (.ok k) := .inr (.inr ⟨k, rfl, h⟩)

/-- A step that may have to wait is fine if it is fine when it need not. -/
theorem Fine.require {c : Prop} [Decidable c] {x : Except Fault Kernel} (hx : c → Fine x) :
    Fine (require c x) := by
  by_cases hc : c
  · rw [Threads.require, if_pos hc]
    exact hx hc
  · exact .inl (if_neg hc)

theorem Fine.frees {x : Except Fault Kernel} (h : Fine x) :
    x ≠ .error .inUse ∧ x ≠ .error .notAllocated := by
  rcases h with rfl | rfl | ⟨k, rfl, -⟩ <;> exact ⟨nofun, nofun⟩

theorem Fine.inv {k : Kernel} (h : Fine (.ok k)) : Inv k := by
  rcases h with h | h | ⟨k', h, hinv⟩
  · cases h
  · cases h
  · exact Except.ok.inj h ▸ hinv

/-- A step that meets the condition keeps the invariant. -/
theorem Kernel.Inv.fine_step {k : Kernel} (h : Inv k) {a : Action} (ha : Meets k a) :
    Fine (k.step a) := by
  cases a with
  | dispatch p => exact .require fun hp ↦ .ok (h.of_placed (placed_dispatch hp) rfl rfl)
  | yield p => exact .require fun hp ↦ .ok (h.of_placed hp.placed_yield rfl rfl)
  | sleep p a => exact .require fun hp ↦ .ok (h.of_placed hp.placed_sleep rfl rfl)
  | wakeup a => exact .ok (h.of_placed placed_wakeup1 rfl rfl)
  | kill pid => exact .ok (h.kill pid)
  | growproc p n memory =>
    refine .require fun hp ↦ ?_
    cases k.growproc p n memory with
    | none => exact .ok h
    | some sz => exact .ok (h.setCall hp.1.awake trivial)
  | growNext p =>
    refine .require fun hp ↦ ?_
    cases hok : k.growNext p with
    | error e => exact .inl (growNext_eq_error hok ▸ rfl)
    | ok k' => exact .ok (h.growNext hp hok)
  | fork p => exact .require fun hp ↦ .ok (h.fork hp.1)
  | noKstack p =>
    cases hcall : k.call p with
    | fork np =>
      simp only [Kernel.step, hcall]
      exact .require fun hp ↦ .ok (h.noKstack hp (.inl hcall))
    | clone np stack =>
      simp only [Kernel.step, hcall]
      exact .require fun hp ↦ .ok (h.noKstack hp (.inr ⟨stack, hcall⟩))
    | _ => exact .inl (by simp only [Kernel.step, hcall])
  | forkCopy p space =>
    cases hcall : k.call p with
    | fork np =>
      simp only [Kernel.step, hcall]
      refine .require fun hp ↦ ?_
      obtain ⟨r, hr, hinv⟩ := h.forkCopy hp.1 (.inl hcall) hp.2 ha
      rw [hr]
      exact .ok hinv
    | _ => exact .inl (by simp only [Kernel.step, hcall])
  | forkReturn p =>
    cases hcall : k.call p with
    | forkReturn np =>
      simp only [Kernel.step, hcall]
      exact .require fun hp ↦ .ok (h.forkReturn hp (ha np hcall))
    | _ => exact .inl (by simp only [Kernel.step, hcall])
  | clone p stack => exact .require fun hp ↦ .ok (h.clone hp.1 stack)
  | cloneCopy p =>
    cases hcall : k.call p with
    | clone np stack =>
      simp only [Kernel.step, hcall]
      exact .require fun hp ↦ .ok (h.cloneCopy hp (.inr ⟨stack, hcall⟩) stack)
    | _ => exact .inl (by simp only [Kernel.step, hcall])
  | cloneReturn p copied =>
    cases hcall : k.call p with
    | cloneReturn np =>
      simp only [Kernel.step, hcall]
      exact .require fun hp ↦ .ok (h.cloneReturn hp hcall copied)
    | _ => exact .inl (by simp only [Kernel.step, hcall])
  | exec p space =>
    refine .require fun hp ↦ ?_
    obtain ⟨r, hr, hinv⟩ := h.exec hp.1.1 hp.2 ha.1 ha.2
    rw [hr]
    exact .ok hinv
  | exit p =>
    refine .require fun hp ↦ ?_
    by_cases hroot : p = initproc
    · exact .inr (.inl (if_pos hroot))
    · obtain ⟨k', hk', hinv⟩ := h.exit hp hroot ha.1 ha.2
      rw [hk']
      exact .ok hinv
  | wait p =>
    refine .require fun hp ↦ ?_
    obtain ⟨r, hr, hinv⟩ := h.wait hp.1 (simple_of_user_or hp.2) ha
    have hawake := hp.1.awake_wait ((Unmonitored.agrees_wait k p).eq_ok hr)
    rw [hr]
    refine .ok (hinv.setCall hawake ?_)
    split_ifs <;> trivial
  | join p stack =>
    refine .require fun hp ↦ ?_
    split_ifs
    · exact .ok h
    · refine .ok ((h.join hp.1 (simple_of_user_or_join hp.2)).setCall hp.1.awake_join ?_)
      split_ifs <;> trivial

/-! ### The first process -/

theorem allocproc_zeroed : zeroed.allocproc.2 = zeroed.allocEntry initproc := by
  have hfirst : (List.finRange NPROC).find? (fun p ↦ (zeroed.ptable p).state = .unused) =
      some initproc := rfl
  rw [allocproc, hfirst]

/-- At boot the first process has a page, -/
theorem userinit_ptable_initproc (d : ℕ) : (userinit d).ptable initproc =
    ⟨PGSIZE, d, .runnable, 1, none, .null, false, 0, 0⟩ := by
  rw [userinit, allocproc_zeroed, modify_ptable_self]
  show _ = _
  rfl

/-- and the other entries are free. -/
theorem userinit_ptable_of_ne (d : ℕ) {i : Slot} (hi : i ≠ initproc) :
    (userinit d).ptable i = zeroed.ptable i := by
  rw [userinit, allocproc_zeroed, modify_ptable_of_ne hi]
  exact allocEntry_ptable_of_ne hi

theorem userinit_pgdirs (d : ℕ) : (userinit d).pgdirs = {d} := by
  rw [userinit, allocproc_zeroed]
  rfl

theorem userinit_call (d : ℕ) : (userinit d).call = fun _ ↦ .user := by
  rw [userinit, allocproc_zeroed]
  rfl

theorem userinit_nextpid (d : ℕ) : (userinit d).nextpid = 2 := by
  rw [userinit, allocproc_zeroed]
  rfl

/-- At boot the forest is the first process alone. -/
theorem userinit_forest (d : ℕ) : (userinit d).forest = OwnerForest.single initproc d := by
  refine OwnerForest.State.ext (funext fun i ↦ ?_) (funext fun i ↦ ?_) ?_
  · show ((userinit d).ptable i).view = ite _ _ _
    split_ifs with hi
    · rw [hi, userinit_ptable_initproc,
        Proc.view_of_present (Proc.present_of_ne (by simp) (by simp))]
      exact congrArg some (OwnerForest.Node.ext (eq_false nofun) rfl rfl)
    · rw [userinit_ptable_of_ne d hi, Proc.view_of_not_present (Proc.not_present_of_unused rfl)]
  · show ((userinit d).ptable i).counted = 0
    by_cases hi : i = initproc
    · rw [hi, userinit_ptable_initproc, Proc.counted_eq_zero rfl]
    · rw [userinit_ptable_of_ne d hi, Proc.counted_eq_zero rfl]
  · show ((userinit d).pgdirs : Set ℕ) = {d}
    rw [userinit_pgdirs, Finset.coe_singleton]

theorem userinit_not_halfMade {d : ℕ} (i : Slot) : ¬ ((userinit d).ptable i).HalfMade := by
  by_cases hi : i = initproc
  · rw [hi, userinit_ptable_initproc]
    exact fun h ↦ by cases h.1
  · rw [userinit_ptable_of_ne d hi]
    exact fun h ↦ by cases h.1

/-- The invariant holds at boot. -/
theorem userinit_inv {d : ℕ} (hd : d ≠ 0) : Inv (userinit d) := by
  have hfills : ∀ p np, ¬ (userinit d).Fills p np := by
    intro p np
    rw [Fills, userinit_call]
    simp
  have huser : ∀ p, (userinit d).call p = .user := fun p ↦ by rw [userinit_call]
  refine ⟨⟨?_, fun i hi ↦ ?_, fun i hi ↦ absurd hi (userinit_not_halfMade i),
    fun p np hf ↦ absurd hf (hfills p np), fun p q np hp _ ↦ absurd hp (hfills p np),
    fun p np hm ↦ ?_, fun p np hc ↦ ?_, fun p hp ↦ absurd (huser p) hp⟩, ?_⟩
  · rw [userinit_pgdirs, Finset.mem_singleton]
    exact hd.symm
  · by_cases hinit : i = initproc
    · rw [hinit, userinit_ptable_initproc] at hi
      cases hi
    · rw [userinit_ptable_of_ne d hinit]
      rfl
  · rcases hm with hc | hc <;> rw [huser p] at hc <;> cases hc
  · rw [huser p] at hc
    cases hc
  · rw [userinit_forest]
    exact .single initproc d

/-! ### Every run -/

/-- The invariant holds in every run whose steps meet the condition. -/
theorem inv_of_reachable {k : Kernel} (hk : (system.restrict Meets).Reachable k) : Inv k := by
  refine hk.invariant ?_ ?_
  · rintro s ⟨d, hd, rfl⟩
    exact userinit_inv hd
  · rintro s a t hs ⟨ha, hstep⟩
    have hfine := hs.fine_step ha
    rw [hstep] at hfine
    exact hfine.inv

/-- **In every run whose steps meet the condition no page directory is freed that an entry of the
process table still uses, and none that is not allocated.** -/
theorem freevm_safe {k : Kernel} (hk : (system.restrict Meets).Reachable k) {a : Action}
    (ha : Meets k a) : FreesSafely k a :=
  ((inv_of_reachable hk).fine_step ha).frees

/-- The first process forks a process, which clones a thread, joins it when it has exited, and exits
itself. -/
def joinedThread : List Action :=
  let init : Slot := initproc
  let main : Slot := ⟨1, one_lt_NPROC⟩
  let thread : Slot := ⟨2, two_lt_NPROC⟩
  [.dispatch init, .fork init, .forkCopy init (.ready 2 PGSIZE), .dispatch main, .forkReturn init,
    .clone main 4096, .cloneCopy main, .cloneReturn main true, .dispatch thread, .exit thread,
    .join main 0, .exit main]

/-- After that the first process waits, and frees the page directory. -/
theorem joinedThread_freed : ∃ k, (k.ptable ⟨1, one_lt_NPROC⟩).state = .zombie ∧
    k.zombieChild initproc = some ⟨1, one_lt_NPROC⟩ ∧ FreesSafely k (.wait initproc) := by
  obtain ⟨k, hreach, hk⟩ := System.Reachable.exists_of_run (S := system.restrict Meets)
    (f := System.checked Meets Kernel.step .blocked)
    (p := fun k ↦ decide ((k.ptable ⟨1, one_lt_NPROC⟩).state = .zombie ∧
      k.zombieChild initproc = some ⟨1, one_lt_NPROC⟩ ∧ Meets k (.wait initproc)))
    (l := joinedThread) (System.next_of_checked fun _ _ _ h ↦ h) (.init ⟨1, by decide, rfl⟩)
    (by decide +kernel)
  obtain ⟨hstate, hchild, hmeets⟩ := of_decide_eq_true hk
  exact ⟨k, hstate, hchild, freevm_safe hreach hmeets⟩

/-! ### A thread of a thread -/

/-- The first process forks a process, which clones a thread, which clones another thread and
exits, and the other thread exits too. -/
def orphanThread : List Action :=
  let init : Slot := initproc
  let main : Slot := ⟨1, one_lt_NPROC⟩
  let first : Slot := ⟨2, two_lt_NPROC⟩
  let second : Slot := ⟨3, by decide⟩
  [.dispatch init, .fork init, .forkCopy init (.ready 2 PGSIZE), .forkReturn init,
    .dispatch main, .clone main 4096, .cloneCopy main, .cloneReturn main true,
    .dispatch first, .clone first 8192, .cloneCopy first, .cloneReturn first true, .exit first,
    .dispatch second, .exit second]

/-- The fault that a computation ends in. -/
def fault? : Except Fault Kernel → Option Fault
  | .ok _ => none
  | .error e => some e

theorem fault?_eq_some_iff {x : Except Fault Kernel} {e : Fault} :
    fault? x = some e ↔ x = .error e := by
  cases x <;> simp [fault?]

theorem fault?_eq_none_iff {x : Except Fault Kernel} : fault? x = none ↔ ∃ k, x = .ok k := by
  cases x <;> simp [fault?]

/-- **`wait` frees the page directory of a process that runs**: the first process reaps the thread
that was passed to it. -/
theorem orphanThread_freed : ¬ ∀ k, system.Reachable k → ∀ a, FreesSafely k a := by
  intro hall
  have hrun : fault? (orphanThread.foldlM Kernel.step (userinit 1)) = none := by decide +kernel
  have hwait : fault? (do
      let k ← orphanThread.foldlM Kernel.step (userinit 1)
      k.step (.wait initproc)) = some .inUse := by decide +kernel
  obtain ⟨k, hk⟩ := fault?_eq_none_iff.1 hrun
  rw [hk] at hwait
  have hreach : system.Reachable k := .of_foldlM (fun _ _ _ h ↦ h) (.init ⟨1, by decide, rfl⟩) hk
  exact (hall k hreach (.wait initproc)).1 (fault?_eq_some_iff.1 hwait)

end Threads
