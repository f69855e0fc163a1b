import Cs537OS.Threads.Spawning

/-!
# Exiting and reaping

`exit`, `wait` and `join` as operations of the forest: a node that finishes and nodes that are
removed. `Inv.freevm_zombie` is the reason why `wait` may free the page directory of a zombie child
whose count is zero: the child does not share with its parent, so it owns the directory, and an
owner that has finished with count zero is the last user.

`Orderly.step` collects what each call does to the entries beside the forest: whatever the step,
they stay in order.
-/

open GuardedLoop (bind_eq_ok_iff)
open OwnerForest (Node State)
open Xv6

namespace Threads

namespace Kernel

variable {k k' : Kernel} {p q np : Slot} {d : ℕ}

/-! ### Exiting -/

/-- One turn of the loop of `exit`: the entry is no child, or its parent is set and somebody may be
woken. -/
theorem passChild_cases (p : Slot) (k : Kernel) (q : Slot) :
    (k.ptable q).parent ≠ some p ∧ passChild p k q = k ∨
      (k.ptable q).parent = some p ∧ ∃ k', k' = k.modify q (fun a ↦
          { a with parent := some initproc }) ∧
        (passChild p k q = k' ∨ passChild p k q = k'.wakeup1 (.proc initproc)) := by
  by_cases hq : (k.ptable q).parent = some p
  · refine .inr ⟨hq, _, rfl, ?_⟩
    rw [passChild, if_pos hq]
    dsimp only
    split_ifs
    · exact .inr rfl
    · exact .inl rfl
  · exact .inl ⟨hq, if_neg hq⟩

/-- A turn of the loop of `exit` gives a child of the process to init. -/
theorem passChild_spec (i : Slot) :
    Kept (k.ptable i) ((passChild p k q).ptable i) ∧
      ((passChild p k q).ptable i).parent =
        if i = q ∧ (k.ptable i).parent = some p then some initproc else (k.ptable i).parent := by
  rcases passChild_cases p k q with ⟨hq, heq⟩ | ⟨hq, k', hk', heq⟩
  · have hi : ¬ (i = q ∧ (k.ptable i).parent = some p) := fun hi ↦ hq (hi.1 ▸ hi.2)
    rw [heq, if_neg hi]
    exact ⟨.refl _, rfl⟩
  · have hmod : Kept (k.ptable i) (k'.ptable i) ∧ (k'.ptable i).parent =
        if i = q ∧ (k.ptable i).parent = some p then some initproc else (k.ptable i).parent := by
      rw [hk']
      by_cases hi : i = q
      · rw [hi, modify_ptable_self, if_pos ⟨rfl, hq⟩]
        exact ⟨⟨rfl, rfl, .rfl, .rfl, .rfl⟩, rfl⟩
      · rw [modify_ptable_of_ne hi, if_neg fun h ↦ hi h.1]
        exact ⟨.refl _, rfl⟩
    rcases heq with heq | heq
    · rw [heq]
      exact hmod
    · rw [heq]
      exact ⟨hmod.1.trans (placed_wakeup1 i).toKept, (placed_wakeup1 i).parent.trans hmod.2⟩

theorem passChild_pgdirs : (passChild p k q).pgdirs = k.pgdirs := by
  rcases passChild_cases p k q with ⟨-, heq⟩ | ⟨-, k', rfl, heq | heq⟩ <;> rw [heq] <;> rfl

theorem passChild_call : (passChild p k q).call = k.call := by
  rcases passChild_cases p k q with ⟨-, heq⟩ | ⟨-, k', rfl, heq | heq⟩ <;> rw [heq] <;> rfl

/-- The loop of `exit` passes the children in the table to the first process and keeps the rest. -/
theorem foldl_passChild_spec (hp : p ≠ initproc) (l : List Slot) (k : Kernel) (i : Slot) :
    Kept (k.ptable i) ((l.foldl (passChild p) k).ptable i) ∧
      ((l.foldl (passChild p) k).ptable i).parent =
        if i ∈ l ∧ (k.ptable i).parent = some p then some initproc else (k.ptable i).parent := by
  induction l generalizing k with
  | nil => exact ⟨.refl _, (if_neg (by simp)).symm⟩
  | cons q l ih =>
    obtain ⟨hkept, hparent⟩ := passChild_spec (k := k) (p := p) (q := q) i
    obtain ⟨hkept', hparent'⟩ := ih (passChild p k q)
    refine ⟨hkept.trans hkept', hparent'.trans ?_⟩
    have hne : some initproc ≠ some p := fun heq ↦ hp (Option.some.inj heq).symm
    rw [hparent]
    by_cases hpar : (k.ptable i).parent = some p
    · by_cases hiq : i = q
      · simp [hiq, hne, hiq ▸ hpar]
      · simp [hiq, hpar]
    · simp [hpar]

theorem foldl_passChild_pgdirs (l : List Slot) (k : Kernel) :
    (l.foldl (passChild p) k).pgdirs = k.pgdirs := by
  induction l generalizing k with
  | nil => rfl
  | cons q l ih => exact (ih _).trans passChild_pgdirs

theorem foldl_passChild_call (l : List Slot) (k : Kernel) :
    (l.foldl (passChild p) k).call = k.call := by
  induction l generalizing k with
  | nil => rfl
  | cons q l ih => exact (ih _).trans passChild_call

/-- `exit` wakes the parent, goes through the table and leaves a zombie. -/
theorem exit_eq_ok (hexit : k.exit p = .ok k') : p ≠ initproc ∧ ∃ k₁,
    k₁ = (List.finRange NPROC).foldl (passChild p) (k.wakeup1 (.ofProc (k.ptable p).parent)) ∧
      k' = k₁.setState p .zombie := by
  rw [exit] at hexit
  split_ifs at hexit with hp
  exact ⟨hp, _, rfl, (Except.ok.inj hexit).symm⟩

/-- The table that `exit` leaves behind. -/
theorem exit_spec (hp : p ≠ initproc) :
    ∃ k', k.exit p = .ok k' ∧ k'.pgdirs = k.pgdirs ∧ k'.call = k.call ∧
      (∀ i, i ≠ p → Kept (k.ptable i) (k'.ptable i)) ∧
      (k'.ptable p).state = .zombie ∧ (k'.ptable p).pgdir = (k.ptable p).pgdir ∧
      (k'.ptable p).countThread = (k.ptable p).countThread ∧
      ∀ i, (k'.ptable i).parent =
        if (k.ptable i).parent = some p then some initproc else (k.ptable i).parent := by
  obtain ⟨k₂, hexit⟩ : ∃ k₂, k.exit p = .ok k₂ := ⟨_, if_neg hp⟩
  obtain ⟨-, k', hk', rfl⟩ := exit_eq_ok hexit
  have hpgdirs : k'.pgdirs = k.pgdirs := by rw [hk', foldl_passChild_pgdirs]; rfl
  have hcall : k'.call = k.call := by rw [hk', foldl_passChild_call]; rfl
  have hloop : ∀ i, Kept (k.ptable i) (k'.ptable i) ∧ (k'.ptable i).parent =
      if (k.ptable i).parent = some p then some initproc else (k.ptable i).parent := by
    intro i
    obtain ⟨hkept, hparent⟩ := foldl_passChild_spec hp (List.finRange NPROC)
      (k.wakeup1 (.ofProc (k.ptable p).parent)) i
    rw [← hk'] at hkept hparent
    rw [(placed_wakeup1 i).parent] at hparent
    exact ⟨(placed_wakeup1 i).toKept.trans hkept, hparent.trans
      (if_congr (and_iff_right (List.mem_finRange i)) rfl rfl)⟩
  refine ⟨_, hexit, hpgdirs, hcall, fun i hi ↦ ?_, ?_, ?_, ?_, fun i ↦ ?_⟩
  · rw [setState, modify_ptable_of_ne hi]
    exact (hloop i).1
  · rw [setState, modify_ptable_self]
  · rw [setState, modify_ptable_self]
    exact (hloop p).1.pgdir
  · rw [setState, modify_ptable_self]
    exact (hloop p).1.countThread
  · by_cases hi : i = p
    · rw [hi, setState, modify_ptable_self]
      exact (hloop p).2
    · rw [setState, modify_ptable_of_ne hi]
      exact (hloop i).2

/-- A field that no move of the scheduler and no change of the parent touches is the same after the
loop of `exit`. -/
theorem foldl_passChild_field {β : Type} (π : Proc → β)
    (hstate : ∀ a s, π { a with state := s } = π a)
    (hparent : ∀ a q, π { a with parent := q } = π a)
    (l : List Slot) (k : Kernel) (i : Slot) :
    π ((l.foldl (passChild p) k).ptable i) = π (k.ptable i) := by
  have hwake : ∀ (k : Kernel) chan, π ((k.wakeup1 chan).ptable i) = π (k.ptable i) := by
    intro k chan
    show π (ite _ _ _) = _
    split_ifs
    · exact hstate _ _
    · rfl
  induction l generalizing k with
  | nil => rfl
  | cons q l ih =>
    refine (ih _).trans ?_
    rcases passChild_cases p k q with ⟨-, heq⟩ | ⟨-, k', hk', heq⟩
    · rw [heq]
    · have hmod : π (k'.ptable i) = π (k.ptable i) := by
        rw [hk']
        by_cases hi : i = q
        · rw [hi, modify_ptable_self]
          exact hparent _ _
        · rw [modify_ptable_of_ne hi]
      rcases heq with heq | heq <;> rw [heq]
      · exact hmod
      · exact (hwake _ _).trans hmod

/-- What `exit` does not write stays as it was. -/
theorem exit_field {β : Type} (π : Proc → β) (hstate : ∀ a s, π { a with state := s } = π a)
    (hparent : ∀ a q, π { a with parent := q } = π a) (hexit : k.exit p = .ok k') (i : Slot) :
    π (k'.ptable i) = π (k.ptable i) := by
  obtain ⟨-, k₁, hk₁, rfl⟩ := exit_eq_ok hexit
  have hloop : π (k₁.ptable i) = π (k.ptable i) := by
    rw [hk₁, foldl_passChild_field π hstate hparent]
    show π (ite _ _ _) = _
    split_ifs
    · exact hstate _ _
    · rfl
  rw [setState]
  by_cases hi : i = p
  · rw [hi, modify_ptable_self]
    exact (hstate _ _).trans (hi ▸ hloop)
  · rw [modify_ptable_of_ne hi]
    exact hloop

/-- A child of `p` in its address space that has not been reaped. -/
def SharingChild (k : Kernel) (p i : Slot) : Prop :=
  (k.ptable i).Present ∧ k.Joined p i

/-- Process `p` is a thread: it has the page directory of its parent. -/
def IsThread (k : Kernel) (p : Slot) : Prop :=
  ∃ q, (k.ptable p).parent = some q ∧ (k.ptable q).pgdir = (k.ptable p).pgdir

/-- A sharer in the forest is a child in the same address space. -/
theorem sharingChild_of_mem {i : Slot}
    (hi : i ∈ OwnerForest.sharers k.forest p (k.ptable p).pgdir) :
    k.SharingChild p i := by
  obtain ⟨c, hc, hpar, hres⟩ := hi
  obtain ⟨hpresent, rfl⟩ := forest_node_eq_some_iff.1 hc
  exact ⟨hpresent, hpar, hres⟩

/-- A node that shares with its parent is a thread. -/
theorem isThread_of_shares (hshares : OwnerForest.Shares k.forest (k.ptable p).node) :
    k.IsThread p := by
  obtain ⟨q, c, hpar, hc, hres⟩ := hshares
  obtain ⟨-, rfl⟩ := forest_node_eq_some_iff.1 hc
  exact ⟨q, hpar, hres⟩

/-- An exiting process hands its children over, as the forest sees it. -/
theorem node_exit {a a' : Proc} {i : Slot}
    (hpgdir : a'.pgdir = a.pgdir) (hzombie : a'.state = .zombie ↔ a.state = .zombie ∨ i = p)
    (hparent : a'.parent = if a.parent = some p then some initproc else a.parent) :
    a'.node = OwnerForest.handOver initproc p i a.node := by
  rw [Proc.node, OwnerForest.handOver, hparent, hpgdir, propext hzombie]
  rfl

theorem present_exit {a a' : Proc} (h : Kept a a')
    (hparent : a'.parent = if a.parent = some p then some initproc else a.parent) :
    (a'.HalfMade ↔ a.HalfMade) ∧ (a'.Present ↔ a.Present) := by
  have hhalf : a'.HalfMade ↔ a.HalfMade := by
    rw [Proc.HalfMade, Proc.HalfMade, h.embryo, hparent]
    refine and_congr_right fun _ ↦ ?_
    split_ifs with hpar <;> simp [hpar]
  refine ⟨hhalf, ?_⟩
  rw [Proc.Present, Proc.Present, hhalf, ne_eq, ne_eq, h.unused]

/-- `exit`. -/
theorem Orderly.exit (h : Orderly k) (hp : k.InUser p) (hexit : k.exit p = .ok k') :
    Orderly k' := by
  obtain ⟨hroot, -⟩ := exit_eq_ok hexit
  obtain ⟨k₁, hk₁, hpgdirs, hcall, hkept, hzombie, -, -, hparent⟩ := exit_spec (k := k) hroot
  obtain rfl : k₁ = k' := Except.ok.inj (hk₁.symm.trans hexit)
  -- the process is in the middle of no call, and its children are made by nobody else
  have hne : ∀ {q}, k.call q ≠ .user → q ≠ p := fun hq heq ↦ hq (heq ▸ hp.2)
  refine h.of_settled (fun i ↦ ?_) (fun q x hq ↦ ⟨?_, fun hx ↦ ?_⟩) (fun q hq ↦ ?_)
    (hpgdirs ▸ h.zero) hcall
  · by_cases hi : i = p
    · subst hi
      have hpresent' : (k₁.ptable i).Present :=
        Proc.present_of_ne (by rw [hzombie]; decide) (by rw [hzombie]; decide)
      refine .of_not_halfMade hp.1.present.2 hpresent'.2 fun hu ↦ ?_
      rw [hzombie] at hu
      cases hu
    · obtain ⟨hhalf, -⟩ := present_exit (hkept i hi) (hparent i)
      refine ⟨hhalf, fun _ ↦ (hkept i hi).countThread, fun hu ↦ .inl ?_⟩
      have hnone := h.unused_parent i ((hkept i hi).unused.1 hu)
      rw [hparent, hnone]
      exact if_neg (by simp)
  · have hcaller : k.call q ≠ .user := by rcases hq with hc | hc <;> rw [hc] <;> exact nofun
    rw [hparent, h.made_parent q x hq]
    exact if_neg fun heq ↦ hne hcaller (Option.some.inj heq)
  · have hxp : x ≠ p := by
      rintro rfl
      exact absurd (hx.symm.trans hp.1) (by decide)
    exact (hkept x hxp).embryo.2 hx
  · exact (hkept q (hne hq)).awake.2

/-- The children go to the first process, which has another page directory, so that nobody counts
them any more: an exiting thread must have no thread of its own left, and any other process at most
one. -/
theorem Inv.exit (h : Inv k) (huser : k.InUser p) (hroot : p ≠ initproc)
    (hthread : k.IsThread p → ∀ i, ¬ k.SharingChild p i)
    (hone : ∀ i j, k.SharingChild p i → k.SharingChild p j → i = j) :
    ∃ k', k.exit p = .ok k' ∧ Inv k' := by
  have hp := huser.1
  obtain ⟨k', hexit, hpgdirs, hcall, hkept, hzombie, hpgdir, hcount, hparent⟩ := exit_spec hroot
  have hpresent' : (k'.ptable p).Present :=
    Proc.present_of_ne (by rw [hzombie]; decide) (by rw [hzombie]; decide)
  refine ⟨k', hexit, h.toOrderly.exit huser hexit, ?_⟩
  have hforest : k'.forest = OwnerForest.finish k.forest initproc p := by
    refine OwnerForest.State.ext (funext fun i ↦ ?_) (funext fun i ↦ ?_) ?_
    · show (k'.ptable i).view = ((k.ptable i).view).map _
      by_cases hi : i = p
      · subst hi
        rw [Proc.view_of_present hpresent', Proc.view_of_present hp.present, Option.map_some]
        exact congrArg some (node_exit hpgdir (by simp [hzombie]) (hparent i))
      · obtain ⟨-, hpresent⟩ := present_exit (hkept i hi) (hparent i)
        by_cases hip : (k.ptable i).Present
        · rw [Proc.view_of_present (hpresent.2 hip), Proc.view_of_present hip, Option.map_some]
          exact congrArg some (node_exit (hkept i hi).pgdir (by simp [(hkept i hi).zombie, hi])
            (hparent i))
        · rw [Proc.view_of_not_present (mt hpresent.1 hip), Proc.view_of_not_present hip]
          rfl
    · show (k'.ptable i).counted = (k.ptable i).counted
      by_cases hi : i = p
      · subst hi
        rw [Proc.counted_of_present hpresent', Proc.counted_of_present hp.present, hcount]
      · obtain ⟨-, hpresent⟩ := present_exit (hkept i hi) (hparent i)
        rw [Proc.counted, Proc.counted, (hkept i hi).countThread]
        exact if_congr hpresent rfl rfl
    · show (k'.pgdirs : Set ℕ) = k.pgdirs
      rw [hpgdirs]
  rw [hforest]
  refine h.forest.finish (forest_node_of_present hp.present) hp.not_done hroot ?_ ?_
  · intro hshares
    rw [Set.eq_empty_iff_forall_notMem]
    exact fun i hi ↦ hthread (isThread_of_shares hshares) i (sharingChild_of_mem hi)
  · exact fun i hi j hj ↦ hone i j (sharingChild_of_mem hi) (sharingChild_of_mem hj)

/-! ### Reaping -/

/-- The forest without a reaped entry, from the changes of the table. -/
theorem forest_eq_remove (hp : (k.ptable p).Present) (hq : (k.ptable q).Present) (hqp : q ≠ p)
    (hgone : ¬ (k'.ptable q).Present) (hrest : ∀ i, i ≠ q → (k'.ptable i).view = (k.ptable i).view)
    (hparent : (k'.ptable p).counted = if (k.ptable q).pgdir = (k.ptable p).pgdir then
      (k.ptable p).counted - 1 else (k.ptable p).counted)
    (hcounted : ∀ i, i ≠ q → i ≠ p → (k'.ptable i).counted = (k.ptable i).counted)
    (hpgdirs : k'.pgdirs =
      if (k.ptable q).pgdir ≠ (k.ptable p).pgdir ∧ (k.ptable q).countThread = 0 then
        k.pgdirs.erase (k.ptable q).pgdir else k.pgdirs) :
    k'.forest = OwnerForest.remove k.forest p q (k.ptable q).node (k.ptable p).node := by
  refine OwnerForest.State.ext (funext fun i ↦ ?_) (funext fun i ↦ ?_) ?_
  · show (k'.ptable i).view = Function.update k.forest.node q none i
    by_cases hi : i = q
    · rw [hi, Proc.view_of_not_present hgone, Function.update_self]
    · rw [hrest i hi, Function.update_of_ne hi]
      rfl
  · show (k'.ptable i).counted = _
    by_cases hi : i = q
    · rw [hi, Proc.counted_of_not_present hgone]
      exact OwnerForest.remove_count_self.symm
    · by_cases hip : i = p
      · subst hip
        rw [hparent]
        split_ifs with hres
        · exact (OwnerForest.remove_count_parent_of_eq (s := k.forest) (a := (k.ptable q).node)
            (b := (k.ptable i).node) hi hres).symm
        · exact (OwnerForest.remove_count_parent_of_ne (s := k.forest) (a := (k.ptable q).node)
            (b := (k.ptable i).node) hi hres).symm
      · rw [hcounted i hi hip]
        exact (OwnerForest.remove_count_of_ne (s := k.forest) hi hip).symm
  · ext r
    rw [OwnerForest.mem_remove_held_iff, forest_count_of_present hq]
    show r ∈ (k'.pgdirs : Set ℕ) ↔ r ∈ (k.pgdirs : Set ℕ) ∧ ¬ ((k.ptable q).pgdir ≠ _ ∧ _ ∧ r = _)
    rw [hpgdirs]
    split_ifs with hfree
    · rw [Finset.mem_coe, Finset.mem_erase, Finset.mem_coe]
      tauto
    · rw [Finset.mem_coe]
      tauto

/-- `wait` finds a ZOMBIE that it waits for, -/
theorem zombieChild_eq_some (hq : k.zombieChild p = some q) :
    k.Awaited p q ∧ (k.ptable q).state = .zombie := by
  simpa using List.find?_some hq

/-- and `join` one that it can join. -/
theorem zombieThread_eq_some (hq : k.zombieThread p = some q) :
    k.Joined p q ∧ (k.ptable q).state = .zombie := by
  simpa using List.find?_some hq

theorem present_of_zombie (hq : (k.ptable q).state = .zombie) : (k.ptable q).Present :=
  Proc.present_of_ne (by rw [hq]; decide) (by rw [hq]; decide)

/-- Reaping takes no entry out of the hands of a `fork` or `clone`. -/
theorem settled_reap (hq : (k.ptable q).state = .zombie) (i : Slot) :
    Settled (k.ptable i) ((k.reap q).ptable i) := by
  by_cases hi : i = q
  · subst hi
    rw [reap, modify_ptable_self]
    exact .of_not_halfMade (present_of_zombie hq).2 (fun h ↦ by cases h.1) fun _ ↦ rfl
  · rw [reap, modify_ptable_of_ne hi]
    exact .refl _

/-- A child that is made by nobody any more can go. -/
theorem Orderly.reap (h : Orderly k) (hq : (k.ptable q).parent = some p)
    (hzombie : (k.ptable q).state = .zombie) (hcall : ∀ np, ¬ k.Made p np) (dirs : Finset ℕ)
    (hdirs : dirs ⊆ k.pgdirs) : Orderly ({ k with pgdirs := dirs }.reap q) := by
  have hsame : ∀ i, i ≠ q → ({ k with pgdirs := dirs }.reap q).ptable i = k.ptable i :=
    fun i hi ↦ modify_ptable_of_ne hi
  refine h.of_settled (settled_reap hzombie) (fun r x hr ↦ ?_) (fun r _ hr ↦ ?_)
    (fun h0 ↦ h.zero (hdirs h0)) rfl
  · have hx : x ≠ q := by
      rintro rfl
      obtain rfl := Option.some.inj ((h.made_parent r x hr).symm.trans hq)
      exact hcall x hr
    rw [hsame x hx]
    exact ⟨rfl, id⟩
  · have hrq : r ≠ q := by
      rintro rfl
      exact (Proc.awake_iff.1 hr).2.2 hzombie
    rwa [hsame r hrq]

theorem reap_not_present : ¬ ((k.reap q).ptable q).Present := by
  rw [reap, modify_ptable_self]
  exact Proc.not_present_of_unused rfl

theorem reap_ptable_of_ne {i : Slot} (hi : i ≠ q) : (k.reap q).ptable i = k.ptable i :=
  modify_ptable_of_ne hi

/-- A zombie child in another address space that has not left its page directory to a thread is the
last one to use it. -/
theorem Inv.freevm_zombie (h : Inv k) (hq : k.Awaited p q)
    (hzombie : (k.ptable q).state = .zombie) (hcount : (k.ptable q).countThread = 0)
    (hleft : ¬ k.Leftover (k.ptable q).pgdir) :
    k.freevm (k.ptable q).pgdir =
      .ok { k with pgdirs := k.pgdirs.erase (k.ptable q).pgdir } := by
  have hpresent := present_of_zombie hzombie
  have hret : ¬ OwnerForest.Retired k.forest q (k.ptable q).node :=
    fun hret ↦ ((retired_iff hpresent).1 hret).2 hcount
  have hshares : ¬ OwnerForest.Shares k.forest (k.ptable q).node := by
    rintro ⟨p', c, hpar, hc, hres⟩
    obtain ⟨-, rfl⟩ := forest_node_eq_some_iff.1 hc
    obtain rfl : p = p' := Option.some.inj (hq.1.symm.trans hpar)
    exact hq.2 hres.symm
  refine freevm_eq_ok h.zero (h.pgdir_mem hpresent hret) fun i hi heq ↦ ?_
  rcases halfMade_or_live hi with hhalf | ⟨hipresent, hlive⟩
  · exact hleft ⟨i, hhalf, heq⟩
  · have hiq := h.forest.eq_of_res_eq (forest_node_of_present hpresent) hzombie
      ((forest_count_of_present hpresent).trans hcount) hshares (forest_node_of_present hipresent)
      (fun hr ↦ hlive hr.1) heq
    subst hiq
    exact hlive hzombie

/-- Who is in user mode, in `wait` or in `join` makes no entry. -/
theorem not_made_of_simple (hcall : (k.call p).Simple) (np : Slot) : ¬ k.Made p np := by
  rintro (hc | hc) <;> rw [hc] at hcall <;> exact hcall

/-- `wait`. -/
theorem Orderly.wait (h : Orderly k) (hp : k.Running p) (hcall : (k.call p).Simple)
    {r : Kernel × Option ℤ} (hr : Unmonitored.wait k p = .ok r) : Orderly r.1 := by
  rcases Unmonitored.wait_cases hr with ⟨q, dirs, hchild, hdirs, rfl⟩ | rfl | rfl
  · obtain ⟨hq, hzombie⟩ := zombieChild_eq_some hchild
    exact h.reap hq.1 hzombie (not_made_of_simple hcall) dirs hdirs
  · exact h
  · exact h.of_placed hp.placed_sleep rfl rfl

/-- `wait` keeps the invariant, -/
theorem Inv.wait_unmonitored (h : Inv k) (hp : k.Running p) (hcall : (k.call p).Simple) :
    ∃ r, Unmonitored.wait k p = .ok r ∧ Inv r.1 := by
  cases hchild : k.zombieChild p with
  | none =>
    have hwait : Unmonitored.wait k p = k.wait p := by rw [Unmonitored.wait, hchild]
    rw [hwait, Kernel.wait, hchild]
    by_cases hnone : (∀ q, ¬ k.Awaited p q) ∨ (k.ptable p).killed
    · exact ⟨(k, some (-1)), if_pos hnone, h⟩
    · exact ⟨(k.sleep p (.proc p), none), if_neg hnone, h.of_placed hp.placed_sleep rfl rfl⟩
  | some q =>
    obtain ⟨hq, hzombie⟩ := zombieChild_eq_some hchild
    have hpresent := present_of_zombie hzombie
    have hqp : q ≠ p := by
      rintro rfl
      rw [hp] at hzombie
      cases hzombie
    obtain ⟨k₁, hk₁⟩ : ∃ k₁ : Kernel, k₁ = { k with
        pgdirs := if (k.ptable q).countThread = 0 then k.pgdirs.erase (k.ptable q).pgdir
          else k.pgdirs } := ⟨_, rfl⟩
    have htable : k₁.ptable = k.ptable := by rw [hk₁]
    have hne : (k.ptable q).pgdir ≠ (k.ptable p).pgdir := hq.2
    have hok : Unmonitored.wait k p = .ok (k₁.reap q, some (k.ptable q).pid) := by
      rw [Unmonitored.wait, hchild, hk₁]
      dsimp only
      split_ifs with hcount
      · have hmem := h.pgdir_mem hpresent fun hret ↦ ((retired_iff hpresent).1 hret).2 hcount
        rw [Unmonitored.freevm_of_ne_zero fun heq ↦ h.zero (heq ▸ hmem)]
        rfl
      · rfl
    have hforest : (k₁.reap q).forest =
        OwnerForest.remove k.forest p q (k.ptable q).node (k.ptable p).node := by
      refine forest_eq_remove hp.present hpresent hqp reap_not_present (fun i hi ↦ ?_) ?_
        (fun i hi _ ↦ ?_) ?_
      · rw [reap_ptable_of_ne hi, htable]
      · rw [reap_ptable_of_ne hqp.symm, htable, if_neg hne]
      · rw [reap_ptable_of_ne hi, htable]
      · show k₁.pgdirs = _
        rw [hk₁]
        exact if_congr (and_iff_right hne).symm rfl rfl
    refine ⟨_, hok, h.toOrderly.wait hp hcall hok, ?_⟩
    rw [hforest]
    exact h.forest.remove (forest_node_of_present hpresent) hzombie hq.1
      (forest_node_of_present hp.present)

/-- and frees nothing that is in use if no entry has a leftover of what it frees. -/
theorem Inv.wait (h : Inv k) (hp : k.Running p) (hcall : (k.call p).Simple)
    (hleft : ∀ q, k.zombieChild p = some q → (k.ptable q).countThread = 0 →
      ¬ k.Leftover (k.ptable q).pgdir) :
    ∃ r, k.wait p = .ok r ∧ Inv r.1 := by
  obtain ⟨r, hr, hinv⟩ := h.wait_unmonitored hp hcall
  refine ⟨r, hr ▸ ?_, hinv⟩
  rw [Unmonitored.wait]
  cases hchild : k.zombieChild p with
  | none => rfl
  | some q =>
    obtain ⟨hq, hzombie⟩ := zombieChild_eq_some hchild
    rw [Kernel.wait, hchild]
    dsimp only
    split_ifs with hcount
    · rw [h.freevm_zombie hq hzombie hcount (hleft q hchild hcount), Unmonitored.freevm_of_ne_zero]
      intro heq
      have hpresent := present_of_zombie hzombie
      exact h.zero (heq ▸ h.pgdir_mem hpresent fun hret ↦
        ((retired_iff hpresent).1 hret).2 hcount)
    · rfl

/-- `join`. -/
theorem Orderly.join (h : Orderly k) (hp : k.Running p) (hcall : (k.call p).Simple) :
    Orderly (k.join p).1 := by
  rw [Kernel.join]
  cases hthread : k.zombieThread p with
  | none =>
    dsimp only
    split_ifs
    · exact h
    · exact h.of_placed hp.placed_sleep rfl rfl
  | some q =>
    obtain ⟨hq, hzombie⟩ := zombieThread_eq_some hthread
    have hqp : p ≠ q := by
      rintro rfl
      rw [hp] at hzombie
      cases hzombie
    have hreap : Orderly (k.reap q) :=
      h.reap hq.1 hzombie (not_made_of_simple hcall) k.pgdirs subset_rfl
    have hself : (k.reap q).ptable p = k.ptable p := reap_ptable_of_ne hqp
    have hstate : ∀ i, (((k.reap q).modify p fun a ↦
        { a with countThread := a.countThread - 1 }).ptable i).state =
          ((k.reap q).ptable i).state ∧
        (((k.reap q).modify p
            fun a ↦ { a with countThread := a.countThread - 1 }).ptable i).parent =
          ((k.reap q).ptable i).parent := by
      intro i
      by_cases hip : i = p
      · rw [hip, modify_ptable_self]
        exact ⟨rfl, rfl⟩
      · rw [modify_ptable_of_ne hip]
        exact ⟨rfl, rfl⟩
    refine hreap.of_settled (fun i ↦ ?_)
      (fun _ x _ ↦ ⟨(hstate x).2, fun hx ↦ (hstate x).1.trans hx⟩) (fun r _ hr ↦ ?_) h.zero rfl
    · by_cases hip : i = p
      · subst hip
        rw [modify_ptable_self, hself]
        exact .of_not_halfMade hp.present.2 hp.present.2 fun hu ↦ absurd hu hp.present.1
      · rw [modify_ptable_of_ne hip]
        exact .refl _
    · rwa [Proc.Awake, (hstate r).1]

/-- `join` keeps the invariant, and frees nothing. -/
theorem Inv.join (h : Inv k) (hp : k.Running p) (hcall : (k.call p).Simple) :
    Inv (k.join p).1 := by
  refine ⟨h.toOrderly.join hp hcall, ?_⟩
  rw [Kernel.join]
  cases hthread : k.zombieThread p with
  | none =>
    dsimp only
    split_ifs
    · exact h.forest
    · rw [forest_of_placed hp.placed_sleep rfl]
      exact h.forest
  | some q =>
    obtain ⟨hq, hzombie⟩ := zombieThread_eq_some hthread
    have hpresent := present_of_zombie hzombie
    have hqp : q ≠ p := by
      rintro rfl
      rw [hp] at hzombie
      cases hzombie
    have hforest : ((k.reap q).modify p fun a ↦
          { a with countThread := a.countThread - 1 }).forest =
        OwnerForest.remove k.forest p q (k.ptable q).node (k.ptable p).node := by
      refine forest_eq_remove hp.present hpresent hqp ?_ (fun i hi ↦ ?_) ?_ (fun i hi hip ↦ ?_) ?_
      · rw [modify_ptable_of_ne hqp]
        exact reap_not_present
      · by_cases hip : i = p
        · rw [hip, modify_ptable_self, reap_ptable_of_ne hqp.symm]
          rfl
        · rw [modify_ptable_of_ne hip, reap_ptable_of_ne hi]
      · rw [modify_ptable_self, reap_ptable_of_ne hqp.symm, if_pos hq.2,
          Proc.counted_of_present hp.present]
        exact Proc.counted_of_present hp.present
      · rw [modify_ptable_of_ne hip, reap_ptable_of_ne hi]
      · exact (if_neg fun hfree ↦ hfree.1 hq.2).symm
    dsimp only
    rw [hforest]
    exact h.forest.remove (forest_node_of_present hpresent) hzombie hq.1
      (forest_node_of_present hp.present)

/-! ### Every step -/

/-- Who may call `wait` or `join`, or go on with it, makes no entry. -/
theorem simple_of_user_or {c : Call} (hc : c = .user ∨ c = .wait) : c.Simple := by
  rcases hc with rfl | rfl <;> trivial

theorem simple_of_user_or_join {c : Call} {stack : ℕ} (hc : c = .user ∨ c = .join stack) :
    c.Simple := by
  rcases hc with rfl | rfl <;> trivial

theorem Running.awake_wait (hp : k.Running p) {r : Kernel × Option ℤ}
    (hr : Unmonitored.wait k p = .ok r) : (r.1.ptable p).Awake := by
  rcases Unmonitored.wait_cases hr with ⟨q, dirs, hchild, -, rfl⟩ | rfl | rfl
  · have hqp : p ≠ q := by
      rintro rfl
      exact absurd (hp.symm.trans (zombieChild_eq_some hchild).2) (by decide)
    show (({ k with pgdirs := dirs }.reap q).ptable p).Awake
    rw [reap_ptable_of_ne hqp]
    exact hp.awake
  · exact hp.awake
  · exact (hp.placed_sleep p).awake.2 hp.awake

theorem Running.awake_join (hp : k.Running p) : ((k.join p).1.ptable p).Awake := by
  rw [Kernel.join]
  cases hthread : k.zombieThread p with
  | none =>
    dsimp only
    split_ifs
    · exact hp.awake
    · exact (hp.placed_sleep p).awake.2 hp.awake
  | some q =>
    have hqp : p ≠ q := by
      rintro rfl
      exact absurd (hp.symm.trans (zombieThread_eq_some hthread).2) (by decide)
    dsimp only
    rw [modify_ptable_self, reap_ptable_of_ne hqp]
    exact hp.awake

/-- **A step keeps the table orderly**, whichever it is. -/
theorem Orderly.step {a : Action} (h : Orderly k) (hstep : Unmonitored.step k a = .ok k') :
    Orderly k' := by
  cases a with
  | dispatch p =>
    obtain ⟨hp, rfl⟩ := Unmonitored.require_ok hstep
    exact h.of_placed (placed_dispatch hp) rfl rfl
  | yield p =>
    obtain ⟨hp, rfl⟩ := Unmonitored.require_ok hstep
    exact h.of_placed hp.placed_yield rfl rfl
  | sleep p a =>
    obtain ⟨hp, rfl⟩ := Unmonitored.require_ok hstep
    exact h.of_placed hp.placed_sleep rfl rfl
  | wakeup a =>
    rw [← Except.ok.inj hstep]
    exact h.of_placed placed_wakeup1 rfl rfl
  | kill pid =>
    rw [← Except.ok.inj hstep]
    exact h.of_placed placed_kill kill_pgdirs kill_call
  | growproc p n memory =>
    obtain ⟨hp, ⟨-, rfl⟩ | ⟨sz, -, rfl⟩⟩ := Unmonitored.step_growproc hstep
    · exact h
    · exact h.setCall hp.1.awake trivial
  | growNext p =>
    obtain ⟨hp, hok⟩ := Unmonitored.require_eq_ok hstep
    exact h.growNext hp hok
  | fork p =>
    obtain ⟨hp, rfl⟩ := Unmonitored.require_ok hstep
    exact h.fork hp.1
  | noKstack p =>
    obtain ⟨np, hf, hp, rfl⟩ := Unmonitored.step_noKstack hstep
    exact h.noKstack hp hf
  | forkCopy p space =>
    obtain ⟨np, r, hcall, hp, hfresh, hr, rfl⟩ := Unmonitored.step_forkCopy hstep
    exact h.forkCopy hp (.inl hcall) hfresh hr
  | forkReturn p =>
    obtain ⟨np, -, hp, rfl⟩ := Unmonitored.step_forkReturn hstep
    exact h.forkReturn hp
  | clone p stack =>
    obtain ⟨hp, rfl⟩ := Unmonitored.require_ok hstep
    exact h.clone hp.1 stack
  | cloneCopy p =>
    obtain ⟨np, stack, hcall, hp, rfl⟩ := Unmonitored.step_cloneCopy hstep
    exact h.cloneCopy hp (.inr ⟨stack, hcall⟩) stack
  | cloneReturn p copied =>
    obtain ⟨np, hcall, hp, rfl⟩ := Unmonitored.step_cloneReturn hstep
    exact h.cloneReturn hp hcall copied
  | exec p space =>
    obtain ⟨r, hp, hfresh, hr, rfl⟩ := Unmonitored.step_exec hstep
    exact h.exec hp.1 hfresh hr
  | exit p =>
    obtain ⟨hp, hok⟩ := Unmonitored.require_eq_ok hstep
    exact h.exit hp hok
  | wait p =>
    obtain ⟨r, hp, hcall, hr, rfl⟩ := Unmonitored.step_wait hstep
    refine (h.wait hp (simple_of_user_or hcall) hr).setCall (hp.awake_wait hr) ?_
    split_ifs <;> trivial
  | join p stack =>
    obtain ⟨hp, hcall, ⟨-, rfl⟩ | ⟨-, rfl⟩⟩ := Unmonitored.step_join hstep
    · exact h
    · refine (h.join hp (simple_of_user_or_join hcall)).setCall hp.awake_join ?_
      split_ifs <;> trivial

end Kernel

end Threads
