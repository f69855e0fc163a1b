import Cs537OS.Threads.History

/-!
# The family of a process

A process may clone threads, wait for its children and join its threads in any order while they run
and exit. What the kernel keeps of that is right as long as the process that uses slot `p` is the
only one that calls `clone`, no call of `clone` comes to nothing after the thread was filled in,
nobody who shares an address space executes another program, and the process does not exit before it
has joined its threads (`Orders`), and as long as the `fork` that made the process does not set its
count when it has threads (`ResetsInTime`).

`Family` is the invariant of such runs: nobody but `p` has threads. `Family.eq_of_pgdir_eq` says
what follows: no two processes have the same page directory but `p` and its threads.
-/

open OwnerForest (Node State)
open Xv6

namespace Threads

open Kernel

/-- Only `p` calls `clone`, and with success; nobody in an address space with threads executes
another program; and `p` does not leave threads behind. -/
def Orders (p : Slot) (s : Kernel × List Event) : Action → Prop
  | .clone q _ => q = p
  | .cloneReturn _ copied => copied = true
  | .exec q _ => (s.1.ptable q).pgdir = (s.1.ptable p).pgdir → ∀ i, ¬ s.1.Joined p i
  | .exit q => q = p → ∀ i, ¬ s.1.Joined p i
  | _ => True

/-- The `fork` that made `p` sets its count before it has a thread, or when it has none any more. -/
def ResetsInTime (p : Slot) (s : Kernel × List Event) : Action → Prop
  | .forkReturn q => s.1.call q = .forkReturn p → (s.1.ptable p).countThread = 0
  | _ => True

/-- The step meets both. -/
def JoinMeets (p : Slot) (s : Kernel × List Event) (a : Action) : Prop :=
  Orders p s a ∧ ResetsInTime p s a

instance (p : Slot) (s : Kernel × List Event) : (a : Action) → Decidable (Orders p s a)
  | .clone q _ => inferInstanceAs (Decidable (q = p))
  | .cloneReturn _ copied => inferInstanceAs (Decidable (copied = true))
  | .exec _ _ => inferInstanceAs (Decidable (_ → ∀ _, _))
  | .exit _ => inferInstanceAs (Decidable (_ → ∀ _, _))
  | .dispatch _ | .yield _ | .sleep _ _ | .wakeup _ | .kill _ | .growproc _ _ _ | .growNext _
  | .fork _ | .noKstack _ | .forkCopy _ _ | .forkReturn _ | .cloneCopy _ | .wait _ | .join _ _ =>
    .isTrue trivial

instance (p : Slot) (s : Kernel × List Event) : (a : Action) → Decidable (ResetsInTime p s a)
  | .forkReturn _ => inferInstanceAs (Decidable (_ → _))
  | .dispatch _ | .yield _ | .sleep _ _ | .wakeup _ | .kill _ | .growproc _ _ _ | .growNext _
  | .fork _ | .noKstack _ | .forkCopy _ _ | .clone _ _ | .cloneCopy _ | .cloneReturn _ _
  | .exec _ _ | .exit _ | .wait _ | .join _ _ => .isTrue trivial

instance (p : Slot) (s : Kernel × List Event) (a : Action) : Decidable (JoinMeets p s a) :=
  inferInstanceAs (Decidable (_ ∧ _))

variable {k k' : Kernel} {h : List Event} {a : Action} {es : List Event} {p q i j np x : Slot}

/-! ### Parents and page directories -/

theorem present_of_parent (hk : Inv k) (hparent : (k.ptable i).parent = some q) :
    (k.ptable i).Present := by
  refine Proc.present_of_parent (fun hunused ↦ ?_) hparent
  rw [hk.unused_parent i hunused] at hparent
  cases hparent

/-- A parent is a process that has not exited. -/
theorem parent_live (hk : Inv k) (hparent : (k.ptable i).parent = some q) :
    (k.ptable q).Present ∧ (k.ptable q).state ≠ .zombie := by
  obtain ⟨b, hb, hlive⟩ :=
    hk.forest.live_of_parent (forest_node_of_present (present_of_parent hk hparent)) hparent
  obtain ⟨hpresent, rfl⟩ := forest_node_eq_some_iff.1 hb
  exact ⟨hpresent, hlive⟩

theorem parent_ne_self (hk : Inv k) : (k.ptable i).parent ≠ some i := fun hparent ↦
  hk.forest.parent_ne_self (forest_node_of_present (present_of_parent hk hparent)) hparent

/-- The first process is there, and has no parent. -/
theorem initproc_present (hk : Inv k) :
    (k.ptable initproc).Present ∧ (k.ptable initproc).parent = none := by
  obtain ⟨c, hc, -, hparent⟩ := hk.forest.root_node
  obtain ⟨hpresent, rfl⟩ := forest_node_eq_some_iff.1 hc
  exact ⟨hpresent, hparent⟩

/-- The node of a process shares its page directory when the process is a thread. -/
theorem shares_iff (hk : Inv k) :
    OwnerForest.Shares k.forest (k.ptable i).node ↔ ∃ q, k.Joined q i := by
  constructor
  · rintro ⟨q, c, hparent, hc, hres⟩
    obtain ⟨-, rfl⟩ := forest_node_eq_some_iff.1 hc
    exact ⟨q, hparent, hres.symm⟩
  · rintro ⟨q, hparent, hpgdir⟩
    exact ⟨q, _, hparent, forest_node_of_present (parent_live hk hparent).1, hpgdir.symm⟩

/-- The count of a process that has not exited is the number of its threads. -/
theorem countThread_eq (hk : Inv k) (hp : (k.ptable p).Present)
    (hlive : (k.ptable p).state ≠ .zombie) :
    (k.ptable p).countThread = (Finset.univ.filter fun i ↦ k.Joined p i).card := by
  have hsharers : OwnerForest.sharers k.forest p (k.ptable p).pgdir = {i | k.Joined p i} := by
    ext i
    constructor
    · exact fun hi ↦ (sharingChild_of_mem hi).2
    · exact fun hi ↦ ⟨_, forest_node_of_present (present_of_parent hk hi.1), hi.1, hi.2⟩
  have hcount := hk.forest.count p _ (forest_node_of_present hp) hlive
  rw [forest_count_of_present hp] at hcount
  rw [hcount]
  show ((OwnerForest.sharers k.forest p (k.ptable p).pgdir).ncard : ℤ) = _
  rw [hsharers, Set.ncard_eq_toFinset_card']
  congr 1
  exact congrArg Finset.card (by ext i; simp)

/-! ### The family of a process -/

/-- Nobody but `p` has threads, and nobody leaves any behind. -/
structure Threaded (p : Slot) (k : Kernel) : Prop where
  sole : ∀ i q, k.Joined q i → q = p
  retired : ∀ i, (k.ptable i).state = .zombie → (k.ptable i).countThread = 0
  /-- A thread that is not RUNNABLE yet is the one that `clone` is about to return. -/
  embryo : ∀ i, k.Joined p i → (k.ptable i).state = .embryo → k.call p = .cloneReturn i
  made : ∀ q np, k.call q = .cloneReturn np → k.Joined q np

/-- Nobody but `p` has threads or is about to get one. -/
structure Family (p : Slot) (k : Kernel) : Prop extends Inv k, Threaded p k where
  caller : ∀ q np stack, k.call q = .clone np stack → q = p

/-- In a family nobody leaves threads behind. -/
theorem Family.not_retired (hk : Family p k) (hi : (k.ptable i).Present) :
    ¬ OwnerForest.Retired k.forest i (k.ptable i).node := fun hret ↦
  ((retired_iff hi).1 hret).2 (hk.retired i ((retired_iff hi).1 hret).1)

/-- The address spaces of a family are allocated. -/
theorem Family.pgdir_mem (hk : Family p k) (hi : (k.ptable i).Present) :
    (k.ptable i).pgdir ∈ k.pgdirs :=
  hk.toInv.pgdir_mem hi (hk.not_retired hi)

/-- Two processes that are no threads have different page directories. -/
theorem Family.eq_of_pgdir_eq (hk : Family p k) (hi : (k.ptable i).Present)
    (hj : (k.ptable j).Present) (hni : ∀ q, ¬ k.Joined q i) (hnj : ∀ q, ¬ k.Joined q j)
    (hpgdir : (k.ptable i).pgdir = (k.ptable j).pgdir) : i = j := by
  have howner : ∀ {i}, (k.ptable i).Present → (∀ q, ¬ k.Joined q i) →
      OwnerForest.Owner k.forest i (k.ptable i).node := by
    intro i hi hni
    refine ⟨fun hshares ↦ ?_, hk.not_retired hi⟩
    obtain ⟨q, hq⟩ := (shares_iff hk.toInv).1 hshares
    exact hni q hq
  exact hk.forest.owner_unique i j _ _ (forest_node_of_present hi) (forest_node_of_present hj)
    (howner hi hni) (howner hj hnj) hpgdir

/-- Who is no thread of its parent is no thread of anybody. -/
theorem Family.not_joined (hk : Family p k) (hi : ¬ k.Joined p i) (q : Slot) : ¬ k.Joined q i :=
  fun hq ↦ hi (hk.sole i q hq ▸ hq)

/-- A process that may execute another program is alone in its address space. -/
theorem Family.alone (hk : Family p k) (hq : (k.ptable q).Present)
    (hexec : (k.ptable q).pgdir = (k.ptable p).pgdir → ∀ i, ¬ k.Joined p i) : k.Alone q := by
  intro i hi hiq hpgdir
  exfalso
  by_cases hti : k.Joined p i
  · exact hexec (hpgdir.symm.trans hti.2) i hti
  · by_cases htq : k.Joined p q
    · exact hexec htq.2 q htq
    · exact hiq (hk.eq_of_pgdir_eq hi hq (hk.not_joined hti) (hk.not_joined htq) hpgdir)

/-- Who is no parent of a thread counts none. -/
theorem Family.countThread_eq_zero (hk : Family p k) (hi : (k.ptable i).Present)
    (hnone : ∀ j, ¬ k.Joined i j) : (k.ptable i).countThread = 0 := by
  by_cases hzombie : (k.ptable i).state = .zombie
  · exact hk.retired i hzombie
  · rw [countThread_eq hk.toInv hi hzombie, Finset.filter_false_of_mem fun j _ ↦ hnone j]
    rfl

/-- A step keeps the invariant of the table. -/
theorem Family.inv_step (hk : Family p k) (ha : JoinMeets p (k, h) a)
    (hstep : Unmonitored.step k a = .ok k') : Inv k' := by
  -- the steps that are the same with the monitor
  have hfine : Meets k a → k.step a = .ok k' → Inv k' := fun hmeets hok ↦
    (hok ▸ hk.toInv.fine_step hmeets : Fine (.ok k')).inv
  obtain ⟨horders, hresets⟩ := ha
  cases a with
  | forkCopy q space =>
    obtain ⟨np, r', hcall, hq, hfresh, hr', rfl⟩ := Unmonitored.step_forkCopy hstep
    obtain ⟨r, hr, hinv⟩ := hk.toInv.forkCopy_unmonitored hq (.inl hcall) hfresh
    obtain rfl : r = r' := Except.ok.inj (hr.symm.trans hr')
    exact hinv
  | forkReturn q =>
    refine hfine (fun np hcall ↦ ?_) hstep
    by_cases hnp : np = p
    · exact hnp ▸ hresets (hnp ▸ hcall)
    · -- nobody else has threads
      have hpresent := present_of_parent hk.toInv (hk.made_parent q np (.inl hcall))
      exact hk.countThread_eq_zero hpresent fun j hj ↦ hnp (hk.sole j np hj)
  | exec q space =>
    obtain ⟨⟨hq, hfresh⟩, hok⟩ := Unmonitored.require_eq_ok hstep
    obtain ⟨r, hr, hinv⟩ := hk.toInv.exec_unmonitored hq.1 hfresh fun d sz _ ↦ by
      refine ⟨hk.alone hq.1.present horders, ?_⟩
      rintro ⟨i, hzombie, hcount, -⟩
      exact hcount (hk.retired i hzombie)
    rw [hr] at hok
    exact Except.ok.inj hok ▸ hinv
  | wait q =>
    obtain ⟨hq, hok⟩ := Unmonitored.require_eq_ok hstep
    obtain ⟨r, hr, hinv⟩ := hk.toInv.wait_unmonitored hq.1 (simple_of_user_or hq.2)
    rw [hr] at hok
    rw [← Except.ok.inj hok]
    refine hinv.setCall (hq.1.awake_wait hr) ?_
    split_ifs <;> trivial
  | exit q =>
    have hnone : ∀ i, ¬ k.SharingChild q i := fun i hi ↦ by
      obtain rfl := hk.sole i q hi.2
      exact horders rfl i hi.2
    exact hfine ⟨fun _ ↦ hnone, fun i _ hi ↦ absurd hi (hnone i)⟩ hstep
  | _ => exact hfine trivial hstep

/-- Entries that keep their parents keep their places in the family, when the entry that changes is
no parent. -/
theorem joined_iff_of_rest (hk : Inv k)
    (hx : (k.ptable x).Present → (k.ptable x).state = .zombie)
    (hrest : ∀ i, i ≠ x → Same (k.ptable i) (k'.ptable i)) (hi : i ≠ x) :
    k'.Joined q i ↔ k.Joined q i := by
  have hsame := hrest i hi
  by_cases hqx : q = x
  · have hparent : (k.ptable i).parent ≠ some q := by
      rw [hqx]
      intro hparent
      obtain ⟨hpresent, hlive⟩ := parent_live hk hparent
      exact hlive (hx hpresent)
    exact iff_of_false (fun hj ↦ hparent (hsame.parent ▸ hj.1)) fun hj ↦ hparent hj.1
  · rw [Kernel.Joined, Kernel.Joined, hsame.parent, hsame.pgdir, (hrest q hqx).pgdir]

/-- An entry that is not that of a process is none of a process that has not exited. -/
theorem zombie_of_unused (hx : (k.ptable x).state = .unused) :
    (k.ptable x).Present → (k.ptable x).state = .zombie := fun hp ↦ absurd hx hp.1

theorem zombie_of_halfMade (hx : (k.ptable x).HalfMade) :
    (k.ptable x).Present → (k.ptable x).state = .zombie := fun hp ↦ absurd hx hp.2

theorem not_joined_of_unused (hk : Inv k) (hx : (k.ptable x).state = .unused) (q : Slot) :
    ¬ k.Joined q x := fun hj ↦ (present_of_parent hk hj.1).1 hx

theorem not_joined_of_halfMade (hx : (k.ptable x).HalfMade) (q : Slot) : ¬ k.Joined q x := by
  intro hj
  have hparent := hj.1
  rw [hx.2] at hparent
  cases hparent

theorem joined_iff_of_same (hsame : ∀ i, Same (k.ptable i) (k'.ptable i)) :
    k'.Joined q i ↔ k.Joined q i := by
  rw [Kernel.Joined, Kernel.Joined, (hsame i).parent, (hsame i).pgdir, (hsame q).pgdir]

/-- A new child with a page directory that was free is no thread. -/
theorem Family.child_not_joined (hk : Family p k) (hne : np ≠ q)
    (hq : (k.ptable q).Present) (hparent : (k'.ptable np).parent = some q)
    (hpgdir : (k'.ptable np).pgdir ∉ k.pgdirs)
    (hrest : ∀ i, i ≠ np → Same (k.ptable i) (k'.ptable i)) (r : Slot) : ¬ k'.Joined r np := by
  intro hj
  obtain rfl : q = r := Option.some.inj (hparent.symm.trans hj.1)
  refine hpgdir ?_
  rw [hj.2, (hrest q hne.symm).pgdir]
  exact hk.pgdir_mem hq

/-- After `exec` the process is no thread and has none. -/
theorem Family.joined_exec (hk : Family p k) {d sz : ℕ} (hd : d ∉ k.pgdirs)
    (hexec : (k.ptable q).pgdir = (k.ptable p).pgdir → ∀ i, ¬ k.Joined p i)
    (hnew : k'.ptable q = { k.ptable q with pgdir := d, sz := sz })
    (hrest : ∀ i, i ≠ q → Same (k.ptable i) (k'.ptable i)) (r i : Slot) :
    k'.Joined r i ↔ k.Joined r i := by
  have hparent : ∀ i, (k'.ptable i).parent = (k.ptable i).parent := by
    intro i
    by_cases hi : i = q
    · rw [hi, hnew]
    · exact (hrest i hi).parent
  have hpgdir : (k'.ptable q).pgdir = d := by rw [hnew]
  -- before the step, too, nobody shares with `q`
  have hnone : ∀ r i, k.Joined r i → r ≠ q ∧ i ≠ q := by
    intro r i hj
    obtain rfl := hk.sole i r hj
    refine ⟨fun heq ↦ hexec (by rw [heq]) i hj, fun heq ↦ hexec (heq ▸ hj.2) i hj⟩
  constructor
  · intro hj
    have hpar : (k.ptable i).parent = some r := (hparent i).symm.trans hj.1
    have hri : r ≠ i := fun heq ↦ parent_ne_self hk.toInv (heq ▸ hpar)
    have heq := hj.2
    by_cases hi : i = q
    · rw [hi, hpgdir, (hrest r (hi ▸ hri)).pgdir] at heq
      exact absurd (hk.pgdir_mem (parent_live hk.toInv hpar).1) (heq ▸ hd)
    · rw [(hrest i hi).pgdir] at heq
      by_cases hr : r = q
      · rw [hr, hpgdir] at heq
        exact absurd (hk.pgdir_mem (present_of_parent hk.toInv hpar)) (heq ▸ hd)
      · exact ⟨hpar, heq.trans (hrest r hr).pgdir⟩
  · intro hj
    obtain ⟨hr, hi⟩ := hnone r i hj
    refine ⟨(hparent i).trans hj.1, ?_⟩
    rw [(hrest i hi).pgdir, (hrest r hr).pgdir]
    exact hj.2

/-- `exit` makes nobody a thread of the first process. -/
theorem Family.joined_exit (hk : Family p k) (hnone : ∀ i, ¬ k.Joined q i)
    (hpgdir : ∀ i, (k'.ptable i).pgdir = (k.ptable i).pgdir)
    (hparent : ∀ i, (k'.ptable i).parent =
      if (k.ptable i).parent = some q then some initproc else (k.ptable i).parent) (r i : Slot) :
    k'.Joined r i ↔ k.Joined r i := by
  rw [Kernel.Joined, Kernel.Joined, hparent i, hpgdir i, hpgdir r]
  by_cases hpar : (k.ptable i).parent = some q
  · rw [if_pos hpar]
    refine iff_of_false (fun ⟨hr, heq⟩ ↦ ?_) (fun ⟨hr, heq⟩ ↦ ?_)
    · obtain rfl := Option.some.inj hr
      have hni : ∀ r, ¬ k.Joined r i := by
        intro r hj
        obtain rfl := Option.some.inj (hpar.symm.trans hj.1)
        exact hnone i hj
      obtain ⟨hinit, hroot⟩ := initproc_present hk.toInv
      have hninit : ∀ r, ¬ k.Joined r initproc := by
        intro r hj
        have hpar' := hj.1
        rw [hroot] at hpar'
        cases hpar'
      have hi := hk.eq_of_pgdir_eq (present_of_parent hk.toInv hpar) hinit hni hninit heq
      rw [hi, hroot] at hpar
      cases hpar
    · obtain rfl := Option.some.inj (hpar.symm.trans hr)
      exact hnone i ⟨hr, heq⟩
  · rw [if_neg hpar]

/-- An exiting process has no threads. -/
theorem Family.not_joined_of_exit (hk : Family p k) (ha : Orders p (k, h) (.exit q)) (i : Slot) :
    ¬ k.Joined q i := fun hj ↦ by
  obtain rfl := hk.sole i q hj
  exact ha rfl i hj

/-- A thread that `clone` returns is RUNNABLE; before that nothing else is done about it. -/
theorem Family.embryo_step (hk : Family p k) (ha : Orders p (k, h) a)
    (hstep : Unmonitored.step k a = .ok k') (hnew : (k'.ptable i).state = .embryo)
    (hold : k.Joined p i ∧ (k.ptable i).state = .embryo) : k'.call p = .cloneReturn i := by
  have hcall := hk.embryo i hold.1 hold.2
  refine call_of_cloneReturn hcall (fun copied heq ↦ ?_) hstep
  subst heq
  obtain rfl : copied = true := ha
  obtain ⟨np, hcall', -, rfl⟩ := Unmonitored.step_cloneReturn hstep
  obtain rfl := Call.cloneReturn.inj (hcall.symm.trans hcall')
  rw [setCall_ptable, cloneReturn_ptable_self] at hnew
  cases hnew

/-- The entry that `clone` has filled in is a thread. -/
theorem joined_cloneCopy (hk : Orderly k) (hstep : Unmonitored.step k (.cloneCopy q) = .ok k')
    {stack : ℕ} (hcall : k.call q = .clone np stack) : k'.Joined q np := by
  obtain ⟨x, stack', hcall', hq, rfl⟩ := Unmonitored.step_cloneCopy hstep
  obtain ⟨rfl, rfl⟩ := Call.clone.inj (hcall.symm.trans hcall')
  have hne := Fills.ne hk hq (.inr ⟨stack, hcall⟩)
  rw [Kernel.Joined, setCall_ptable, cloneCopy_ptable_self hne, cloneCopy_ptable_parent hne]
  exact ⟨rfl, rfl⟩

/-- The thread that `clone` is about to return was so before, or has just been filled in. -/
theorem Family.made_step (hk : Family p k) (hstep : Unmonitored.step k a = .ok k')
    (hcall : k'.call q = .cloneReturn np)
    (hold : k.Joined q np → (k.ptable np).state = .embryo → k'.Joined q np) : k'.Joined q np := by
  rcases call_eq_cloneReturn hstep hcall with hcall | ⟨rfl, stack, hcall⟩
  · exact hold (hk.made q np hcall) (hk.made_embryo q np hcall)
  · exact joined_cloneCopy hk.toOrderly hstep hcall

/-- Zombies that were zombies count as many threads as before. -/
theorem Family.retired_of_rest (hk : Family p k)
    (hrest : ∀ i, i ≠ x → Alike (k.ptable i) (k'.ptable i))
    (hx : (k'.ptable x).state = .zombie → (k'.ptable x).countThread = 0) (i : Slot)
    (hi : (k'.ptable i).state = .zombie) : (k'.ptable i).countThread = 0 := by
  by_cases hix : i = x
  · exact hix ▸ hx (hix ▸ hi)
  · have hzombie := (hrest i hix).zombie.1 hi
    rw [(hrest i hix).countThread hzombie]
    exact hk.retired i hzombie

/-- A step in which an entry changes that is no live parent. -/
theorem Family.threaded_of_rest (hk : Family p k) (ha : Orders p (k, h) a)
    (hstep : Unmonitored.step k a = .ok k')
    (hx : (k.ptable x).Present → (k.ptable x).state = .zombie)
    (hrest : ∀ i, i ≠ x → Same (k.ptable i) (k'.ptable i))
    (hnew : ∀ q, k'.Joined q x → q = p ∧ k'.call p = .cloneReturn x)
    (hstate : (k'.ptable x).state ≠ .zombie) : Threaded p k' := by
  have hjoined := fun q i (hi : i ≠ x) ↦ joined_iff_of_rest (q := q) hk.toInv hx hrest hi
  refine ⟨fun i q hj ↦ ?_, hk.retired_of_rest (fun i hi ↦ (hrest i hi).toAlike)
    fun hi ↦ absurd hi hstate, fun i hj hi ↦ ?_, fun q np hcall ↦ hk.made_step hstep hcall ?_⟩
  · by_cases hix : i = x
    · exact (hnew q (hix ▸ hj)).1
    · exact hk.sole i q ((hjoined q i hix).1 hj)
  · by_cases hix : i = x
    · subst hix
      exact (hnew p hj).2
    · exact hk.embryo_step ha hstep hi ⟨(hjoined p i hix).1 hj, (hrest i hix).embryo.1 hi⟩
  · intro hj hembryo
    refine (hjoined q np ?_).2 hj
    rintro rfl
    exact absurd (hembryo.symm.trans (hx (present_of_parent hk.toInv hj.1))) (by decide)

/-- A step in which nobody becomes or ceases to be a thread. -/
theorem Family.threaded_of_joined (hk : Family p k) (ha : Orders p (k, h) a)
    (hstep : Unmonitored.step k a = .ok k') (hjoined : ∀ q i, k'.Joined q i ↔ k.Joined q i)
    (hembryo : ∀ i, (k'.ptable i).state = .embryo → (k.ptable i).state = .embryo)
    (hretired : ∀ i, (k'.ptable i).state = .zombie → (k'.ptable i).countThread = 0) :
    Threaded p k' :=
  ⟨fun i q hj ↦ hk.sole i q ((hjoined q i).1 hj), hretired,
    fun i hj hi ↦ hk.embryo_step ha hstep hi ⟨(hjoined p i).1 hj, hembryo i hi⟩,
    fun q np hcall ↦ hk.made_step hstep hcall fun hj _ ↦ (hjoined q np).2 hj⟩

/-- One entry changes, and keeps its parent and its page directory. -/
theorem joined_iff_of_entry (hrest : ∀ i, i ≠ x → Same (k.ptable i) (k'.ptable i))
    (hparent : (k'.ptable x).parent = (k.ptable x).parent)
    (hpgdir : (k'.ptable x).pgdir = (k.ptable x).pgdir) (q i : Slot) :
    k'.Joined q i ↔ k.Joined q i := by
  have hsame : ∀ i, (k'.ptable i).parent = (k.ptable i).parent ∧
      (k'.ptable i).pgdir = (k.ptable i).pgdir := by
    intro i
    by_cases hi : i = x
    · exact hi ▸ ⟨hparent, hpgdir⟩
    · exact ⟨(hrest i hi).parent, (hrest i hi).pgdir⟩
  rw [Kernel.Joined, Kernel.Joined, (hsame i).1, (hsame i).2, (hsame q).2]

/-- A step keeps the threads. -/
theorem Family.threaded_step (hk : Family p k) (ha : Orders p (k, h) a) (hk' : Inv k')
    (hstep : Unmonitored.step k a = .ok k') (hchange : Change k k' a es) : Threaded p k' := by
  -- an entry that is an EMBRYO after the step was one before, but for the one that changes
  have hembryo : ∀ x, (∀ i, i ≠ x → Alike (k.ptable i) (k'.ptable i)) →
      ((k'.ptable x).state = .embryo → (k.ptable x).state = .embryo) →
      ∀ i, (k'.ptable i).state = .embryo → (k.ptable i).state = .embryo := by
    intro x hrest hx i hi
    by_cases hix : i = x
    · exact hix ▸ hx (hix ▸ hi)
    · exact (hrest i hix).embryo.1 hi
  cases hchange with
  | idle hsame hnext =>
    refine hk.threaded_of_joined ha hstep (fun q i ↦ joined_iff_of_same hsame)
      (fun i ↦ (hsame i).embryo.1) (hk.retired_of_rest (x := p) (fun i _ ↦ (hsame i).toAlike)
        fun hi ↦ ?_)
    have hzombie := (hsame p).zombie.1 hi
    rw [(hsame p).countThread hzombie]
    exact hk.retired p hzombie
  | take np hold hnew hpid hrest hnext =>
    exact hk.threaded_of_rest ha hstep (zombie_of_unused hold) hrest
      (fun q hj ↦ absurd hj (not_joined_of_halfMade hnew q)) (by rw [hnew.1]; decide)
  | giveUp np hold hnew hrest hnext =>
    exact hk.threaded_of_rest ha hstep (zombie_of_halfMade hold) hrest
      (fun q hj ↦ absurd hj (not_joined_of_unused hk' hnew q)) (by rw [hnew]; decide)
  | child q np hq hold hnew hpid hparent hpgdir hrest hnext =>
    have hne : np ≠ q := fun heq ↦ hq.present.2 (heq ▸ hold)
    have hnot := hk.child_not_joined hne hq.present hparent hpgdir hrest
    exact hk.threaded_of_rest ha hstep (zombie_of_halfMade hold) hrest
      (fun r hj ↦ absurd hj (hnot r)) (by rw [hnew]; decide)
  | reset q np heq hcall hnew hrest hnext =>
    refine hk.threaded_of_joined ha hstep (joined_iff_of_entry hrest (by rw [hnew]) (by rw [hnew]))
      (hembryo np (fun i hi ↦ (hrest i hi).toAlike) ?_)
      (hk.retired_of_rest (fun i hi ↦ (hrest i hi).toAlike) ?_) <;> rw [hnew]
    · exact id
    · exact fun _ ↦ rfl
  | claim q np stack heq hq hcall hold hnew hpid hparent hpgdir hstack hrest hnext =>
    obtain rfl : q = p := hk.caller q np stack hcall
    refine hk.threaded_of_rest ha hstep (zombie_of_halfMade hold) hrest (fun r hj ↦ ⟨?_, ?_⟩)
      (by rw [hnew]; decide)
    · exact (Option.some.inj (hparent.symm.trans hj.1)).symm
    · subst heq
      obtain ⟨np', stack', hcall', -, rfl⟩ := Unmonitored.step_cloneCopy hstep
      obtain ⟨rfl, -⟩ := Call.clone.inj (hcall.symm.trans hcall')
      exact setCall_call_self
  | thread q np heq hcall hold hnew hrest hnext =>
    refine hk.threaded_of_joined ha hstep (joined_iff_of_entry hrest (by rw [hnew]) (by rw [hnew]))
      (hembryo np (fun i hi ↦ (hrest i hi).toAlike) fun _ ↦ hold)
      (hk.retired_of_rest (fun i hi ↦ (hrest i hi).toAlike) ?_)
    rw [hnew]
    exact nofun
  | exec q d sz heq hq hd hnew hrest hnext =>
    subst heq
    refine hk.threaded_of_joined ha hstep (hk.joined_exec hd ha hnew hrest)
      (hembryo q (fun i hi ↦ (hrest i hi).toAlike) ?_)
      (hk.retired_of_rest (fun i hi ↦ (hrest i hi).toAlike) ?_) <;> rw [hnew]
    · exact id
    · exact fun hi ↦ absurd (hq.symm.trans hi) (by decide)
  | exit q heq hq hroot hnew hpid hpgdir hstack hcount hparent hrest hnext =>
    subst heq
    have hnone := hk.not_joined_of_exit ha
    refine hk.threaded_of_joined ha hstep (hk.joined_exit hnone hpgdir hparent)
      (hembryo q hrest fun hi ↦ absurd (hnew.symm.trans hi) (by decide))
      (hk.retired_of_rest hrest fun _ ↦ ?_)
    -- the process that exits counts no threads
    rw [hcount]
    exact hk.countThread_eq_zero hq.present hnone
  | wait q x hq hx hold hnew hrest hnext =>
    exact hk.threaded_of_rest ha hstep (fun _ ↦ hold) hrest
      (fun r hj ↦ absurd hj (not_joined_of_unused hk' hnew r)) (by rw [hnew]; decide)
  | join q x hq hx hold hnew hrest hnext =>
    exact hk.threaded_of_rest ha hstep (fun _ ↦ hold) hrest
      (fun r hj ↦ absurd hj (not_joined_of_unused hk' hnew r)) (by rw [hnew]; decide)

/-- A step keeps the family. -/
theorem Family.step (hk : Family p k) (ha : JoinMeets p (k, h) a)
    (hpid : ∀ i, (k.ptable i).state ≠ .unused → 0 < (k.ptable i).pid)
    (hstep : Unmonitored.step k a = .ok k') : Family p k' := by
  have hk' := hk.inv_step ha hstep
  have horders := ha.1
  have hchange := change_of_step hk.toOrderly hpid
    (fun q copied heq ↦ by rw [heq] at horders; exact horders) hstep
  refine ⟨hk', hk.threaded_step horders hk' hstep hchange, fun q np stack hcall ↦ ?_⟩
  rcases call_eq_clone hstep hcall with hcall | ⟨rfl, -⟩
  · exact hk.caller q np stack hcall
  · exact horders

end Threads
