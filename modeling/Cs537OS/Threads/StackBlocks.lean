import Mathlib.Algebra.Order.Group.Multiset
import Cs537OS.Threads.Joining
import Cs537OS.Threads.Tables
import Cs537OS.Threads.ThreadCreate

/-!
# The stacks of threads

The life of the blocks that `thread_create` gets from `malloc`: `clone` gives them to a thread,
`join` gives them back to `thread_join`, which hands them to `free`. `Library` is the kernel with
what the program in slot `p` has obtained and freed, and `Balanced` the law of its books: what was
obtained is what was freed together with the stacks of the threads that are not joined.

* `good_of_reachable` — the books balance in every run in which each `thread_create` is clean and
  the threads of `p` stay its threads until they are joined (`KeepsThreads`);
* `threadCreate_run` — the first is about the calls of `ThreadCreate`: one call of `thread_create`
  is a run of the library;
* `threadCreate_ok` — both.
-/

open GuardedLoop (bind_eq_ok_iff)
open Xv6

namespace Threads

open Kernel

/-! ### Threads that are not joined -/

namespace Kernel

/-- Entry `i` is that of a thread of `p` that has not been joined. An EMBRYO is none yet, and a
`clone` that fails may leave one behind. -/
def Unjoined (k : Kernel) (p i : Slot) : Prop := k.Joined p i ∧ (k.ptable i).state ≠ .embryo

instance (k : Kernel) (p i : Slot) : Decidable (k.Unjoined p i) :=
  inferInstanceAs (Decidable (_ ∧ _))

/-- The stacks of the threads of `p`. -/
def stacksOf (k : Kernel) (p : Slot) : Multiset ℕ :=
  (Finset.univ.filter fun i ↦ k.Unjoined p i).val.map fun i ↦ (k.ptable i).stack

/-- The block at an address that `malloc` has returned, if it is one. -/
def block (stack : ℕ) : Multiset ℕ := if stack = 0 then 0 else {stack}

/-- The stack that `p` has handed to a `clone` that has not returned, unless it is none. -/
def pending (k : Kernel) (p : Slot) : Multiset ℕ :=
  match k.call p with
  | .clone _ stack => block stack
  | .cloneReturn np => block (k.ptable np).stack
  | _ => 0

/-- Process `p` has not exited. -/
def Live (k : Kernel) (p : Slot) : Prop := (k.ptable p).Present ∧ (k.ptable p).state ≠ .zombie

end Kernel

/-- The step takes no thread from `p` and gives it none that `p` has not cloned. An address space
that `p` forks is not its own, neither `p` nor a thread of it executes another program, `p` does not
exit, and the first process is given no child in its own address space. -/
def KeepsThreads (p : Slot) (k : Kernel) : Action → Prop
  | .forkCopy q _ => q = p → (k.ptable p).pgdir ∈ k.pgdirs
  | .exec q (.ready _ _) =>
    q ≠ p ∧ ((k.ptable q).parent = some p → ¬ k.Joined p q ∧ (k.ptable p).pgdir ∈ k.pgdirs)
  | .exit q => q ≠ p ∧
    (p = initproc → ∀ i, (k.ptable i).parent = some q → (k.ptable i).pgdir ≠ (k.ptable p).pgdir)
  | _ => True

instance (p : Slot) (k : Kernel) : (a : Action) → Decidable (KeepsThreads p k a)
  | .forkCopy _ _ => inferInstanceAs (Decidable (_ → _))
  | .exec _ (.ready _ _) => inferInstanceAs (Decidable (_ ∧ (_ → _ ∧ _)))
  | .exit _ => inferInstanceAs (Decidable (_ ∧ (_ → ∀ _, _ → _)))
  | .dispatch _ | .yield _ | .sleep _ _ | .wakeup _ | .kill _ | .growproc _ _ _ | .growNext _
  | .fork _ | .noKstack _ | .forkReturn _ | .clone _ _ | .cloneCopy _ | .cloneReturn _ _
  | .exec _ .none | .exec _ (.aborted _) | .wait _ | .join _ _ => inferInstanceAs (Decidable True)

/-- Entry `i` is that of a thread of `p` after the step exactly when it was one before, with the
same stack. -/
def Unmoved (p : Slot) (k k' : Kernel) (i : Slot) : Prop :=
  (k'.Unjoined p i ↔ k.Unjoined p i) ∧
    (k.Unjoined p i → (k'.ptable i).stack = (k.ptable i).stack)

variable {k k' : Kernel} {p q np i x : Slot} {a : Action} {es : List Event}

theorem Unmoved.symm (h : Unmoved p k k' i) : Unmoved p k' k i :=
  ⟨h.1.symm, fun hi ↦ (h.2 (h.1.1 hi)).symm⟩

theorem Unmoved.of_not (hold : ¬ k.Unjoined p i) (hnew : ¬ k'.Unjoined p i) : Unmoved p k k' i :=
  ⟨iff_of_false hnew hold, fun hi ↦ absurd hi hold⟩

/-- The stacks are the same when no entry has changed. -/
theorem stacksOf_congr (h : ∀ i, Unmoved p k k' i) : k'.stacksOf p = k.stacksOf p := by
  have hfilter : (Finset.univ.filter fun i ↦ k'.Unjoined p i) =
      Finset.univ.filter fun i ↦ k.Unjoined p i :=
    Finset.filter_congr fun i _ ↦ (h i).1
  rw [stacksOf, stacksOf, hfilter]
  exact Multiset.map_congr rfl fun i hi ↦ (h i).2 (Finset.mem_filter.1 (Finset.mem_def.2 hi)).2

/-- One stack more when an entry has become that of a thread. -/
theorem stacksOf_insert (hold : ¬ k.Unjoined p x) (hnew : k'.Unjoined p x)
    (hrest : ∀ i, i ≠ x → Unmoved p k k' i) :
    k'.stacksOf p = (k'.ptable x).stack ::ₘ k.stacksOf p := by
  have hx : x ∉ Finset.univ.filter fun i ↦ k.Unjoined p i := fun hx ↦
    hold (Finset.mem_filter.1 hx).2
  have hinsert : (Finset.univ.filter fun i ↦ k'.Unjoined p i) =
      insert x (Finset.univ.filter fun i ↦ k.Unjoined p i) := by
    ext i
    rw [Finset.mem_insert, Finset.mem_filter, Finset.mem_filter]
    rcases eq_or_ne i x with rfl | hi
    · exact iff_of_true ⟨Finset.mem_univ i, hnew⟩ (.inl rfl)
    · rw [(hrest i hi).1]
      exact (or_iff_right hi).symm
  rw [stacksOf, stacksOf, hinsert, Finset.insert_val_of_notMem hx, Multiset.map_cons]
  refine congrArg _ (Multiset.map_congr rfl fun i hi ↦ ?_)
  have hi' : k.Unjoined p i := (Finset.mem_filter.1 (Finset.mem_def.2 hi)).2
  exact (hrest i fun heq ↦ hold (heq ▸ hi')).2 hi'

/-! ### What a step does to them -/

theorem Kernel.Live.ne_of_unused (hp : k.Live p) (hx : (k.ptable x).state = .unused) : p ≠ x :=
  fun heq ↦ hp.1.1 (heq ▸ hx)

theorem Kernel.Live.ne_of_halfMade (hp : k.Live p) (hx : (k.ptable x).HalfMade) : p ≠ x :=
  fun heq ↦ hp.1.2 (heq ▸ hx)

theorem Kernel.Live.ne_of_zombie (hp : k.Live p) (hx : (k.ptable x).state = .zombie) : p ≠ x :=
  fun heq ↦ hp.2 (heq ▸ hx)

theorem Kernel.Live.of_alike (hp : k.Live p) (halike : Alike (k.ptable p) (k'.ptable p)) :
    k'.Live p :=
  ⟨⟨mt halike.unused.1 hp.1.1, mt halike.halfMade.1 hp.1.2⟩, mt halike.zombie.1 hp.2⟩

theorem not_unjoined_of_unused (h : Orderly k) (hx : (k.ptable x).state = .unused) :
    ¬ k.Unjoined p x := fun hj ↦ by
  have hparent := hj.1.1
  rw [h.unused_parent x hx] at hparent
  cases hparent

theorem not_unjoined_of_halfMade (hx : (k.ptable x).HalfMade) : ¬ k.Unjoined p x := fun hj ↦
  not_joined_of_halfMade hx p hj.1

/-- An entry that is as it was, in an address space that `p` has or has not as before. -/
theorem Unmoved.of_eq (hembryo : (k.ptable i).parent ≠ none →
      ((k'.ptable i).state = .embryo ↔ (k.ptable i).state = .embryo))
    (hparent : (k'.ptable i).parent = (k.ptable i).parent)
    (hpgdir : (k'.ptable i).pgdir = (k.ptable i).pgdir)
    (hstack : (k'.ptable i).stack = (k.ptable i).stack)
    (hp : (k'.ptable p).pgdir = (k.ptable p).pgdir) : Unmoved p k k' i := by
  have hjoined : k'.Joined p i ↔ k.Joined p i := by
    rw [Kernel.Joined, Kernel.Joined, hparent, hpgdir, hp]
  refine ⟨(and_congr_left' hjoined).trans (and_congr_right fun hj ↦ not_congr ?_), fun _ ↦ hstack⟩
  refine hembryo ?_
  rw [hj.1]
  exact Option.some_ne_none p

/-- Where entry and process are the same nothing has moved. -/
theorem Unmoved.of_same (hembryo : (k.ptable i).parent ≠ none →
      ((k'.ptable i).state = .embryo ↔ (k.ptable i).state = .embryo))
    (hi : Same (k.ptable i) (k'.ptable i)) (hp : Same (k.ptable p) (k'.ptable p)) :
    Unmoved p k k' i :=
  .of_eq hembryo hi.parent hi.pgdir hi.stack hp.pgdir

/-- The last step of `clone` adds the stack of the new thread, if it succeeds. -/
theorem stacksOf_cloneReturn (h : Orderly k) (hp : k.Live p) {copied : Bool}
    (hcall : k.call q = .cloneReturn np) (hmade : q = p → k.Joined p np)
    (hk' : k' = (k.cloneReturn np copied).1.setCall q .user) :
    k'.Live p ∧ k'.stacksOf p =
      if q = p ∧ copied then (k.ptable np).stack ::ₘ k.stacksOf p else k.stacksOf p := by
  cases copied with
  | false =>
    obtain rfl : k' = k.setCall q .user := hk'
    exact ⟨hp, (if_neg fun hyes ↦ Bool.false_ne_true hyes.2).symm⟩
  | true =>
    have hself : k'.ptable np = { k.ptable np with state := .runnable } := by
      rw [hk', setCall_ptable, cloneReturn_ptable_self]
      rfl
    have hothers : ∀ i, i ≠ np → k'.ptable i = k.ptable i := fun i hi ↦ by
      rw [hk', setCall_ptable, cloneReturn_ptable_of_ne hi]
    have hembryo := h.made_embryo q np hcall
    have hparent := h.made_parent q np (.inr hcall)
    have hpgdir : (k'.ptable p).pgdir = (k.ptable p).pgdir := by
      rcases eq_or_ne p np with heq | hne
      · rw [heq, hself]
      · rw [hothers p hne]
    have hlive : k'.Live p := by
      rcases eq_or_ne p np with heq | hne
      · rw [Live, heq, hself]
        exact ⟨⟨nofun, fun hhalf ↦ nomatch hhalf.1⟩, nofun⟩
      · rwa [Live, hothers p hne]
    have hunmoved : ∀ i, i ≠ np → Unmoved p k k' i := fun i hi ↦ by
      have hi' := hothers i hi
      exact .of_eq (fun _ ↦ by rw [hi']) (by rw [hi']) (by rw [hi']) (by rw [hi']) hpgdir
    have hold : ¬ k.Unjoined p np := fun hj ↦ hj.2 hembryo
    refine ⟨hlive, ?_⟩
    split_ifs with hyes
    · obtain ⟨rfl, -⟩ := hyes
      have hthread : k'.Unjoined q np := by
        refine ⟨⟨?_, ?_⟩, ?_⟩
        · rw [hself]
          exact hparent
        · rw [hself, hpgdir]
          exact (hmade rfl).2
        · rw [hself]
          exact nofun
      rw [stacksOf_insert hold hthread hunmoved, hself]
    · refine stacksOf_congr fun i ↦ ?_
      rcases eq_or_ne i np with rfl | hi
      · refine .of_not hold fun hj ↦ hyes ⟨?_, rfl⟩
        have hj' := hj.1.1
        rw [hself] at hj'
        exact Option.some.inj (hparent.symm.trans hj')
      · exact hunmoved i hi

/-- What any other step does to the threads of `p`: one has been joined, or they are the same. -/
theorem stacksOf_of_step (h : Numbered k) (hp : k.Live p) (ha : KeepsThreads p k a)
    (hreturn : ∀ q copied, a ≠ .cloneReturn q copied) (hstep : Unmonitored.step k a = .ok k') :
    k'.Live p ∧
      ((∃ pid b, k.events a = [.joined p pid b] ∧ k.stacksOf p = b ::ₘ k'.stacksOf p) ∨
        k'.stacksOf p = k.stacksOf p ∧ ∀ pid b, k.events a ≠ [.joined p pid b]) := by
  have hchange := change_of_step h.toOrderly h.pid
    (fun q copied heq ↦ absurd heq (hreturn q copied)) hstep
  have h' := h.toOrderly.step hstep
  have hembryo : ∀ i, (k.ptable i).parent ≠ none →
      ((k'.ptable i).state = .embryo ↔ (k.ptable i).state = .embryo) := fun i hi ↦
    embryo_iff_of_step h.toOrderly hstep hi fun q _ ↦ hreturn q true
  have hactions := fun q ↦ @action_of_mem_events k q a
  -- `p` and the other entries are as before, and none of those is that of a thread but for `x`
  have hrest : ∀ x, p ≠ x → (∀ i, i ≠ x → Same (k.ptable i) (k'.ptable i)) →
      k'.Live p ∧ ∀ i, i ≠ x → Unmoved p k k' i := fun x hpx hsame ↦
    ⟨hp.of_alike (hsame p hpx).toAlike, fun i hi ↦ .of_same (hembryo i) (hsame i hi) (hsame p hpx)⟩
  have hquiet : ∀ x, p ≠ x → (∀ i, i ≠ x → Same (k.ptable i) (k'.ptable i)) →
      ¬ k.Unjoined p x → ¬ k'.Unjoined p x → k'.Live p ∧ k'.stacksOf p = k.stacksOf p := by
    intro x hpx hsame hold hnew
    obtain ⟨hlive, hunmoved⟩ := hrest x hpx hsame
    refine ⟨hlive, stacksOf_congr fun i ↦ ?_⟩
    rcases eq_or_ne i x with rfl | hi
    · exact .of_not hold hnew
    · exact hunmoved i hi
  generalize hes : k.events a = es at hchange hactions ⊢
  cases hchange with
  | idle hsame hnext =>
    refine ⟨hp.of_alike (hsame p).toAlike, .inr ⟨stacksOf_congr fun i ↦ ?_, by simp⟩⟩
    exact .of_same (hembryo i) (hsame i) (hsame p)
  | take np hold hnew hpid hsame hnext =>
    obtain ⟨hlive, heq⟩ := hquiet np (hp.ne_of_unused hold) hsame
      (not_unjoined_of_unused h.toOrderly hold) (not_unjoined_of_halfMade hnew)
    exact ⟨hlive, .inr ⟨heq, by simp⟩⟩
  | giveUp np hold hnew hsame hnext =>
    obtain ⟨hlive, heq⟩ := hquiet np (hp.ne_of_halfMade hold) hsame
      (not_unjoined_of_halfMade hold) (not_unjoined_of_unused h' hnew)
    exact ⟨hlive, .inr ⟨heq, by simp⟩⟩
  | child q np hq hold hnew hpid hparent hpgdir hsame hnext =>
    have hpn := hp.ne_of_halfMade hold
    obtain ⟨hlive, heq⟩ := hquiet np hpn hsame (not_unjoined_of_halfMade hold) fun hj ↦ by
      obtain rfl : q = p := Option.some.inj (hparent.symm.trans hj.1.1)
      obtain ⟨space, rfl⟩ := (hactions q (List.mem_singleton_self _)).1 _ rfl
      exact hpgdir (hj.1.2 ▸ (hsame q hpn).pgdir ▸ ha rfl)
    exact ⟨hlive, .inr ⟨heq, by simp⟩⟩
  | reset q np ha' hcall hnew hsame hnext =>
    -- only a count has changed, perhaps that of `p`
    have hall : ∀ i, (k'.ptable i).state = (k.ptable i).state ∧
        (k'.ptable i).parent = (k.ptable i).parent ∧ (k'.ptable i).pgdir = (k.ptable i).pgdir ∧
          (k'.ptable i).stack = (k.ptable i).stack := by
      subst ha'
      obtain ⟨np', -, -, rfl⟩ := Unmonitored.step_forkReturn hstep
      intro i
      rw [setCall_ptable, forkReturn_ptable]
      split_ifs <;> exact ⟨rfl, rfl, rfl, rfl⟩
    refine ⟨?_, .inr ⟨stacksOf_congr fun i ↦ ?_, by simp⟩⟩
    · rwa [Live, Proc.Present, Proc.HalfMade, (hall p).1, (hall p).2.1]
    · obtain ⟨-, hparent, hpgdir, hstack⟩ := hall i
      exact .of_eq (hembryo i) hparent hpgdir hstack (hall p).2.2.1
  | claim q np stack ha' hq hcall hold hnew hpid hparent hpgdir hstack hsame hnext =>
    obtain ⟨hlive, heq⟩ := hquiet np (hp.ne_of_halfMade hold) hsame
      (not_unjoined_of_halfMade hold) fun hj ↦ hj.2 hnew
    exact ⟨hlive, .inr ⟨heq, by simp⟩⟩
  | thread q np ha' hcall hold hnew hsame hnext => exact absurd ha' (hreturn q true)
  | exec q d sz ha' hq hd hnew hsame hnext =>
    subst ha'
    obtain ⟨hqp, hthread⟩ := ha
    have hpgdir := (hsame p hqp.symm).pgdir
    obtain ⟨hlive, heq⟩ := hquiet q hqp.symm hsame
      (fun hj ↦ (hthread hj.1.1).1 hj.1) fun hj ↦ by
      have hj' := hj.1
      rw [Kernel.Joined, hnew, hpgdir] at hj'
      have hd' : d = (k.ptable p).pgdir := hj'.2
      exact hd (hd' ▸ (hthread hj'.1).2)
    exact ⟨hlive, .inr ⟨heq, by simp⟩⟩
  | exit q ha' hq hroot hnew hpid hpgdir hstack hcount hparent halike hnext =>
    subst ha'
    obtain ⟨hqp, hinit⟩ := ha
    refine ⟨hp.of_alike (halike p hqp.symm), .inr ⟨stacksOf_congr fun i ↦ ?_, by simp⟩⟩
    have hjoined : k'.Joined p i ↔ k.Joined p i := by
      rw [Kernel.Joined, Kernel.Joined, hparent i, hpgdir i, hpgdir p]
      split_ifs with hiq
      · refine iff_of_false (fun hj ↦ ?_) fun hj ↦ hqp (Option.some.inj (hiq.symm.trans hj.1))
        exact hinit (Option.some.inj hj.1).symm i hiq hj.2
      · exact .rfl
    have hstack' : (k'.ptable i).stack = (k.ptable i).stack := by
      rcases eq_or_ne i q with rfl | hi
      · exact hstack
      · exact (halike i hi).stack
    refine ⟨(and_congr_left' hjoined).trans (and_congr_right fun hj ↦ not_congr (hembryo i ?_)),
      fun _ ↦ hstack'⟩
    rw [hj.1]
    exact Option.some_ne_none p
  | wait q x hq hx hold hnew hsame hnext =>
    obtain ⟨hlive, heq⟩ := hquiet x (hp.ne_of_zombie hold) hsame
      (fun hj ↦ by
        obtain rfl : q = p := Option.some.inj (hx.1.symm.trans hj.1.1)
        exact hx.2 hj.1.2) (not_unjoined_of_unused h' hnew)
    exact ⟨hlive, .inr ⟨heq, by simp⟩⟩
  | join q x hq hx hold hnew hsame hnext =>
    have hpx := hp.ne_of_zombie hold
    rcases eq_or_ne p q with rfl | hpq
    · obtain ⟨hlive, hunmoved⟩ := hrest x hpx hsame
      refine ⟨hlive, .inl ⟨_, _, rfl, ?_⟩⟩
      exact stacksOf_insert (not_unjoined_of_unused h' hnew) ⟨hx, by rw [hold]; decide⟩
        fun i hi ↦ (hunmoved i hi).symm
    · obtain ⟨hlive, heq⟩ := hquiet x hpx hsame
        (fun hj ↦ hpq (Option.some.inj (hj.1.1.symm.trans hx.1))) (not_unjoined_of_unused h' hnew)
      refine ⟨hlive, .inr ⟨heq, fun pid b hb ↦ hpq ?_⟩⟩
      cases hb
      rfl

/-! ### The library -/

/-- The kernel with the heap of the program in slot `p`, as far as stacks are concerned: the blocks
that `thread_create` has got from `malloc`, and those that `thread_join` has handed to `free`, each
as often as that happened. -/
structure Library where
  kernel : Kernel
  obtained : Multiset ℕ
  freed : Multiset ℕ

/-- What can happen next. A call of `thread_create` takes three steps, as that of `clone` does. -/
inductive LibraryAct where
  /-- `malloc` returns `stack`, and `clone` is called with it. -/
  | create (start_routine arg stack : UInt32)
  /-- There is a page for the kernel stack, and the thread is filled in, or there is none. -/
  | fill (kstack : Bool)
  /-- `clone` returns. -/
  | created (copied : Bool)
  | join (stack : ℕ)
  | other (a : Action)

/-- Steps of `clone` and `join` of `p`. -/
def Action.OfLibrary (p : Slot) : Action → Prop
  | .noKstack q => q = p
  | .clone q _ => q = p
  | .cloneCopy q => q = p
  | .cloneReturn q _ => q = p
  | .join q _ => q = p
  | _ => False

instance (p : Slot) : (a : Action) → Decidable (a.OfLibrary p)
  | .noKstack _ | .clone _ _ | .cloneCopy _ | .cloneReturn _ _ | .join _ _ =>
    inferInstanceAs (Decidable (_ = _))
  | .dispatch _ | .yield _ | .sleep _ _ | .wakeup _ | .kill _ | .growproc _ _ _ | .growNext _
  | .fork _ | .forkCopy _ _ | .forkReturn _ | .exec _ _ | .exit _ | .wait _ =>
    inferInstanceAs (Decidable False)

/-- Steps of `thread_create`. -/
def LibraryAct.OfCreate : LibraryAct → Prop
  | .create _ _ _ => True
  | .fill _ => True
  | .created _ => True
  | _ => False

namespace Library

/-- What `sys_clone` passes on of its words, in a process of size `sz`. -/
def cloneStack (sz : ℕ) (fcn arg stack : UInt32) : Option ℕ := do
  let _ ← argptr sz fcn sizeArgument
  let _ ← argptr sz arg sizeArgument
  argptr sz stack sizeArgument

/-- The first step of `clone` by way of `sys_clone`, which may return -1 itself. -/
def sysClone (k : Kernel) (p : Slot) (fcn arg stack : UInt32) : Except Fault Kernel :=
  match cloneStack (k.ptable p).sz fcn arg stack with
  | none => .ok k
  | some stack => Unmonitored.step k (.clone p stack)

/-- The second step of `clone`. -/
def fillAction (p : Slot) (kstack : Bool) : Action := if kstack then .cloneCopy p else .noKstack p

/-- `malloc` returns 0, or a block that is not in use. -/
def Fresh (s : Library) (stack : UInt32) : Prop :=
  stack = 0 ∨ stack.toNat ∉ s.obtained - s.freed

instance (s : Library) (stack : UInt32) : Decidable (s.Fresh stack) :=
  inferInstanceAs (Decidable (_ ∨ _))

/-- What `thread_join` has freed after a step of `join`: the stack that is stored, unless it is an
error that is returned. -/
def freedAfter (s : Library) (p : Slot) (stack : ℕ) : Multiset ℕ :=
  match s.kernel.joinResult p stack with
  | some (res, some stored) => if res ≠ -1 then stored ::ₘ s.freed else s.freed
  | _ => s.freed

/-- One step. -/
def step (p : Slot) (s : Library) : LibraryAct → Except Fault Library
  | .create start_routine arg stack =>
    if s.kernel.InUser p ∧ s.Fresh stack then do
      let k ← sysClone s.kernel p start_routine arg stack
      .ok { s with
        kernel := k
        obtained := if stack = 0 then s.obtained else stack.toNat ::ₘ s.obtained }
    else
      .error .blocked
  | .fill kstack => do
    let k ← Unmonitored.step s.kernel (fillAction p kstack)
    .ok { s with kernel := k }
  | .created copied => do
    let k ← Unmonitored.step s.kernel (.cloneReturn p copied)
    .ok { s with kernel := k }
  | .join stack => do
    let k ← Unmonitored.step s.kernel (.join p stack)
    .ok { s with
      kernel := k
      freed := s.freedAfter p stack }
  | .other a =>
    if a.OfLibrary p then
      .error .blocked
    else do
      let k ← Unmonitored.step s.kernel a
      .ok { s with kernel := k }

/-- Each `thread_create` is clean, and the threads of `p` stay its threads. -/
def Sound (p : Slot) (s : Library) : LibraryAct → Prop
  | .create start_routine arg stack => stack ≠ 0 →
    (start_routine.toNat < (s.kernel.ptable p).sz ∧ arg.toNat < (s.kernel.ptable p).sz ∧
        stack.toNat < (s.kernel.ptable p).sz) ∧
      ∃ i, (s.kernel.ptable i).state = .unused
  | .fill kstack => s.kernel.pending p ≠ 0 → kstack = true
  | .created copied => (copied = true ↔ s.kernel.pending p ≠ 0)
  | .join _ => True
  | .other a => KeepsThreads p s.kernel a

instance (p : Slot) (s : Library) : (l : LibraryAct) → Decidable (s.Sound p l)
  | .create _ _ _ => inferInstanceAs (Decidable (_ → (_ ∧ _ ∧ _) ∧ ∃ _, _))
  | .fill _ => inferInstanceAs (Decidable (_ → _))
  | .created _ => inferInstanceAs (Decidable (_ ↔ _))
  | .join _ => inferInstanceAs (Decidable True)
  | .other a => inferInstanceAs (Decidable (KeepsThreads p s.kernel a))

/-- What was obtained has been freed, each block as often as it was obtained, but for the stacks of
the threads that are not joined and the one that `clone` is being called with. No two of these are
the same. -/
structure Balanced (p : Slot) (s : Library) : Prop where
  accounted : s.obtained = s.freed + (s.kernel.pending p + s.kernel.stacksOf p)
  nodup : (s.kernel.pending p + s.kernel.stacksOf p).Nodup

end Library

/-- The runs of a program in slot `p` that has not created threads yet, from any state that the
kernel can be in. -/
def library (p : Slot) : System Library LibraryAct where
  init s := Unmonitored.system.Reachable s.kernel ∧ s.kernel.InUser p ∧
    (∀ i, ¬ s.kernel.Joined p i) ∧ s.obtained = 0 ∧ s.freed = 0
  next s a t := s.step p a = .ok t

/-! ### The call of clone -/

theorem block_of_ne {stack : ℕ} (hne : stack ≠ 0) : block stack = {stack} := if_neg hne

theorem block_ne_zero_iff {stack : ℕ} : block stack ≠ 0 ↔ stack ≠ 0 := by
  rw [block]
  split_ifs with hzero
  · exact iff_of_false (not_not.2 rfl) (not_not.2 hzero)
  · exact iff_of_true (Multiset.singleton_ne_zero stack) hzero

/-- Outside `clone` nothing is handed over. -/
theorem pending_eq_zero (h : ¬ (k.call p).InClone) : k.pending p = 0 := by
  rw [pending]
  split
  · rename_i np stack hcall
    rw [hcall] at h
    exact absurd trivial h
  · rename_i np hcall
    rw [hcall] at h
    exact absurd trivial h
  · rfl

/-- In user mode no block is on its way to a thread. -/
theorem pending_of_user (hcall : k.call p = .user) : k.pending p = 0 :=
  pending_eq_zero fun h ↦ by rwa [hcall] at h

theorem pending_of_clone {stack : ℕ} (hcall : k.call p = .clone np stack) :
    k.pending p = block stack := by
  rw [pending, hcall]

theorem pending_of_cloneReturn (hcall : k.call p = .cloneReturn np) :
    k.pending p = block (k.ptable np).stack := by
  rw [pending, hcall]

/-- A thread that has been filled in shares the address space of its parent, until `clone` returns:
neither of the two can execute another program in the meantime. -/
theorem joined_of_step (h : Numbered k) (hmade : ∀ i, k.call p = .cloneReturn i → k.Joined p i)
    (hstep : Unmonitored.step k a = .ok k') (hcall : k'.call p = .cloneReturn np) :
    k'.Joined p np := by
  refine ⟨(h.toOrderly.step hstep).made_parent p np (.inr hcall), ?_⟩
  rcases call_eq_cloneReturn hstep hcall with hold | ⟨rfl, stack, hold⟩
  · obtain ⟨hnp, hp⟩ := frame_of_made h hold hstep
    rw [hnp.1, hp, (hmade np hold).2]
  · obtain ⟨np', stack', hcall', hp, rfl⟩ := Unmonitored.step_cloneCopy hstep
    obtain ⟨rfl, rfl⟩ := Call.clone.inj (hold.symm.trans hcall')
    have hne := Fills.ne h.toOrderly hp (.inr ⟨stack, hold⟩)
    rw [setCall_ptable, cloneCopy_ptable_self hne, cloneCopy_ptable_parent hne]

/-- Nobody else interferes with a call of `clone`. -/
theorem pending_of_step (h : Numbered k) (ha : ¬ a.OfLibrary p)
    (hstep : Unmonitored.step k a = .ok k') : k'.pending p = k.pending p := by
  have hnot : ∀ b : Action, b.OfLibrary p → a ≠ b := fun b hb heq ↦ ha (heq ▸ hb)
  by_cases hclone : ∃ np stack, k.call p = .clone np stack
  · obtain ⟨np, stack, hcall⟩ := hclone
    have hcall' := call_of_clone hcall (hnot (.cloneCopy p) rfl) (hnot (.noKstack p) rfl) hstep
    rw [pending_of_clone hcall, pending_of_clone hcall']
  by_cases hmade : ∃ np, k.call p = .cloneReturn np
  · obtain ⟨np, hcall⟩ := hmade
    have hcall' := call_of_cloneReturn hcall (fun copied ↦ hnot (.cloneReturn p copied) rfl) hstep
    rw [pending_of_cloneReturn hcall, pending_of_cloneReturn hcall',
      (frame_of_made h hcall hstep).1.2]
  · have hold : ¬ (k.call p).InClone := fun hin ↦ by
      cases hcall : k.call p with
      | clone np stack => exact hclone ⟨np, stack, hcall⟩
      | cloneReturn np => exact hmade ⟨np, hcall⟩
      | _ => rwa [hcall] at hin
    have hnew : ¬ (k'.call p).InClone := fun hin ↦ by
      cases hcall : k'.call p with
      | clone np stack =>
        rcases call_eq_clone hstep hcall with hcall' | ⟨heq, -⟩
        · exact hclone ⟨np, stack, hcall'⟩
        · exact hnot (.clone p stack) rfl heq
      | cloneReturn np =>
        rcases call_eq_cloneReturn hstep hcall with hcall' | ⟨heq, -⟩
        · exact hmade ⟨np, hcall'⟩
        · exact hnot (.cloneCopy p) rfl heq
      | _ => rwa [hcall] at hin
    rw [pending_eq_zero hold, pending_eq_zero hnew]

/-- A call of `clone` takes an entry when there is one. -/
theorem clone_call_of_unused (hunused : ∃ i, (k.ptable i).state = .unused) (stack : ℕ) :
    ∃ np, (k.clone p stack).call p = .clone np stack := by
  have hfind : ((List.finRange NPROC).find? fun i ↦
      decide ((k.ptable i).state = .unused)).isSome := by
    obtain ⟨i, hi⟩ := hunused
    exact List.find?_isSome.2 ⟨i, List.mem_finRange i, decide_eq_true hi⟩
  obtain ⟨np, hnp⟩ := Option.isSome_iff_exists.1 hfind
  refine ⟨np, ?_⟩
  rw [Kernel.clone, allocproc, hnp]
  exact Function.update_self ..

/-- Without one it returns at once. -/
theorem unused_of_clone_call {stack : ℕ} (huser : k.call p = .user)
    (hcall : ((k.clone p stack).call p).InClone) : ∃ i, (k.ptable i).state = .unused := by
  rw [Kernel.clone] at hcall
  rcases allocproc_cases k with heq | ⟨x, hx, -⟩
  · rw [heq, huser] at hcall
    exact hcall.elim
  · exact ⟨x, hx⟩

/-! ### The books balance -/

namespace Library

variable {s s' : Library} {stack : ℕ}

/-- The invariant of the runs. -/
structure Good (p : Slot) (s : Library) : Prop where
  numbered : Numbered s.kernel
  live : s.kernel.Live p
  made : ∀ i, s.kernel.call p = .cloneReturn i → s.kernel.Joined p i
  balanced : s.Balanced p

/-- What `join` adds to the record. -/
theorem events_join (k : Kernel) : k.events (.join p stack) =
    match k.joinResult p stack with
    | some (pid, some stored) => [.joined p pid stored]
    | _ => [] := rfl

/-- `thread_join` frees the stack that `join` returns, and nothing else. -/
theorem freedAfter_of_joined (h : Numbered s.kernel) {pid : ℤ} {b : ℕ}
    (hes : s.kernel.events (.join p stack) = [.joined p pid b]) :
    s.freedAfter p stack = b ::ₘ s.freed := by
  rw [events_join] at hes
  rw [freedAfter]
  rcases hres : s.kernel.joinResult p stack with - | ⟨res, - | stored⟩
  · rw [hres] at hes
    cases hes
  · rw [hres] at hes
    cases hes
  · obtain ⟨x, -, hzombie, rfl, rfl⟩ := joinResult_eq_some hres
    have hpos := h.pid x (by rw [hzombie]; decide)
    rw [hres] at hes
    cases hes
    exact if_pos (by omega)

/-- A block is freed only after a thread has been joined. -/
theorem freedAfter_of_not_joined
    (hes : ∀ pid b, s.kernel.events (.join p stack) ≠ [.joined p pid b]) :
    s.freedAfter p stack = s.freed := by
  rw [events_join] at hes
  rw [freedAfter]
  rcases hres : s.kernel.joinResult p stack with - | ⟨res, - | stored⟩
  · rfl
  · rfl
  · rw [hres] at hes
    exact absurd rfl (hes res stored)

/-- The blocks that are not freed. -/
theorem Balanced.sub_eq (h : s.Balanced p) :
    s.obtained - s.freed = s.kernel.pending p + s.kernel.stacksOf p := by
  rw [h.accounted, add_tsub_cancel_left]

/-- A step in which nothing is obtained or freed. -/
theorem Balanced.of_eq (h : s.Balanced p) (hobtained : s'.obtained = s.obtained)
    (hfreed : s'.freed = s.freed)
    (hused : s'.kernel.pending p + s'.kernel.stacksOf p =
      s.kernel.pending p + s.kernel.stacksOf p) : s'.Balanced p := by
  refine ⟨?_, hused ▸ h.nodup⟩
  rw [hobtained, hfreed, hused]
  exact h.accounted

/-- The invariant after a step of the kernel, when the books are balanced again. -/
theorem Good.of_step (h : s.Good p) {a : Action}
    (hstep : Unmonitored.step s.kernel a = .ok s'.kernel) (hlive : s'.kernel.Live p)
    (hbalanced : s'.Balanced p) : s'.Good p :=
  ⟨h.numbered.step hstep, hlive, fun _ hcall ↦ joined_of_step h.numbered h.made hstep hcall,
    hbalanced⟩

/-- A step of the kernel in which no call of `clone` or `join` ends. -/
theorem Good.kept (h : s.Good p) (ha : KeepsThreads p s.kernel a)
    (hreturn : ∀ q copied, a ≠ .cloneReturn q copied) (hes : s.kernel.events a = [])
    (hstep : Unmonitored.step s.kernel a = .ok k') :
    k'.Live p ∧ k'.stacksOf p = s.kernel.stacksOf p := by
  obtain ⟨hlive, ⟨pid, b, hes', -⟩ | ⟨hsame, -⟩⟩ :=
    stacksOf_of_step h.numbered h.live ha hreturn hstep
  · cases hes.symm.trans hes'
  · exact ⟨hlive, hsame⟩

/-- A step of anybody else keeps the blocks good, -/
theorem Good.other (h : s.Good p) (ha : KeepsThreads p s.kernel a) (hlib : ¬ a.OfLibrary p)
    (hstep : Unmonitored.step s.kernel a = .ok k') : Good p { s with kernel := k' } := by
  have hpending := pending_of_step h.numbered hlib hstep
  have hkept : k'.Live p ∧ k'.stacksOf p = s.kernel.stacksOf p := by
    by_cases hreturn : ∃ q copied, a = .cloneReturn q copied
    · obtain ⟨q, copied, rfl⟩ := hreturn
      obtain ⟨np, hcall, hq, hk'⟩ := Unmonitored.step_cloneReturn hstep
      have hqp : q ≠ p := hlib
      have hadded := stacksOf_cloneReturn h.numbered.toOrderly h.live hcall
        (fun heq ↦ absurd heq hqp) hk'
      rwa [if_neg fun hyes ↦ hqp hyes.1] at hadded
    · obtain ⟨hlive, ⟨pid, b, hes, -⟩ | ⟨hsame, -⟩⟩ := stacksOf_of_step h.numbered h.live ha
        (fun q copied heq ↦ hreturn ⟨q, copied, heq⟩) hstep
      · have hmem : Event.joined p pid b ∈ s.kernel.events a := hes ▸ List.mem_singleton_self _
        obtain ⟨ptr, rfl⟩ := (action_of_mem_events hmem).2.2 pid b rfl
        exact absurd rfl hlib
      · exact ⟨hlive, hsame⟩
  exact h.of_step hstep hkept.1 (h.balanced.of_eq rfl rfl (by rw [hpending, hkept.2]))

/-- and so does `thread_join`, -/
theorem Good.join (h : s.Good p) (hstep : Unmonitored.step s.kernel (.join p stack) = .ok k') :
    Good p { s with kernel := k', freed := s.freedAfter p stack } := by
  -- before and after, `p` is in no call of `clone`
  obtain ⟨⟨-, hcall⟩, -⟩ := Unmonitored.require_eq_ok hstep
  have hold : ¬ (s.kernel.call p).InClone := fun hin ↦ by
    rcases hcall with hcall | hcall <;> rwa [hcall] at hin
  have hnew : ¬ (k'.call p).InClone := fun hin ↦ by
    cases hcall' : k'.call p with
    | clone np b =>
      rcases call_eq_clone hstep hcall' with hc | ⟨heq, -⟩
      · exact hold (hc ▸ trivial)
      · cases heq
    | cloneReturn np =>
      rcases call_eq_cloneReturn hstep hcall' with hc | ⟨heq, -⟩
      · exact hold (hc ▸ trivial)
      · cases heq
    | _ => rwa [hcall'] at hin
  have hpending := pending_eq_zero hold
  have hpending' := pending_eq_zero hnew
  have hkeeps : KeepsThreads p s.kernel (.join p stack) := trivial
  obtain ⟨hlive, hcases⟩ := stacksOf_of_step h.numbered h.live hkeeps (by simp) hstep
  refine h.of_step hstep hlive ?_
  rcases hcases with ⟨pid, b, hes, hless⟩ | ⟨hsame, hes⟩
  · have haccounted := h.balanced.accounted
    have hnodup := h.balanced.nodup
    rw [hpending, hless, Multiset.zero_add] at haccounted hnodup
    refine ⟨?_, ?_⟩
    · show s.obtained = s.freedAfter p stack + (k'.pending p + k'.stacksOf p)
      rw [freedAfter_of_joined h.numbered hes, hpending', Multiset.zero_add, haccounted,
        Multiset.add_cons, Multiset.cons_add]
    · show (k'.pending p + k'.stacksOf p).Nodup
      rw [hpending', Multiset.zero_add]
      exact (Multiset.nodup_cons.1 hnodup).2
  · exact h.balanced.of_eq rfl (freedAfter_of_not_joined hes) (by rw [hsame, hpending, hpending'])

/-- and the end of `thread_create`. -/
theorem Good.created (h : s.Good p) {copied : Bool} (ha : copied = true ↔ s.kernel.pending p ≠ 0)
    (hstep : Unmonitored.step s.kernel (.cloneReturn p copied) = .ok k') :
    Good p { s with kernel := k' } := by
  obtain ⟨np, hcall, -, hk'⟩ := Unmonitored.step_cloneReturn hstep
  obtain ⟨hlive, hstacks⟩ :=
    stacksOf_cloneReturn h.numbered.toOrderly h.live hcall (fun _ ↦ h.made np hcall) hk'
  have hpending' : k'.pending p = 0 := pending_of_user (hk' ▸ Function.update_self ..)
  refine h.of_step hstep hlive (h.balanced.of_eq rfl rfl ?_)
  rw [hpending', hstacks, Multiset.zero_add]
  by_cases hcopied : copied = true
  · have hpending := ha.1 hcopied
    rw [pending_of_cloneReturn hcall] at hpending ⊢
    rw [if_pos ⟨rfl, hcopied⟩, block_of_ne (block_ne_zero_iff.1 hpending), Multiset.singleton_add]
  · have hnone : s.kernel.pending p = 0 := not_not.1 (mt ha.2 hcopied)
    rw [if_neg fun hyes ↦ hcopied hyes.2, hnone, Multiset.zero_add]

/-- The thread is filled in, or the block is lost when there was one. -/
theorem pending_fill (h : Numbered k) {kstack : Bool}
    (hstep : Unmonitored.step k (fillAction p kstack) = .ok k') :
    k'.pending p = if kstack then k.pending p else 0 := by
  cases kstack with
  | true =>
    obtain ⟨np, st, hcall, hp, rfl⟩ := Unmonitored.step_cloneCopy hstep
    have hne := Fills.ne h.toOrderly hp (.inr ⟨st, hcall⟩)
    have hcall' : ((k.cloneCopy p np st).setCall p (.cloneReturn np)).call p = .cloneReturn np :=
      setCall_call_self
    rw [pending_of_cloneReturn hcall', setCall_ptable, cloneCopy_ptable_self hne]
    exact (pending_of_clone hcall).symm
  | false =>
    obtain ⟨np, -, -, rfl⟩ := Unmonitored.step_noKstack hstep
    exact pending_of_user setCall_call_self

/-- The steps of `thread_create` before its end keep the blocks good. -/
theorem Good.fill (h : s.Good p) {kstack : Bool} (ha : s.kernel.pending p ≠ 0 → kstack = true)
    (hstep : Unmonitored.step s.kernel (fillAction p kstack) = .ok k') :
    Good p { s with kernel := k' } := by
  have hpending := pending_fill h.numbered hstep
  obtain ⟨hlive, hsame⟩ : k'.Live p ∧ k'.stacksOf p = s.kernel.stacksOf p := by
    cases kstack with
    | true => exact h.kept (a := .cloneCopy p) trivial (by simp) rfl hstep
    | false => exact h.kept (a := .noKstack p) trivial (by simp) rfl hstep
  refine h.of_step hstep hlive (h.balanced.of_eq rfl rfl ?_)
  cases kstack with
  | true => rw [hpending, hsame, if_pos rfl]
  | false =>
    have hnone : s.kernel.pending p = 0 := not_not.1 fun hne ↦ Bool.false_ne_true (ha hne)
    rw [hpending, hsame, hnone, if_neg Bool.false_ne_true]

theorem toNat_eq_zero_iff {i : UInt32} : i.toNat = 0 ↔ i = 0 := UInt32.toNat_inj (b := 0)

/-- The arguments of `clone` are accepted if all three lie in the process. -/
theorem cloneStack_eq_some_iff {sz st : ℕ} {fcn arg stack : UInt32} :
    cloneStack sz fcn arg stack = some st ↔
      (fcn.toNat < sz ∧ arg.toNat < sz ∧ stack.toNat < sz) ∧ stack.toNat = st := by
  rw [cloneStack]
  simp only [Option.bind_eq_bind, Option.bind_eq_some_iff, argptr_eq_some_iff]
  constructor
  · rintro ⟨_, ⟨hf, _⟩, _, ⟨ha, _⟩, hs, rfl⟩
    exact ⟨⟨hf, ha, hs⟩, rfl⟩
  · rintro ⟨⟨hf, ha, hs⟩, rfl⟩
    exact ⟨_, ⟨hf, rfl⟩, _, ⟨ha, rfl⟩, hs, rfl⟩

/-- `clone` is called with what `malloc` has found. -/
theorem Good.create (h : s.Good p) (huser : s.kernel.call p = .user)
    (hfresh : stack = 0 ∨ stack ∉ s.obtained - s.freed)
    (hgoes : stack ≠ 0 → ∃ i, (s.kernel.ptable i).state = .unused)
    (hstep : Unmonitored.step s.kernel (.clone p stack) = .ok k') :
    Good p { s with
      kernel := k', obtained := if stack = 0 then s.obtained else stack ::ₘ s.obtained } := by
  have hpending := pending_of_user huser
  obtain ⟨hlive, hsame⟩ := h.kept (a := .clone p stack) trivial (by simp) rfl hstep
  obtain ⟨-, rfl⟩ := Unmonitored.require_ok hstep
  refine h.of_step hstep hlive ?_
  by_cases hzero : stack = 0
  · have hpending' : (s.kernel.clone p stack).pending p = 0 := by
      by_contra hne
      rcases allocproc_cases s.kernel with heq | ⟨np, -, heq⟩
      · rw [Kernel.clone, heq] at hne
        exact hne hpending
      · have hcall : (s.kernel.clone p stack).call p = .clone np stack := by
          rw [Kernel.clone, heq]
          exact setCall_call_self
        exact hne ((pending_of_clone hcall).trans (if_pos hzero))
    exact h.balanced.of_eq (if_pos hzero) rfl (by rw [hpending, hpending', hsame])
  · obtain ⟨np, hcall⟩ := clone_call_of_unused (p := p) (hgoes hzero) stack
    have hpending' : (s.kernel.clone p stack).pending p = {stack} :=
      (pending_of_clone hcall).trans (block_of_ne hzero)
    have hnew : stack ∉ s.kernel.stacksOf p := by
      have hnot := hfresh.resolve_left hzero
      rwa [h.balanced.sub_eq, hpending, Multiset.zero_add] at hnot
    have hold := h.balanced.accounted
    have hnodup := h.balanced.nodup
    rw [hpending, Multiset.zero_add] at hold hnodup
    refine ⟨?_, ?_⟩
    · show (if stack = 0 then s.obtained else stack ::ₘ s.obtained) =
        s.freed + ((s.kernel.clone p stack).pending p + (s.kernel.clone p stack).stacksOf p)
      rw [if_neg hzero, hpending', hsame, hold, Multiset.singleton_add, Multiset.add_cons]
    · show ((s.kernel.clone p stack).pending p + (s.kernel.clone p stack).stacksOf p).Nodup
      rw [hpending', hsame, Multiset.singleton_add]
      exact Multiset.nodup_cons.2 ⟨hnew, hnodup⟩

/-- A call of `thread_create` is one of `clone` with a block that `malloc` has given. -/
theorem step_create {fcn arg stack : UInt32}
    (hstep : s.step p (.create fcn arg stack) = .ok s') :
    (s.kernel.InUser p ∧ s.Fresh stack) ∧
      ∃ k', sysClone s.kernel p fcn arg stack = .ok k' ∧
        Except.ok { s with
          kernel := k'
          obtained := if stack = 0 then s.obtained else stack.toNat ::ₘ s.obtained } =
          (.ok s' : Except Fault Library) := by
  by_cases hguard : s.kernel.InUser p ∧ s.Fresh stack
  · rw [Library.step, if_pos hguard] at hstep
    exact ⟨hguard, bind_eq_ok_iff.1 hstep⟩
  · rw [Library.step, if_neg hguard] at hstep
    cases hstep

/-- A step keeps the books balanced when `thread_create` is clean. -/
theorem Good.step (h : s.Good p) {l : LibraryAct} (ha : s.Sound p l)
    (hstep : s.step p l = .ok s') : s'.Good p := by
  cases l with
  | create fcn arg stack =>
    obtain ⟨⟨⟨-, huser⟩, hfresh⟩, k', hk', hstep⟩ := step_create hstep
    rw [← Except.ok.inj hstep]
    rw [sysClone] at hk'
    rcases hwords : cloneStack (s.kernel.ptable p).sz fcn arg stack with - | st
    · -- a word is not let through, which is clean only when there is no block
      rw [hwords] at hk'
      obtain rfl := Except.ok.inj hk'
      have hnone : stack = 0 := by
        by_contra hne
        rw [cloneStack_eq_some_iff.2 ⟨(ha hne).1, rfl⟩] at hwords
        cases hwords
      exact ⟨h.numbered, h.live, h.made, h.balanced.of_eq (if_pos hnone) rfl rfl⟩
    · rw [hwords] at hk'
      obtain ⟨-, rfl⟩ := cloneStack_eq_some_iff.1 hwords
      simp only [Fresh, ← toNat_eq_zero_iff] at hfresh ⊢
      exact h.create huser hfresh (fun hne ↦ (ha (mt toNat_eq_zero_iff.2 hne)).2) hk'
  | fill kstack =>
    obtain ⟨k', hk', hstep⟩ := bind_eq_ok_iff.1 hstep
    rw [← Except.ok.inj hstep]
    exact h.fill ha hk'
  | created copied =>
    obtain ⟨k', hk', hstep⟩ := bind_eq_ok_iff.1 hstep
    rw [← Except.ok.inj hstep]
    exact h.created ha hk'
  | join stack =>
    obtain ⟨k', hk', hstep⟩ := bind_eq_ok_iff.1 hstep
    rw [← Except.ok.inj hstep]
    exact h.join hk'
  | other a =>
    rw [Library.step] at hstep
    split_ifs at hstep with hlib
    obtain ⟨k', hk', hstep⟩ := bind_eq_ok_iff.1 hstep
    rw [← Except.ok.inj hstep]
    exact h.other ha hlib hk'

/-- In every sound run the blocks are good. -/
theorem good_of_reachable (hs : ((library p).restrict (Sound p)).Reachable s) : s.Good p := by
  refine hs.invariant ?_ fun s l t hs ⟨ha, hstep⟩ ↦ hs.step ha hstep
  rintro s ⟨hk, ⟨hrun, hcall⟩, hnone, hobtained, hfreed⟩
  have hpending := pending_of_user hcall
  have hstacks : s.kernel.stacksOf p = 0 := by
    refine Multiset.map_eq_zero.2 (Finset.val_eq_zero.2 (Finset.filter_eq_empty_iff.2 ?_))
    exact fun i _ hi ↦ hnone i hi.1
  have hlive : s.kernel.Live p := ⟨hrun.present, by rw [hrun]; decide⟩
  refine ⟨numbered_of_reachable hk, hlive, fun i hmade ↦ ?_, ?_, ?_⟩
  · cases hcall.symm.trans hmade
  · rw [hobtained, hfreed, hpending, hstacks]
    rfl
  · rw [hpending, hstacks]
    exact Multiset.nodup_zero

/-- The blocks that are obtained and freed, counted. -/
theorem Balanced.card_eq (h : s.Balanced p) : s.obtained.card =
    s.freed.card + ((s.kernel.pending p).card + (s.kernel.stacksOf p).card) := by
  rw [h.accounted, Multiset.card_add, Multiset.card_add]

/-- The first call of `thread_create` that is not clean unbalances the books. -/
theorem Good.sound_of_balanced (h : s.Good p) {l : LibraryAct} (hl : l.OfCreate)
    (hstep : s.step p l = .ok s') (hbalanced : s'.Balanced p) : s.Sound p l := by
  have hcard := h.balanced.card_eq
  have hcard' := hbalanced.card_eq
  cases l with
  | join stack => exact absurd hl id
  | other a => exact absurd hl id
  | create fcn arg stack =>
    intro hne
    obtain ⟨⟨⟨-, huser⟩, -⟩, k', hk', hok⟩ := step_create hstep
    rw [← Except.ok.inj hok] at hcard'
    have hpending := pending_of_user huser
    simp only [if_neg hne, Multiset.card_cons, hpending, Multiset.card_zero] at hcard hcard'
    rw [sysClone] at hk'
    rcases hwords : cloneStack (s.kernel.ptable p).sz fcn arg stack with - | st
    · rw [hwords] at hk'
      rw [← Except.ok.inj hk', hpending, Multiset.card_zero] at hcard'
      omega
    · rw [hwords] at hk'
      obtain ⟨-, hsame⟩ := h.kept (a := .clone p st) trivial (by simp) rfl hk'
      obtain ⟨-, rfl⟩ := Unmonitored.require_ok hk'
      have hcall : ((s.kernel.clone p st).call p).InClone := by
        by_contra hnone
        rw [pending_eq_zero hnone, hsame, Multiset.card_zero] at hcard'
        omega
      exact ⟨(cloneStack_eq_some_iff.1 hwords).1, unused_of_clone_call huser hcall⟩
  | fill kstack =>
    intro hne
    obtain ⟨k', hk', hok⟩ := bind_eq_ok_iff.1 hstep
    rw [← Except.ok.inj hok] at hcard'
    by_contra hnone
    obtain rfl : kstack = false := eq_false_of_ne_true hnone
    -- with no page for the kernel stack the block is on its way to nobody
    have hpending : k'.pending p = 0 := pending_fill h.numbered hk'
    obtain ⟨-, hsame⟩ := h.kept (a := .noKstack p) trivial (by simp) rfl hk'
    simp only [hpending, hsame, Multiset.card_zero] at hcard'
    have hpos := Multiset.card_pos.2 hne
    omega
  | created copied =>
    obtain ⟨k', hk', hok⟩ := bind_eq_ok_iff.1 hstep
    rw [← Except.ok.inj hok] at hcard'
    obtain ⟨np, hcall, -, hk''⟩ := Unmonitored.step_cloneReturn hk'
    obtain ⟨-, hstacks⟩ :=
      stacksOf_cloneReturn h.numbered.toOrderly h.live hcall (fun _ ↦ h.made np hcall) hk''
    have hpending' : k'.pending p = 0 := pending_of_user (hk'' ▸ Function.update_self ..)
    show copied = true ↔ _
    rw [hpending', hstacks] at hcard'
    rw [← Multiset.card_pos]
    simp only [true_and, Multiset.card_zero, Nat.zero_add] at hcard'
    cases copied
    · rw [if_neg Bool.false_ne_true] at hcard'
      exact iff_of_false Bool.false_ne_true (by omega)
    · rw [if_pos rfl, Multiset.card_cons] at hcard'
      exact iff_of_true rfl (by omega)

/-! ### thread_create as a run of the library -/

theorem setCall_setCall (k : Kernel) (p : Slot) (c c' : Call) :
    (k.setCall p c).setCall p c' = k.setCall p c' := by
  rw [setCall, setCall, setCall]
  exact congrArg (fun call ↦ { k with call := call }) (Function.update_idem ..)

theorem setCall_of_eq {c : Call} (hcall : k.call p = c) : k.setCall p c = k := by
  rw [setCall, ← hcall, Function.update_eq_self]

/-- The call that `p` is in makes no difference to the steps of `clone`. -/
theorem noKstack_setCall (c : Call) : (k.setCall p c).noKstack np = (k.noKstack np).setCall p c :=
  rfl

theorem cloneCopy_setCall (c : Call) (stack : ℕ) :
    (k.setCall p c).cloneCopy p np stack = (k.cloneCopy p np stack).setCall p c := rfl

theorem cloneReturn_setCall (c : Call) (copied : Bool) :
    ((k.setCall p c).cloneReturn np copied).1 = (k.cloneReturn np copied).1.setCall p c := by
  cases copied <;> rfl

/-- A call of `thread_create` that is clean is a run of the library. -/
theorem threadCreate_run {t : Paged} {fcn arg stack : UInt32} (blocks : Finset ℕ)
    (hs : ((library p).restrict (Sound p)).Reachable s) (hkernel : s.kernel = t.kernel)
    (huser : t.kernel.InUser p) (hfresh : s.Fresh stack)
    (hclean : stack ≠ 0 ↔ t.CloneGoes p fcn arg stack) :
    ((library p).restrict (Sound p)).Reachable {
      kernel := (t.threadCreate blocks p fcn arg stack).2.1.kernel
      obtained := if stack = 0 then s.obtained else stack.toNat ::ₘ s.obtained
      freed := s.freed } := by
  obtain ⟨k, obtained, freed⟩ := s
  obtain rfl : k = t.kernel := hkernel
  -- the first step of `clone`
  have hfirst : ∀ k', sysClone t.kernel p fcn arg stack = .ok k' →
      ((library p).restrict (Sound p)).Reachable {
        kernel := k'
        obtained := if stack = 0 then obtained else stack.toNat ::ₘ obtained
        freed := freed } := by
    intro k' hk'
    refine .step (.create fcn arg stack) hs ⟨fun hne ↦ ?_, ?_⟩
    · obtain ⟨hwords, hunused, -⟩ := hclean.1 hne
      exact ⟨hwords, hunused⟩
    · show step p _ _ = _
      rw [step, if_pos ⟨huser, hfresh⟩, hk']
      rfl
  rcases hwords : cloneStack (t.kernel.ptable p).sz fcn arg stack with - | st
  · have hsys : t.sysClone p fcn arg stack = none := by
      by_contra hsome
      obtain ⟨r, hr⟩ := Option.ne_none_iff_exists'.1 hsome
      have hlet := cloneStack_eq_some_iff.2 ⟨(Paged.sysClone_eq_some_iff.1 hr).1, rfl⟩
      cases hwords.symm.trans hlet
    rw [Paged.threadCreate, hsys]
    exact hfirst t.kernel (by rw [sysClone, hwords])
  obtain ⟨hlet, rfl⟩ := cloneStack_eq_some_iff.1 hwords
  have hsys : t.sysClone p fcn arg stack = some (t.clone p arg.toNat stack.toNat) :=
    Paged.sysClone_eq_some_iff.2 ⟨hlet, rfl⟩
  have hclone : sysClone t.kernel p fcn arg stack = .ok (t.kernel.clone p stack.toNat) := by
    rw [sysClone, hwords]
    exact if_pos huser
  have hstart := hfirst _ hclone
  rw [Paged.threadCreate, hsys]
  rcases t.allocproc_cases with ⟨hfound, hnone⟩ | ⟨np, hold, htable, hpage⟩
  · have htable : t.kernel.allocproc = (none, t.kernel) := by
      rcases Kernel.allocproc_cases t.kernel with heq | ⟨np, hold, -⟩
      · exact heq
      · exact absurd hold (hnone np)
    rw [Kernel.clone, htable] at hstart
    rw [Paged.clone, hfound]
    exact hstart
  -- the entry `np` is taken
  obtain ⟨k, hk⟩ : ∃ k, k = t.kernel.allocEntry np := ⟨_, rfl⟩
  have hback : k.call p = .user := hk ▸ huser.2
  have hcall : (k.setCall p (.clone np stack.toNat)).call p = .clone np stack.toNat :=
    setCall_call_self
  have hne : np ≠ p := by
    rintro rfl
    exact absurd (huser.1.symm.trans hold) (by decide)
  have hrun : (k.setCall p (.clone np stack.toNat)).Running p := by
    rw [hk]
    exact (congrArg Proc.state (allocEntry_ptable_of_ne (k := t.kernel) hne.symm)).trans huser.1
  rw [Kernel.clone, htable, ← hk] at hstart
  rcases hpage with ⟨hnil, hfound⟩ | ⟨v, next, hfree, hfound⟩
  · -- it goes back, and there is no block that could be lost
    have hzero : stack = 0 := not_not.1 fun hne ↦ (hclean.1 hne).2.2.1 hnil
    rw [Paged.clone, hfound]
    refine .step (.fill false) hstart ⟨fun hpending ↦ ?_, ?_⟩
    · rw [pending_of_clone hcall, block_ne_zero_iff] at hpending
      exact absurd (toNat_eq_zero_iff.2 hzero) hpending
    · have hback' : (k.noKstack np).call p = .user := hback
      have hstep : Unmonitored.step (k.setCall p (.clone np stack.toNat)) (.noKstack p) =
          .ok (k.noKstack np) := by
        rw [Unmonitored.noKstack_step hcall hrun, noKstack_setCall, setCall_setCall,
          setCall_of_eq hback']
      show Unmonitored.step (k.setCall p (.clone np stack.toNat)) (.noKstack p) >>= _ = _
      rw [hstep, hk]
      rfl
  · -- it is filled in, and `clone` returns
    have hmapped := t.copied_iff v next arg.toNat stack.toNat hne.symm
    have hgoes : t.CloneGoes p fcn arg stack ↔ t.StackMapped p stack.toNat :=
      ⟨fun h ↦ h.2.2.2, fun h ↦ ⟨hlet, ⟨np, hold⟩, by rw [hfree]; exact List.cons_ne_nil v next, h⟩⟩
    rw [t.clone_taken (p := p) arg.toNat stack.toNat hfound]
    generalize t.copied p np v next arg.toNat stack.toNat = c at hmapped ⊢
    have hfill : Unmonitored.step (k.setCall p (.clone np stack.toNat)) (.cloneCopy p) =
        .ok ((k.cloneCopy p np stack.toNat).setCall p (.cloneReturn np)) := by
      rw [Unmonitored.cloneCopy_step hcall hrun, cloneCopy_setCall, setCall_setCall]
    have hfilled : ((library p).restrict (Sound p)).Reachable {
        kernel := (k.cloneCopy p np stack.toNat).setCall p (.cloneReturn np)
        obtained := if stack = 0 then obtained else stack.toNat ::ₘ obtained
        freed := freed } := by
      refine .step (.fill true) hstart ⟨fun _ ↦ rfl, ?_⟩
      show Unmonitored.step (k.setCall p (.clone np stack.toNat)) (.cloneCopy p) >>= _ = _
      rw [hfill]
      rfl
    have hcall' : ((k.cloneCopy p np stack.toNat).setCall p (.cloneReturn np)).call p =
      .cloneReturn np := setCall_call_self
    have hrun' : ((k.cloneCopy p np stack.toNat).setCall p (.cloneReturn np)).Running p := by
      rw [Running, setCall_ptable, cloneCopy_ptable_parent hne]
      exact hrun
    have hreturn : Unmonitored.step ((k.cloneCopy p np stack.toNat).setCall p (.cloneReturn np))
        (.cloneReturn p c.1) = .ok ((k.cloneCopy p np stack.toNat).cloneReturn np c.1).1 := by
      have hback' : ((k.cloneCopy p np stack.toNat).cloneReturn np c.1).1.call p = .user := by
        rw [cloneReturn_call]
        exact hback
      rw [Unmonitored.cloneReturn_step hcall' hrun', cloneReturn_setCall, setCall_setCall,
        setCall_of_eq hback']
    refine .step (.created c.1) hfilled ⟨?_, ?_⟩
    · show c.1 = true ↔
        pending ((k.cloneCopy p np stack.toNat).setCall p (.cloneReturn np)) p ≠ 0
      rw [pending_of_cloneReturn hcall', setCall_ptable, cloneCopy_ptable_self hne,
        block_ne_zero_iff, hmapped, ← hgoes, ← hclean]
      exact not_congr toNat_eq_zero_iff.symm
    · show step p _ (.created c.1) = _
      rw [step, hreturn, hk]
      rfl

end Library

/-- **`thread_create` fails cleanly exactly when `malloc` and `clone` fail together.** As long as
they do, every stack is freed once or is that of a thread that is not joined, and the first call in
which they do not leaves a stack that is neither, or a thread with none. -/
theorem threadCreate_ok (p : Slot) (t : Paged) (blocks : Finset ℕ)
    (start_routine arg stack : UInt32) (s : Library) :
    (t.kernel.Running p → 0 < t.kernel.nextpid → (stack ≠ 0 → stack.toNat ∉ blocks) →
      (t.Clean blocks p (t.threadCreate blocks p start_routine arg stack) ↔
        (stack ≠ 0 ↔ t.CloneGoes p start_routine arg stack))) ∧
      (((library p).restrict (Library.Sound p)).Reachable s →
        s.Balanced p ∧
          ∀ l s', l.OfCreate → s.step p l = .ok s' → (s'.Balanced p ↔ s.Sound p l)) := by
  refine ⟨fun hrun hnext hfresh ↦ Paged.threadCreate_clean_iff hrun hnext hfresh, fun hs ↦ ?_⟩
  have hgood := Library.good_of_reachable hs
  refine ⟨hgood.balanced, fun l s' hl hstep ↦ ⟨hgood.sound_of_balanced hl hstep, fun ha ↦ ?_⟩⟩
  exact (hgood.step ha hstep).balanced

/-- The first process, executing a program with three pages. -/
def execInit : Library where
  kernel :=
    let k := ((userinit 1).dispatch initproc).setupkvm 2
    { k.modify initproc fun a ↦ { a with pgdir := 2, sz := 3 * PGSIZE } with
      pgdirs := k.pgdirs.erase 1 }
  obtained := 0
  freed := 0

/-- A thread that is created, exits and is joined. -/
def oneThread : List LibraryAct :=
  let thread : Slot := ⟨1, one_lt_NPROC⟩
  [.create 0 0 0x1008, .fill true, .created true, .other (.dispatch thread), .other (.exit thread),
    .join 0x2ff0]

/-- The first process creates a thread, which exits and is joined. -/
theorem oneThread_ok :
    (Paged.initPages [0x200000]).Clean ∅ initproc
      ((Paged.initPages [0x200000]).threadCreate ∅ initproc 0 0 0x1008) ∧
      ∃ s : Library, s.freed = {0x1008} ∧ s.Balanced initproc := by
  have hreach : Unmonitored.system.Reachable execInit.kernel :=
    .step (.exec initproc (.ready 2 (3 * PGSIZE)))
      (.step (.dispatch initproc) (.init ⟨1, by decide, rfl⟩) rfl) rfl
  have hinit : ((library initproc).restrict (Library.Sound initproc)).Reachable execInit :=
    .init ⟨hreach, by decide +kernel, by decide +kernel, rfl, rfl⟩
  obtain ⟨s, hs, hfreed⟩ := hinit.exists_of_run
    (f := System.checked (Library.Sound initproc) (Library.step initproc) .blocked)
    (p := fun s : Library ↦ decide (s.freed = {0x1008})) (l := oneThread)
    (System.next_of_checked fun _ _ _ h ↦ h) (by decide +kernel)
  obtain ⟨hclean, hbalanced⟩ :=
    threadCreate_ok initproc (Paged.initPages [0x200000]) ∅ 0 0 0x1008 s
  refine ⟨?_, s, of_decide_eq_true hfreed, (hbalanced hs).1⟩
  exact (hclean (by decide +kernel) (by decide +kernel) fun _ ↦ Finset.notMem_empty _).2
    (by decide +kernel)

/-- With no page for a kernel stack, the block that `malloc` has found is lost; and when `malloc`
has found none, the thread runs on a stack at address 0. -/
theorem threadCreate_not_clean :
    ¬ (Paged.initPages []).Clean ∅ initproc
        ((Paged.initPages []).threadCreate ∅ initproc 0 0 0x1008) ∧
      ¬ (Paged.initPages [0x200000]).Clean ∅ initproc
        ((Paged.initPages [0x200000]).threadCreate ∅ initproc 0 0 0) := by
  have hiff := fun freelist (stack : UInt32) hrun hnext ↦
    @Paged.threadCreate_clean_iff (Paged.initPages freelist) initproc 0 0 stack ∅ hrun hnext
      fun _ ↦ Finset.notMem_empty _
  constructor
  · rw [hiff [] 0x1008 (by decide +kernel) (by decide +kernel)]
    decide +kernel
  · rw [hiff [0x200000] 0 (by decide +kernel) (by decide +kernel)]
    decide +kernel

end Threads
