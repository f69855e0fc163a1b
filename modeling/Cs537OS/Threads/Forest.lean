import Cs537OS.Foundation.OwnerForest
import Cs537OS.Threads.Proc

/-!
# The process table as a forest

Processes and threads form a forest under the first process, and page directories are the resources
that they share: a thread has its parent's, and a zombie stays in the forest until it is reaped.
`Kernel.forest` reads the process table as such a forest; entries that are UNUSED, or that `fork`
or `clone` has taken and not filled in, are not part of it.

`Inv` is the invariant of the table: the forest's own, and what holds of the entries beside it
(`Orderly`). The moves of the scheduler, `sleep`, `wakeup`, `kill` and `growproc` leave every entry
in its place (`Placed`) and keep the invariant.
-/

open OwnerForest (Node State)
open Xv6

namespace Threads

namespace Proc

/-- The entry is that of a process that sleeps, waits for a processor or runs. -/
def Awake (a : Proc) : Prop := a.state = .sleeping ∨ a.state = .runnable ∨ a.state = .running

instance (a : Proc) : Decidable a.Awake := inferInstanceAs (Decidable (_ ∨ _ ∨ _))

/-- An entry that `fork` or `clone` has taken and not filled in. -/
def HalfMade (a : Proc) : Prop := a.state = .embryo ∧ a.parent = none

/-- An entry of a process or thread. -/
def Present (a : Proc) : Prop := a.state ≠ .unused ∧ ¬ a.HalfMade

instance (a : Proc) : Decidable a.HalfMade := inferInstanceAs (Decidable (_ ∧ _))

instance (a : Proc) : Decidable a.Present := inferInstanceAs (Decidable (_ ∧ _))

def node (a : Proc) : Node Slot ℕ := ⟨a.state = .zombie, a.parent, a.pgdir⟩

/-- What the forest shows of an entry. -/
def view (a : Proc) : Option (Node Slot ℕ) := if a.Present then some a.node else none

/-- What the forest shows of an entry's count. -/
def counted (a : Proc) : ℤ := if a.Present then a.countThread else 0

theorem view_of_present {a : Proc} (ha : a.Present) : a.view = some a.node := if_pos ha

theorem view_of_not_present {a : Proc} (ha : ¬ a.Present) : a.view = none := if_neg ha

theorem counted_of_present {a : Proc} (ha : a.Present) : a.counted = a.countThread := if_pos ha

theorem counted_of_not_present {a : Proc} (ha : ¬ a.Present) : a.counted = 0 := if_neg ha

/-- The forest shows the entries that are present, as their nodes. -/
theorem view_eq_some_iff {a : Proc} {c : Node Slot ℕ} :
    a.view = some c ↔ a.Present ∧ a.node = c := by
  by_cases ha : a.Present
  · rw [view_of_present ha, Option.some.injEq, and_iff_right ha]
  · rw [view_of_not_present ha]
    exact iff_of_false (by simp) fun h ↦ ha h.1

/-- A free entry is not present, -/
theorem not_present_of_unused {a : Proc} (ha : a.state = .unused) : ¬ a.Present :=
  fun h ↦ h.1 ha

/-- and neither is one that has only been taken, -/
theorem HalfMade.not_present {a : Proc} (ha : a.HalfMade) : ¬ a.Present := fun h ↦ h.2 ha

/-- which is no process yet. -/
theorem HalfMade.not_awake {a : Proc} (ha : a.HalfMade) : ¬ a.Awake := by
  rintro (h | h | h) <;> exact absurd (ha.1.symm.trans h) (by decide)

/-- The states of a process that has been made and has not exited. -/
theorem awake_iff {a : Proc} :
    a.Awake ↔ a.state ≠ .unused ∧ a.state ≠ .embryo ∧ a.state ≠ .zombie := by
  rw [Awake]
  cases a.state <;> simp

/-- An entry with another state than UNUSED and EMBRYO is that of a process. -/
theorem present_of_ne {a : Proc} (hunused : a.state ≠ .unused) (hembryo : a.state ≠ .embryo) :
    a.Present :=
  ⟨hunused, fun h ↦ hembryo h.1⟩

/-- An entry with a parent is that of a process. -/
theorem present_of_parent {a : Proc} {p : Slot} (hunused : a.state ≠ .unused)
    (hparent : a.parent = some p) : a.Present :=
  ⟨hunused, fun h ↦ by simp [h.2] at hparent⟩

/-- A new child in the forest. -/
theorem view_of_child {a : Proc} {p : Slot} (hstate : a.state = .embryo ∨ a.state = .runnable)
    (hparent : a.parent = some p) : a.view = some ⟨False, some p, a.pgdir⟩ := by
  have hunused : a.state ≠ .unused := by rcases hstate with h | h <;> simp [h]
  have hzombie : ¬ a.state = .zombie := by rcases hstate with h | h <;> simp [h]
  rw [view_of_present (present_of_parent hunused hparent), node, hparent, eq_false hzombie]

theorem counted_eq_zero {a : Proc} (ha : a.countThread = 0) : a.counted = 0 := by
  rw [counted, ha, ite_self]

end Proc

/-- The call has no entry to make. -/
def Call.Simple : Call → Prop
  | .fork _ | .forkReturn _ | .clone _ _ | .cloneReturn _ => False
  | .user | .wait | .join _ | .growproc _ | .growLoop _ _ => True

/-- The process table as a forest. -/
def Kernel.forest (k : Kernel) : State Slot ℕ where
  node i := (k.ptable i).view
  count i := (k.ptable i).counted
  held := k.pgdirs

namespace Kernel

variable {k k' : Kernel} {p q np : Slot} {d : ℕ}

/-- The nodes of the forest are those of the entries that are present. -/
theorem forest_node_eq_some_iff {i : Slot} {c : Node Slot ℕ} :
    k.forest.node i = some c ↔ (k.ptable i).Present ∧ (k.ptable i).node = c :=
  Proc.view_eq_some_iff

theorem forest_node_of_present {i : Slot} (hi : (k.ptable i).Present) :
    k.forest.node i = some (k.ptable i).node :=
  Proc.view_of_present hi

theorem forest_count_of_present {i : Slot} (hi : (k.ptable i).Present) :
    k.forest.count i = (k.ptable i).countThread :=
  Proc.counted_of_present hi

/-- Two tables that show the same entries and directories are the same forest. -/
theorem forest_congr (hview : ∀ i, (k'.ptable i).view = (k.ptable i).view)
    (hcounted : ∀ i, (k'.ptable i).counted = (k.ptable i).counted)
    (hpgdirs : k'.pgdirs = k.pgdirs) :
    k'.forest = k.forest := by
  refine OwnerForest.State.ext (funext hview) (funext hcounted) ?_
  show (k'.pgdirs : Set ℕ) = k.pgdirs
  rw [hpgdirs]

@[simp]
theorem modify_ptable_self {f : Proc → Proc} : (k.modify p f).ptable p = f (k.ptable p) :=
  Function.update_self _ _ _

@[simp]
theorem modify_ptable_of_ne {f : Proc → Proc} (hq : q ≠ p) :
    (k.modify p f).ptable q = k.ptable q :=
  Function.update_of_ne hq _ _

@[simp]
theorem modify_pgdirs {f : Proc → Proc} : (k.modify p f).pgdirs = k.pgdirs := rfl

@[simp]
theorem modify_call {f : Proc → Proc} : (k.modify p f).call = k.call := rfl

@[simp]
theorem setCall_ptable {c : Call} : (k.setCall p c).ptable = k.ptable := rfl

@[simp]
theorem setCall_forest {c : Call} : (k.setCall p c).forest = k.forest := rfl

theorem modify_forest_node {f : Proc → Proc} :
    (k.modify p f).forest.node = Function.update k.forest.node p (f (k.ptable p)).view := by
  funext i
  show ((k.modify p f).ptable i).view = _
  by_cases hi : i = p
  · rw [hi, modify_ptable_self, Function.update_self]
  · rw [modify_ptable_of_ne hi, Function.update_of_ne hi]
    rfl

theorem modify_forest_count {f : Proc → Proc} :
    (k.modify p f).forest.count = Function.update k.forest.count p (f (k.ptable p)).counted := by
  funext i
  show ((k.modify p f).ptable i).counted = _
  by_cases hi : i = p
  · rw [hi, modify_ptable_self, Function.update_self]
  · rw [modify_ptable_of_ne hi, Function.update_of_ne hi]
    rfl

/-- A change of an entry that is not part of the forest. -/
theorem forest_modify_of_not_present {f : Proc → Proc} (hold : ¬ (k.ptable p).Present)
    (hnew : ¬ (f (k.ptable p)).Present) : (k.modify p f).forest = k.forest := by
  refine forest_congr (fun i ↦ ?_) (fun i ↦ ?_) rfl
  · by_cases hi : i = p
    · rw [hi, modify_ptable_self, Proc.view_of_not_present hold, Proc.view_of_not_present hnew]
    · rw [modify_ptable_of_ne hi]
  · by_cases hi : i = p
    · rw [hi, modify_ptable_self, Proc.counted_of_not_present hold,
        Proc.counted_of_not_present hnew]
    · rw [modify_ptable_of_ne hi]

theorem Running.awake (hp : k.Running p) : (k.ptable p).Awake := .inr (.inr hp)

/-- A process that runs is in the forest. -/
theorem Running.present (hp : k.Running p) : (k.ptable p).Present :=
  Proc.present_of_ne (by rw [hp]; decide) (by rw [hp]; decide)

theorem Running.not_done (hp : k.Running p) : ¬ (k.ptable p).node.done := by
  show ¬ (k.ptable p).state = .zombie
  rw [hp]
  decide

/-- An entry records directory `d` from its last user. -/
def Leftover (k : Kernel) (d : ℕ) : Prop := ∃ i, (k.ptable i).HalfMade ∧ (k.ptable i).pgdir = d

instance (k : Kernel) (d : ℕ) : Decidable (k.Leftover d) := inferInstanceAs (Decidable (∃ _, _))

/-- Process `p` has taken entry `np` and not filled it in. -/
def Fills (k : Kernel) (p np : Slot) : Prop :=
  k.call p = .fork np ∨ ∃ stack, k.call p = .clone np stack

/-- Process `p` has filled in entry `np` and is still in the call. -/
def Made (k : Kernel) (p np : Slot) : Prop :=
  k.call p = .forkReturn np ∨ k.call p = .cloneReturn np

/-- What holds of the table beside the forest. -/
structure Orderly (k : Kernel) : Prop where
  zero : 0 ∉ k.pgdirs
  unused_parent : ∀ i, (k.ptable i).state = .unused → (k.ptable i).parent = none
  halfMade_count : ∀ i, (k.ptable i).HalfMade → (k.ptable i).countThread = 0
  fills_halfMade : ∀ p np, k.Fills p np → (k.ptable np).HalfMade
  fills_inj : ∀ p q np, k.Fills p np → k.Fills q np → p = q
  made_parent : ∀ p np, k.Made p np → (k.ptable np).parent = some p
  made_embryo : ∀ p np, k.call p = .cloneReturn np → (k.ptable np).state = .embryo
  /-- Who is in the middle of a call has not exited. -/
  busy : ∀ p, k.call p ≠ .user → (k.ptable p).Awake

/-- The invariant of the table. -/
structure Inv (k : Kernel) : Prop extends Orderly k where
  forest : OwnerForest.Inv initproc k.forest

/-! ### Moves that do not show -/

/-- The entry keeps its place in the forest, up to its parent. -/
structure Kept (a a' : Proc) : Prop where
  pgdir : a'.pgdir = a.pgdir
  countThread : a'.countThread = a.countThread
  unused : a'.state = .unused ↔ a.state = .unused
  embryo : a'.state = .embryo ↔ a.state = .embryo
  zombie : a'.state = .zombie ↔ a.state = .zombie

theorem Kept.refl (a : Proc) : Kept a a := ⟨rfl, rfl, .rfl, .rfl, .rfl⟩

theorem Kept.trans {a b c : Proc} (hab : Kept a b) (hbc : Kept b c) : Kept a c :=
  ⟨hbc.pgdir.trans hab.pgdir, hbc.countThread.trans hab.countThread, hbc.unused.trans hab.unused,
    hbc.embryo.trans hab.embryo, hbc.zombie.trans hab.zombie⟩

theorem Kept.awake {a a' : Proc} (h : Kept a a') : a'.Awake ↔ a.Awake := by
  rw [Proc.awake_iff, Proc.awake_iff, ne_eq, ne_eq, ne_eq, h.unused, h.embryo, h.zombie]

/-- Whether the entry is waiting to be filled in has not changed. -/
structure Settled (a a' : Proc) : Prop where
  halfMade : a'.HalfMade ↔ a.HalfMade
  countThread : a'.HalfMade → a'.countThread = a.countThread
  unused : a'.state = .unused → a'.parent = none ∨ a.state = .unused ∧ a'.parent = a.parent

/-- The entry shows in the forest as before. -/
structure Quiet (a a' : Proc) : Prop extends Settled a a' where
  view : a'.view = a.view
  counted : a'.counted = a.counted

/-- The entry keeps its place in the forest. -/
structure Placed (a a' : Proc) : Prop extends Kept a a' where
  parent : a'.parent = a.parent

/-- Only entries that have been taken are to be settled. -/
theorem Settled.of_not_halfMade {a a' : Proc} (ha : ¬ a.HalfMade) (ha' : ¬ a'.HalfMade)
    (hunused : a'.state = .unused → a'.parent = none) : Settled a a' :=
  ⟨iff_of_false ha' ha, fun h ↦ absurd h ha', fun h ↦ .inl (hunused h)⟩

/-- What keeps its place shows as before. -/
theorem Placed.quiet {a a' : Proc} (h : Placed a a') : Quiet a a' := by
  have hhalf : a'.HalfMade ↔ a.HalfMade := by
    rw [Proc.HalfMade, Proc.HalfMade, h.embryo, h.parent]
  have hpresent : a'.Present ↔ a.Present := by
    rw [Proc.Present, Proc.Present, hhalf, ne_eq, ne_eq, h.unused]
  have hnode : a'.node = a.node := by
    rw [Proc.node, Proc.node, h.parent, h.pgdir, propext h.zombie]
  refine ⟨⟨hhalf, fun _ ↦ h.countThread, fun ha ↦ .inr ⟨h.unused.1 ha, h.parent⟩⟩, ?_, ?_⟩
  · rw [Proc.view, Proc.view, hnode]
    exact if_congr hpresent rfl rfl
  · rw [Proc.counted, Proc.counted, h.countThread]
    exact if_congr hpresent rfl rfl

theorem Placed.refl (a : Proc) : Placed a a := ⟨.refl a, rfl⟩

theorem Quiet.refl (a : Proc) : Quiet a a := (Placed.refl a).quiet

theorem Settled.refl (a : Proc) : Settled a a := (Quiet.refl a).toSettled

/-- An unused entry still has no parent. -/
theorem Orderly.parent_of_settled (h : Orderly k) {i : Slot} {a' : Proc}
    (hi : Settled (k.ptable i) a') (hunused : a'.state = .unused) : a'.parent = none := by
  rcases hi.unused hunused with hparent | ⟨hunused', hparent⟩
  · exact hparent
  · exact hparent.trans (h.unused_parent i hunused')

/-- A change of the table that leaves alone the entries that somebody is in the middle of making. -/
theorem Orderly.of_settled (h : Orderly k) (hsettled : ∀ i, Settled (k.ptable i) (k'.ptable i))
    (hmade : ∀ p np, k.Made p np → (k'.ptable np).parent = (k.ptable np).parent ∧
      ((k.ptable np).state = .embryo → (k'.ptable np).state = .embryo))
    (hbusy : ∀ p, k.call p ≠ .user → (k.ptable p).Awake → (k'.ptable p).Awake)
    (hzero : 0 ∉ k'.pgdirs) (hcall : k'.call = k.call) : Orderly k' := by
  refine ⟨hzero, fun i ↦ h.parent_of_settled (hsettled i), fun i hi ↦ ?_, fun p np hf ↦ ?_,
    fun p q np hp hq ↦ ?_, fun p np hm ↦ ?_, fun p np hc ↦ ?_, fun p hp ↦ ?_⟩
  · rw [(hsettled i).countThread hi]
    exact h.halfMade_count i ((hsettled i).halfMade.1 hi)
  · rw [Fills, hcall] at hf
    exact (hsettled np).halfMade.2 (h.fills_halfMade p np hf)
  · rw [Fills, hcall] at hp hq
    exact h.fills_inj p q np hp hq
  · rw [Made, hcall] at hm
    exact (hmade p np hm).1.trans (h.made_parent p np hm)
  · rw [hcall] at hc
    exact (hmade p np (.inr hc)).2 (h.made_embryo p np hc)
  · rw [hcall] at hp
    exact hbusy p hp (h.busy p hp)

/-- Every entry keeps its place. -/
theorem Orderly.of_placed (h : Orderly k) (hplaced : ∀ i, Placed (k.ptable i) (k'.ptable i))
    (hpgdirs : k'.pgdirs = k.pgdirs) (hcall : k'.call = k.call) : Orderly k' :=
  h.of_settled (fun i ↦ (hplaced i).quiet.toSettled)
    (fun _ np _ ↦ ⟨(hplaced np).parent, (hplaced np).embryo.2⟩)
    (fun p _ ↦ (hplaced p).awake.2) (hpgdirs ▸ h.zero) hcall

/-- Where every entry shows as before the forest is the same, -/
theorem forest_of_quiet (hquiet : ∀ i, Quiet (k.ptable i) (k'.ptable i))
    (hpgdirs : k'.pgdirs = k.pgdirs) : k'.forest = k.forest :=
  forest_congr (fun i ↦ (hquiet i).view) (fun i ↦ (hquiet i).counted) hpgdirs

/-- also where every entry keeps its place. -/
theorem forest_of_placed (hplaced : ∀ i, Placed (k.ptable i) (k'.ptable i))
    (hpgdirs : k'.pgdirs = k.pgdirs) : k'.forest = k.forest :=
  forest_of_quiet (fun i ↦ (hplaced i).quiet) hpgdirs

/-- What moves no entry keeps the invariant. -/
theorem Inv.of_placed (h : Inv k) (hplaced : ∀ i, Placed (k.ptable i) (k'.ptable i))
    (hpgdirs : k'.pgdirs = k.pgdirs) (hcall : k'.call = k.call) : Inv k' :=
  ⟨h.toOrderly.of_placed hplaced hpgdirs hcall, by
    rw [forest_of_placed hplaced hpgdirs]
    exact h.forest⟩

/-- A change of one entry that keeps its place. -/
theorem placed_modify {f : Proc → Proc} (hf : Placed (k.ptable p) (f (k.ptable p))) (i : Slot) :
    Placed (k.ptable i) ((k.modify p f).ptable i) := by
  by_cases hi : i = p
  · rw [hi, modify_ptable_self]
    exact hf
  · rw [modify_ptable_of_ne hi]
    exact .refl _

/-- A process that changes between sleeping, runnable and running keeps its place. -/
theorem kept_of_awake {a a' : Proc} (hpgdir : a'.pgdir = a.pgdir)
    (hcount : a'.countThread = a.countThread) (ha : a.Awake) (ha' : a'.Awake) : Kept a a' := by
  rw [Proc.awake_iff] at ha ha'
  exact ⟨hpgdir, hcount, iff_of_false ha'.1 ha.1, iff_of_false ha'.2.1 ha.2.1,
    iff_of_false ha'.2.2 ha.2.2⟩

/-- A process that stays awake keeps its place when its links and its count stay. -/
theorem placed_modify_of_awake {f : Proc → Proc} (hpgdir : ∀ a, (f a).pgdir = a.pgdir)
    (hcount : ∀ a, (f a).countThread = a.countThread) (hparent : ∀ a, (f a).parent = a.parent)
    (hp : (k.ptable p).Awake) (hf : ∀ a, (f a).Awake) (i : Slot) :
    Placed (k.ptable i) ((k.modify p f).ptable i) :=
  placed_modify ⟨kept_of_awake (hpgdir _) (hcount _) hp (hf _), hparent _⟩ i

theorem Running.placed_sleep {chan : Chan} (hp : k.Running p) (i : Slot) :
    Placed (k.ptable i) ((k.sleep p chan).ptable i) :=
  placed_modify_of_awake (f := fun a ↦ { a with chan := chan, state := .sleeping })
    (fun _ ↦ rfl) (fun _ ↦ rfl) (fun _ ↦ rfl) hp.awake (fun _ ↦ .inl rfl) i

theorem Running.placed_yield (hp : k.Running p) (i : Slot) :
    Placed (k.ptable i) ((k.setState p .runnable).ptable i) :=
  placed_modify_of_awake (f := fun a ↦ { a with state := .runnable })
    (fun _ ↦ rfl) (fun _ ↦ rfl) (fun _ ↦ rfl) hp.awake (fun _ ↦ .inr (.inl rfl)) i

theorem placed_dispatch (hp : (k.ptable p).state = .runnable) (i : Slot) :
    Placed (k.ptable i) ((k.dispatch p).ptable i) :=
  placed_modify_of_awake (f := fun a ↦ { a with state := .running, chan := .null })
    (fun _ ↦ rfl) (fun _ ↦ rfl) (fun _ ↦ rfl) (.inr (.inl hp)) (fun _ ↦ .inr (.inr rfl)) i

theorem placed_wakeup1 {chan : Chan} (i : Slot) :
    Placed (k.ptable i) ((k.wakeup1 chan).ptable i) := by
  show Placed _ (ite _ _ _)
  split_ifs with hi
  · exact ⟨kept_of_awake rfl rfl (.inl hi.1) (.inr (.inl rfl)), rfl⟩
  · exact .refl _

theorem placed_kill {pid : ℤ} (i : Slot) : Placed (k.ptable i) ((k.kill pid).ptable i) := by
  rw [kill]
  split
  · exact .refl _
  · rename_i p _
    refine placed_modify ⟨?_, rfl⟩ i
    by_cases hs : (k.ptable p).state = .sleeping
    · exact kept_of_awake rfl rfl (.inl hs) (.inr (.inl (if_pos hs)))
    · refine ⟨rfl, rfl, ?_, ?_, ?_⟩ <;> simp [hs]

/-- A size does not show. -/
theorem placed_growSelf (sz : ℕ) (i : Slot) :
    Placed (k.ptable i) ((k.growSelf p sz).ptable i) :=
  placed_modify (f := fun a ↦ { a with sz := sz }) ⟨⟨rfl, rfl, .rfl, .rfl, .rfl⟩, rfl⟩ i

theorem placed_growChild (sz : ℕ) (i : Slot) :
    Placed (k.ptable i) ((k.growChild p sz q).ptable i) := by
  rw [growChild]
  split_ifs
  · exact placed_growSelf sz i
  · exact .refl _

theorem kill_pgdirs {pid : ℤ} : (k.kill pid).pgdirs = k.pgdirs := by
  rw [kill]
  split <;> rfl

theorem kill_call {pid : ℤ} : (k.kill pid).call = k.call := by
  rw [kill]
  split <;> rfl

theorem growChild_pgdirs {sz : ℕ} : (k.growChild p sz q).pgdirs = k.pgdirs := by
  rw [growChild]
  split_ifs <;> rfl

theorem growChild_call {sz : ℕ} : (k.growChild p sz q).call = k.call := by
  rw [growChild]
  split_ifs <;> rfl

/-- Killing keeps the invariant. -/
theorem Inv.kill (h : Inv k) (pid : ℤ) : Inv (k.kill pid) :=
  h.of_placed placed_kill kill_pgdirs kill_call

/-! ### The call of a process -/

theorem setCall_call_self {c : Call} : (k.setCall p c).call p = c := Function.update_self ..

theorem setCall_call_of_ne {c : Call} (hq : q ≠ p) : (k.setCall p c).call q = k.call q :=
  Function.update_of_ne hq ..

theorem fills_setCall_of_ne {c : Call} (hq : q ≠ p) :
    (k.setCall p c).Fills q np ↔ k.Fills q np := by
  rw [Fills, Fills, setCall_call_of_ne hq]

theorem fills_setCall_self {c : Call} :
    (k.setCall p c).Fills p np ↔ c = .fork np ∨ ∃ stack, c = .clone np stack := by
  rw [Fills, setCall_call_self]

theorem made_setCall_of_ne {c : Call} (hq : q ≠ p) :
    (k.setCall p c).Made q np ↔ k.Made q np := by
  rw [Made, Made, setCall_call_of_ne hq]

theorem made_setCall_self {c : Call} :
    (k.setCall p c).Made p np ↔ c = .forkReturn np ∨ c = .cloneReturn np := by
  rw [Made, setCall_call_self]

/-- A process that has not exited is in another call. -/
theorem busy_setCall (hbusy : ∀ q, k.call q ≠ .user → (k.ptable q).Awake)
    (hp : (k.ptable p).Awake) {c : Call} (q : Slot) (hq : (k.setCall p c).call q ≠ .user) :
    ((k.setCall p c).ptable q).Awake := by
  rcases eq_or_ne q p with rfl | hqp
  · exact hp
  · rw [setCall_call_of_ne hqp] at hq
    exact hbusy q hq

/-- A process goes to a call that has no entry to make. -/
theorem Orderly.setCall (h : Orderly k) (hp : (k.ptable p).Awake) {c : Call} (hc : c.Simple) :
    Orderly (k.setCall p c) := by
  have hfills : ∀ r x, (k.setCall p c).Fills r x → k.Fills r x := by
    intro r x hr
    rcases eq_or_ne r p with rfl | hrp
    · rcases fills_setCall_self.1 hr with rfl | ⟨stack, rfl⟩ <;> exact hc.elim
    · exact (fills_setCall_of_ne hrp).1 hr
  have hmade : ∀ r x, (k.setCall p c).Made r x → k.Made r x := by
    intro r x hr
    rcases eq_or_ne r p with rfl | hrp
    · rcases made_setCall_self.1 hr with rfl | rfl <;> exact hc.elim
    · exact (made_setCall_of_ne hrp).1 hr
  refine ⟨h.zero, h.unused_parent, h.halfMade_count,
    fun r x hr ↦ h.fills_halfMade r x (hfills r x hr),
    fun r r' x hr hr' ↦ h.fills_inj r r' x (hfills r x hr) (hfills r' x hr'),
    fun r x hr ↦ h.made_parent r x (hmade r x hr), fun r x hr ↦ ?_, busy_setCall h.busy hp⟩
  rcases eq_or_ne r p with rfl | hrp
  · rw [setCall_call_self] at hr
    subst hr
    exact hc.elim
  · rw [setCall_call_of_ne hrp] at hr
    exact h.made_embryo r x hr

/-- A process that is awake can go to a call that has no entry to make. -/
theorem Inv.setCall (h : Inv k) (hp : (k.ptable p).Awake) {c : Call} (hc : c.Simple) :
    Inv (k.setCall p c) :=
  ⟨h.toOrderly.setCall hp hc, h.forest⟩

/-! ### growproc -/

/-- The next step of `growproc`: it stores a size, or goes back to user mode. -/
theorem growNext_cases (h : k.growNext p = .ok k') :
    (∃ sz, k.call p = .growproc sz ∧
        k' = (k.growSelf p sz).setCall p (.growLoop sz (List.finRange NPROC))) ∨
      (∃ sz q rest, k.call p = .growLoop sz (q :: rest) ∧
        k' = (k.growChild p sz q).setCall p (.growLoop sz rest)) ∨
      ∃ sz, k.call p = .growLoop sz [] ∧ k' = k.setCall p .user := by
  rw [growNext] at h
  split at h
  · rename_i sz hcall
    exact .inl ⟨sz, hcall, (Except.ok.inj h).symm⟩
  · rename_i sz q rest hcall
    exact .inr (.inl ⟨sz, q, rest, hcall, (Except.ok.inj h).symm⟩)
  · rename_i sz hcall
    exact .inr (.inr ⟨sz, hcall, (Except.ok.inj h).symm⟩)
  · cases h

/-- `growproc` goes on or waits. -/
theorem growNext_eq_error {e : Fault} (h : k.growNext p = .error e) : e = .blocked := by
  rw [growNext] at h
  split at h <;> cases h
  rfl

/-- It moves no entry. -/
theorem growNext_spec (h : k.growNext p = .ok k') : ∃ (k₁ : Kernel) (c : Call),
    k' = k₁.setCall p c ∧ c.Simple ∧ (∀ i, Placed (k.ptable i) (k₁.ptable i)) ∧
      k₁.pgdirs = k.pgdirs ∧ k₁.call = k.call := by
  rcases growNext_cases h with ⟨sz, -, rfl⟩ | ⟨sz, q, rest, -, rfl⟩ | ⟨sz, -, rfl⟩
  · exact ⟨_, _, rfl, trivial, placed_growSelf sz, rfl, rfl⟩
  · exact ⟨_, _, rfl, trivial, placed_growChild sz, growChild_pgdirs, growChild_call⟩
  · exact ⟨k, _, rfl, trivial, fun i ↦ .refl _, rfl, rfl⟩

/-- A turn of the loop of `growproc` keeps the table orderly, -/
theorem Orderly.growNext (h : Orderly k) (hp : k.Running p) (hok : k.growNext p = .ok k') :
    Orderly k' := by
  obtain ⟨k₁, c, rfl, hc, hplaced, hpgdirs, hcall⟩ := growNext_spec hok
  exact (h.of_placed hplaced hpgdirs hcall).setCall ((hplaced p).awake.2 hp.awake) hc

/-- and the invariant. -/
theorem Inv.growNext (h : Inv k) (hp : k.Running p) (hok : k.growNext p = .ok k') : Inv k' := by
  obtain ⟨k₁, c, rfl, hc, hplaced, hpgdirs, hcall⟩ := growNext_spec hok
  exact (h.of_placed hplaced hpgdirs hcall).setCall ((hplaced p).awake.2 hp.awake) hc

end Kernel

end Threads
