import Cs537OS.Foundation.GuardedLoop
import Cs537OS.Threads.Unmonitored

/-!
# New processes, threads and address spaces

`fork`, `clone` and `exec` as operations of the forest: the first steps of `fork` and `clone` take
an entry, which does not show; the second add a child, and `exec` gives a node another resource. The
last step of `clone` does not show either. The last step of `fork` sets a count, and keeps the
invariant of the table when the child has none to lose (`Inv.forkReturn`). So does the `exec` of a
process that is the last that counts on its page directory (`Alone`) and gets none that a zombie
below it still shows (`StaleBelow`).

The monitor does not object to them, provided that the page directory that is freed is not left over
in an entry that is being filled in (`Leftover`).
-/

open GuardedLoop (bind_eq_ok_iff)
open OwnerForest (Node State)
open Xv6

namespace Threads

namespace Kernel

variable {k k' : Kernel} {p q np : Slot} {d : ℕ}

/-! ### Taking an entry -/

/-- What `allocproc` does: nothing when the table is full, and otherwise an UNUSED entry is
taken. -/
theorem allocproc_cases (k : Kernel) :
    k.allocproc = (none, k) ∨ ∃ np, (k.ptable np).state = .unused ∧
      k.allocproc = (some np, k.allocEntry np) := by
  rw [allocproc]
  split
  · exact .inl rfl
  · rename_i np hnp
    exact .inr ⟨np, by simpa using List.find?_some hnp, rfl⟩

/-- The entry that has been found is taken and not filled in, -/
theorem allocEntry_halfMade (h : Orderly k) (hnp : (k.ptable np).state = .unused) :
    ((k.allocEntry np).ptable np).HalfMade := by
  rw [allocEntry, modify_ptable_self]
  exact ⟨rfl, h.unused_parent np hnp⟩

/-- and the others stay. -/
theorem allocEntry_ptable_of_ne {i : Slot} (hi : i ≠ np) :
    (k.allocEntry np).ptable i = k.ptable i :=
  modify_ptable_of_ne hi

/-- Taking an entry does not show in the forest. -/
theorem forest_allocEntry (h : Orderly k) (hnp : (k.ptable np).state = .unused) :
    (k.allocEntry np).forest = k.forest := by
  have hnew := (allocEntry_halfMade h hnp).not_present
  rw [allocEntry, modify_ptable_self] at hnew
  exact forest_modify_of_not_present (Proc.not_present_of_unused hnp) hnew

/-- The entry that a call fills in is the one it has taken. -/
theorem eq_of_fills {c : Call} (hc : c = .fork np ∨ ∃ stack, c = .clone np stack)
    (hq : c = .fork q ∨ ∃ stack, c = .clone q stack) : q = np := by
  rcases hc with rfl | ⟨stack, rfl⟩ <;> rcases hq with hq | ⟨stack', hq⟩ <;> cases hq <;> rfl

/-- A process that starts a call takes an entry for it. -/
theorem Orderly.setCall_allocEntry (h : Orderly k) (hp : k.Running p)
    (hnp : (k.ptable np).state = .unused) {c : Call}
    (hc : c = .fork np ∨ ∃ stack, c = .clone np stack) :
    Orderly ((k.allocEntry np).setCall p c) := by
  have hhalf := allocEntry_halfMade h hnp
  -- nobody else fills in an entry that was UNUSED, or has filled it in
  have hother : ∀ r x, k.Fills r x → x ≠ np := by
    rintro r x hr rfl
    exact absurd ((h.fills_halfMade r x hr).1.symm.trans hnp) (by decide)
  have hmade : ∀ r x, k.Made r x → x ≠ np := by
    rintro r x hr rfl
    have hparent := h.unused_parent x hnp
    rw [h.made_parent r x hr] at hparent
    cases hparent
  have hsame : ∀ i, (k.ptable i).Awake → (k.allocEntry np).ptable i = k.ptable i := by
    rintro i hi
    refine allocEntry_ptable_of_ne ?_
    rintro rfl
    exact (Proc.awake_iff.1 hi).1 hnp
  refine ⟨h.zero, fun i hi ↦ ?_, fun i hi ↦ ?_, fun r x hr ↦ ?_, fun r r' x hr hr' ↦ ?_,
    fun r x hr ↦ ?_, fun r x hr ↦ ?_, busy_setCall (fun q hq ↦ ?_) ?_⟩
  · by_cases hinp : i = np
    · exact hinp ▸ hhalf.2
    · rw [setCall_ptable, allocEntry_ptable_of_ne hinp] at hi ⊢
      exact h.unused_parent i hi
  · by_cases hinp : i = np
    · rw [hinp, setCall_ptable, allocEntry, modify_ptable_self]
    · rw [setCall_ptable, allocEntry_ptable_of_ne hinp] at hi ⊢
      exact h.halfMade_count i hi
  · by_cases hrp : r = p
    · subst hrp
      exact eq_of_fills hc (fills_setCall_self.1 hr) ▸ hhalf
    · have hr' : k.Fills r x := (fills_setCall_of_ne hrp).1 hr
      rw [setCall_ptable, allocEntry_ptable_of_ne (hother r x hr')]
      exact h.fills_halfMade r x hr'
  · by_cases hrp : r = p <;> by_cases hrp' : r' = p
    · rw [hrp, hrp']
    · subst hrp
      have hx := eq_of_fills hc (fills_setCall_self.1 hr)
      exact absurd hx (hother r' x ((fills_setCall_of_ne hrp').1 hr'))
    · subst hrp'
      have hx := eq_of_fills hc (fills_setCall_self.1 hr')
      exact absurd hx (hother r x ((fills_setCall_of_ne hrp).1 hr))
    · exact h.fills_inj r r' x ((fills_setCall_of_ne hrp).1 hr) ((fills_setCall_of_ne hrp').1 hr')
  · by_cases hrp : r = p
    · subst hrp
      rcases made_setCall_self.1 hr with rfl | rfl <;> rcases hc with hc | ⟨_, hc⟩ <;> cases hc
    · have hr' : k.Made r x := (made_setCall_of_ne hrp).1 hr
      rw [setCall_ptable, allocEntry_ptable_of_ne (hmade r x hr')]
      exact h.made_parent r x hr'
  · by_cases hrp : r = p
    · subst hrp
      rw [setCall_call_self] at hr
      subst hr
      rcases hc with hc | ⟨_, hc⟩ <;> cases hc
    · rw [setCall_call_of_ne hrp] at hr
      rw [setCall_ptable, allocEntry_ptable_of_ne (hmade r x (.inr hr))]
      exact h.made_embryo r x hr
  · rw [hsame q (h.busy q hq)]
    exact h.busy q hq
  · rw [hsame p hp.awake]
    exact hp.awake

/-- The first step of `fork` and of `clone`. -/
theorem Orderly.fork (h : Orderly k) (hp : k.Running p) : Orderly (k.fork p) := by
  rw [Kernel.fork]
  rcases allocproc_cases k with heq | ⟨np, hnp, heq⟩ <;> rw [heq]
  · exact h
  · exact h.setCall_allocEntry hp hnp (.inl rfl)

theorem Orderly.clone (h : Orderly k) (hp : k.Running p) (stack : ℕ) :
    Orderly (k.clone p stack) := by
  rw [Kernel.clone]
  rcases allocproc_cases k with heq | ⟨np, hnp, heq⟩ <;> rw [heq]
  · exact h
  · exact h.setCall_allocEntry hp hnp (.inr ⟨stack, rfl⟩)

/-- An entry that has been taken does not show in the forest. -/
theorem forest_allocproc (h : Orderly k) : k.allocproc.2.forest = k.forest := by
  rcases allocproc_cases k with heq | ⟨np, hnp, heq⟩ <;> rw [heq]
  exact forest_allocEntry h hnp

theorem fork_forest : (k.fork p).forest = k.allocproc.2.forest := by
  rw [Kernel.fork]
  split <;> rename_i heq <;> rw [heq]
  rfl

theorem clone_forest (stack : ℕ) : (k.clone p stack).forest = k.allocproc.2.forest := by
  rw [Kernel.clone]
  split <;> rename_i heq <;> rw [heq]
  rfl

/-- The start of `fork` keeps the invariant, -/
theorem Inv.fork (h : Inv k) (hp : k.Running p) : Inv (k.fork p) := by
  refine ⟨h.toOrderly.fork hp, ?_⟩
  rw [fork_forest, forest_allocproc h.toOrderly]
  exact h.forest

/-- and so does that of `clone`. -/
theorem Inv.clone (h : Inv k) (hp : k.Running p) (stack : ℕ) : Inv (k.clone p stack) := by
  refine ⟨h.toOrderly.clone hp stack, ?_⟩
  rw [clone_forest, forest_allocproc h.toOrderly]
  exact h.forest

/-! ### Filling an entry in -/

/-- The entry that a process has taken has been filled in, or given up, and the process goes to
another call. -/
theorem Orderly.fill (h : Orderly k) (hp : k.Running p) (hf : k.Fills p np)
    (hplaced : ∀ i, i ≠ np → i ≠ p → Placed (k.ptable i) (k'.ptable i))
    (hawake : (k'.ptable p).Awake) (hhalf : ¬ (k'.ptable np).HalfMade)
    (hunused : (k'.ptable np).state = .unused → (k'.ptable np).parent = none)
    (hzero : 0 ∉ k'.pgdirs) (hcall : k'.call = k.call) {c : Call}
    (hc : ¬ c.Simple → (c = .forkReturn np ∨ c = .cloneReturn np) ∧
      (k'.ptable np).parent = some p ∧ (c = .cloneReturn np → (k'.ptable np).state = .embryo))
    (hparent : (k'.ptable p).parent = (k.ptable p).parent) : Orderly (k'.setCall p c) := by
  have hne : ∀ {i}, (k.ptable i).Awake → i ≠ np := by
    rintro i hi rfl
    exact (h.fills_halfMade p i hf).not_awake hi
  -- what the others fill in or have filled in is neither `np` nor `p`
  have hfills : ∀ r x, (k'.setCall p c).Fills r x → r ≠ p ∧ k.Fills r x ∧ x ≠ np ∧ x ≠ p := by
    intro r x hr
    by_cases hrp : r = p
    · subst hrp
      by_cases hsimple : c.Simple
      · rcases fills_setCall_self.1 hr with rfl | ⟨stack, rfl⟩ <;> exact hsimple.elim
      · rcases fills_setCall_self.1 hr with rfl | ⟨stack, rfl⟩ <;>
          rcases (hc hsimple).1 with hc | hc <;> cases hc
    · rw [fills_setCall_of_ne hrp, Fills, hcall] at hr
      refine ⟨hrp, hr, fun hx ↦ hrp (h.fills_inj r p x hr (hx ▸ hf)), ?_⟩
      rintro rfl
      exact (h.fills_halfMade r x hr).not_awake hp.awake
  have hmade : ∀ r x, r ≠ p → (k'.setCall p c).Made r x → k.Made r x ∧ x ≠ np := by
    intro r x hrp hr
    rw [made_setCall_of_ne hrp, Made, hcall] at hr
    refine ⟨hr, ?_⟩
    rintro rfl
    have hnone := (h.fills_halfMade p x hf).2
    rw [h.made_parent r x hr] at hnone
    cases hnone
  refine ⟨hzero, fun i hi ↦ ?_, fun i hi ↦ ?_, fun r x hr ↦ ?_, fun r r' x hr hr' ↦ ?_,
    fun r x hr ↦ ?_, fun r x hr ↦ ?_, busy_setCall (fun q hq ↦ ?_) hawake⟩
  · rw [setCall_ptable] at hi ⊢
    by_cases hinp : i = np
    · rw [hinp] at hi ⊢
      exact hunused hi
    · by_cases hip : i = p
      · exact absurd (hip ▸ hi) (Proc.awake_iff.1 hawake).1
      · rw [(hplaced i hinp hip).parent]
        exact h.unused_parent i ((hplaced i hinp hip).unused.1 hi)
  · rw [setCall_ptable] at hi ⊢
    have hinp : i ≠ np := fun heq ↦ hhalf (heq ▸ hi)
    have hip : i ≠ p := fun heq ↦ (heq ▸ hi : (k'.ptable p).HalfMade).not_awake hawake
    rw [(hplaced i hinp hip).countThread]
    exact h.halfMade_count i ((hplaced i hinp hip).quiet.halfMade.1 hi)
  · obtain ⟨-, hr, hxn, hxp⟩ := hfills r x hr
    exact (hplaced x hxn hxp).quiet.halfMade.2 (h.fills_halfMade r x hr)
  · exact h.fills_inj r r' x (hfills r x hr).2.1 (hfills r' x hr').2.1
  · rw [setCall_ptable]
    by_cases hrp : r = p
    · subst hrp
      have hm := made_setCall_self.1 hr
      obtain ⟨hcx, hpar, -⟩ := hc (by rcases hm with rfl | rfl <;> exact id)
      rcases hm with rfl | rfl <;> rcases hcx with hcx | hcx <;> cases hcx <;> exact hpar
    · obtain ⟨hr', hxn⟩ := hmade r x hrp hr
      by_cases hxp : x = p
      · subst hxp
        rw [hparent]
        exact h.made_parent r x hr'
      · rw [(hplaced x hxn hxp).parent]
        exact h.made_parent r x hr'
  · by_cases hrp : r = p
    · subst hrp
      rw [setCall_call_self] at hr
      subst hr
      obtain ⟨hcx, -, hembryo⟩ := hc id
      rcases hcx with hcx | hcx <;> cases hcx
      exact hembryo rfl
    · have hm : (k'.setCall p c).Made r x := .inr hr
      obtain ⟨-, hxn⟩ := hmade r x hrp hm
      rw [setCall_call_of_ne hrp, hcall] at hr
      have hxp : x ≠ p := by
        rintro rfl
        exact absurd ((h.made_embryo r x hr).symm.trans hp) (by decide)
      rw [setCall_ptable]
      exact (hplaced x hxn hxp).embryo.2 (h.made_embryo r x hr)
  · rw [hcall] at hq
    by_cases hqp : q = p
    · exact hqp ▸ hawake
    · exact (hplaced q (hne (h.busy q hq)) hqp).awake.2 (h.busy q hq)

/-! ### Freeing a page directory -/

/-- An address space that nobody uses can be freed. -/
theorem freevm_eq_ok (hzero : 0 ∉ k.pgdirs) (hd : d ∈ k.pgdirs)
    (huses : ∀ i, (k.ptable i).Uses → (k.ptable i).pgdir ≠ d) :
    k.freevm d = .ok { k with pgdirs := k.pgdirs.erase d } := by
  have hd0 : d ≠ 0 := by
    rintro rfl
    exact hzero hd
  have hnone : ¬ ∃ i, (k.ptable i).Uses ∧ (k.ptable i).pgdir = d :=
    fun ⟨i, hi, heq⟩ ↦ huses i hi heq
  rw [freevm, if_neg hd0, if_neg hnone, if_neg (not_not.2 hd)]

/-- An entry that uses its page directory is waiting to be filled in or is that of a live
process. -/
theorem halfMade_or_live {a : Proc} (ha : a.Uses) :
    a.HalfMade ∨ a.Present ∧ ¬ a.node.done := by
  have hunused : a.state ≠ .unused := by
    rcases ha with h | h | h | h <;> rw [h] <;> decide
  have hzombie : a.state ≠ .zombie := by
    rcases ha with h | h | h | h <;> rw [h] <;> decide
  by_cases hhalf : a.HalfMade
  · exact .inl hhalf
  · exact .inr ⟨⟨hunused, hhalf⟩, hzombie⟩

/-- A live process has an allocated page directory. -/
theorem Inv.pgdir_mem (h : Inv k) {i : Slot} (hi : (k.ptable i).Present)
    (hret : ¬ OwnerForest.Retired k.forest i (k.ptable i).node) : (k.ptable i).pgdir ∈ k.pgdirs :=
  h.forest.held i _ (forest_node_of_present hi) hret

/-- A directory that was free is given back. -/
theorem Inv.freevm_setupkvm (h : Inv k) (hd0 : d ≠ 0) (hd : d ∉ k.pgdirs) (hleft : ¬ k.Leftover d) :
    (k.setupkvm d).freevm d = .ok k := by
  have hmem : d ∈ insert d k.pgdirs := Finset.mem_insert_self d _
  rw [freevm_eq_ok ?_ hmem]
  · show Except.ok { k with pgdirs := (insert d k.pgdirs).erase d } = .ok k
    rw [Finset.erase_insert hd]
  · intro i hi heq
    rcases halfMade_or_live hi with hhalf | ⟨hpresent, hlive⟩
    · exact hleft ⟨i, hhalf, heq⟩
    · exact hd (heq ▸ h.pgdir_mem hpresent fun hret ↦ hlive hret.1)
  · exact fun h0 ↦ (Finset.mem_insert.1 h0).elim (fun heq ↦ hd0 heq.symm) h.zero

/-! ### A new child -/

/-- The forest with a new child, from the two changes of the table. -/
theorem forest_eq_add {r : ℕ} (hp : (k.ptable p).Present) (hnp : np ≠ p)
    (hnew : (k'.ptable np).view = some ⟨False, some p, r⟩) (hcount : (k'.ptable np).counted = 0)
    (hview : ∀ i, i ≠ np → (k'.ptable i).view = (k.ptable i).view)
    (hparent : (k'.ptable p).counted =
      if (k.ptable p).pgdir = r then (k.ptable p).counted + 1 else (k.ptable p).counted)
    (hcounted : ∀ i, i ≠ np → i ≠ p → (k'.ptable i).counted = (k.ptable i).counted)
    (hpgdirs : (k'.pgdirs : Set ℕ) = insert r (k.pgdirs : Set ℕ)) :
    k'.forest = OwnerForest.add k.forest p np r := by
  have hnode := forest_node_of_present hp
  refine OwnerForest.State.ext (funext fun i ↦ ?_) (funext fun i ↦ ?_) hpgdirs
  · show (k'.ptable i).view = Function.update k.forest.node np _ i
    by_cases hi : i = np
    · rw [hi, hnew, Function.update_self]
    · rw [hview i hi, Function.update_of_ne hi]
      rfl
  · show (k'.ptable i).counted = _
    by_cases hi : i = np
    · rw [hi, hcount]
      exact OwnerForest.add_count_self.symm
    · by_cases hip : i = p
      · subst hip
        rw [hparent]
        split_ifs with hr
        · exact (OwnerForest.add_count_parent_of_eq hi hnode hr).symm
        · exact (OwnerForest.add_count_parent_of_ne hi hnode hr).symm
      · rw [hcounted i hi hip]
        exact (OwnerForest.add_count_of_ne (s := k.forest) hi hip).symm

/-- A new process keeps the invariant of the forest when it has its parent's page directory or one
that is not allocated. -/
theorem Inv.of_eq_add (h : Inv k) (hp : k.Running p) (hhalf : (k.ptable np).HalfMade) {r : ℕ}
    (hr : r = (k.ptable p).pgdir ∨ r ∉ k.pgdirs)
    (hforest : k'.forest = OwnerForest.add k.forest p np r) :
    OwnerForest.Inv initproc k'.forest := by
  rw [hforest]
  exact h.forest.add (forest_node_of_present hp.present) hp.not_done
    (Proc.view_of_not_present hhalf.not_present) hr

/-- Nobody fills in the entry that it runs in. -/
theorem Fills.ne (h : Orderly k) (hp : k.Running p) (hf : k.Fills p np) : np ≠ p := by
  rintro rfl
  have hstate := (h.fills_halfMade _ _ hf).1
  rw [hp] at hstate
  cases hstate

/-- An entry that goes back, with another page directory or the one it shows. -/
theorem Orderly.goesBack (h : Orderly k) (hp : k.Running p) (hf : k.Fills p np) {f : Proc → Proc}
    (hstate : ∀ a, (f a).state = .unused) (hparent : ∀ a, (f a).parent = a.parent) :
    Orderly ((k.modify np f).setCall p .user) := by
  have hne := Fills.ne h hp hf
  have hcall : (k.modify np f).call = k.call := rfl
  have hself : (k.modify np f).ptable p = k.ptable p := modify_ptable_of_ne hne.symm
  have hawake : ((k.modify np f).ptable p).Awake := by
    rw [hself]
    exact hp.awake
  refine h.fill hp hf (fun i hi _ ↦ ?_) hawake ?_ ?_ h.zero hcall
    (fun hc ↦ absurd (show Call.user.Simple from trivial) hc) (congrArg Proc.parent hself)
  · rw [modify_ptable_of_ne hi]
    exact .refl _
  · rw [modify_ptable_self]
    exact fun h' ↦ absurd ((hstate _).symm.trans h'.1) (by decide)
  · rw [modify_ptable_self, hparent]
    exact fun _ ↦ (h.fills_halfMade p np hf).2

/-- An entry that has been taken can be given back. -/
theorem Inv.goesBack (h : Inv k) (hp : k.Running p) (hf : k.Fills p np) {f : Proc → Proc}
    (hstate : ∀ a, (f a).state = .unused) (hparent : ∀ a, (f a).parent = a.parent) :
    Inv ((k.modify np f).setCall p .user) := by
  refine ⟨h.toOrderly.goesBack hp hf hstate hparent, ?_⟩
  rw [setCall_forest, forest_modify_of_not_present (h.fills_halfMade p np hf).not_present
    (Proc.not_present_of_unused (hstate _))]
  exact h.forest

/-- It is given back when there is no page for the kernel stack, -/
theorem Orderly.noKstack (h : Orderly k) (hp : k.Running p) (hf : k.Fills p np) :
    Orderly ((k.noKstack np).setCall p .user) :=
  h.goesBack (f := fun a ↦ { a with state := .unused }) hp hf (fun _ ↦ rfl) fun _ ↦ rfl

/-- with the invariant kept, -/
theorem Inv.noKstack (h : Inv k) (hp : k.Running p) (hf : k.Fills p np) :
    Inv ((k.noKstack np).setCall p .user) :=
  h.goesBack (f := fun a ↦ { a with state := .unused }) hp hf (fun _ ↦ rfl) fun _ ↦ rfl

/-- and when the address space cannot be copied. -/
theorem Inv.giveUp (h : Inv k) (hp : k.Running p) (hf : k.Fills p np) :
    Inv ((k.giveUp np).setCall p .user) :=
  h.goesBack (f := fun a ↦ { a with pgdir := 0, state := .unused }) hp hf (fun _ ↦ rfl) fun _ ↦ rfl

/-- The second step of `fork`. -/
theorem Orderly.forkCopy (h : Orderly k) (hp : k.Running p) (hf : k.Fills p np) {space : NewSpace}
    (hfresh : space.Fresh k) {r : Kernel × Option ℤ}
    (hr : Unmonitored.forkCopy k p np space = .ok r) :
    Orderly (r.1.setCall p (if r.2.isSome then .forkReturn np else .user)) := by
  rcases Unmonitored.forkCopy_cases hfresh hr with rfl | ⟨d, sz, rfl⟩
  · exact h.goesBack (f := fun a ↦ { a with pgdir := 0, state := .unused }) hp hf (fun _ ↦ rfl)
      fun _ ↦ rfl
  · have hne := Fills.ne h hp hf
    obtain ⟨k₁, hk₁⟩ : ∃ k₁, k₁ = (k.setupkvm d).modify np fun a ↦
        { a with pgdir := d, sz := (k.ptable p).sz, parent := some p, state := .runnable } :=
      ⟨_, rfl⟩
    have hcall : k₁.call = k.call := hk₁ ▸ rfl
    have hself : k₁.ptable np = { k.ptable np with
        pgdir := d, sz := (k.ptable p).sz, parent := some p, state := .runnable } := by
      rw [hk₁, modify_ptable_self]
      rfl
    have hrest : ∀ i, i ≠ np → k₁.ptable i = k.ptable i := fun i hi ↦ by
      rw [hk₁, modify_ptable_of_ne hi]
      rfl
    have hzero : 0 ∉ k₁.pgdirs := hk₁ ▸ fun h0 ↦
      (Finset.mem_insert.1 h0).elim (fun heq ↦ hfresh.1 heq.symm) h.zero
    rw [← Except.ok.inj hr]
    show Orderly (Kernel.setCall _ p (.forkReturn np))
    rw [← hk₁]
    refine h.fill hp hf (fun i hi _ ↦ ?_) ?_ ?_ ?_ hzero hcall (fun _ ↦ ⟨.inl rfl, ?_, nofun⟩) ?_
    · rw [hrest i hi]
      exact .refl _
    · rw [hrest p hne.symm]
      exact hp.awake
    · rw [hself]
      exact fun h' ↦ by cases h'.1
    · rw [hself]
      exact fun h' ↦ by cases h'
    · rw [hself]
    · rw [hrest p hne.symm]

/-- The copy of `fork` keeps the invariant, -/
theorem Inv.forkCopy_unmonitored (h : Inv k) (hp : k.Running p) (hf : k.Fills p np)
    {space : NewSpace} (hfresh : space.Fresh k) :
    ∃ r, Unmonitored.forkCopy k p np space = .ok r ∧
      Inv (r.1.setCall p (if r.2.isSome then .forkReturn np else .user)) := by
  have hne := Fills.ne h.toOrderly hp hf
  have hhalf := h.fills_halfMade p np hf
  have hgive := h.giveUp hp hf
  cases space with
  | none => exact ⟨_, rfl, hgive⟩
  | aborted d => exact ⟨_, Unmonitored.forkCopy_aborted hfresh.1 hfresh.2, hgive⟩
  | ready d sz =>
    refine ⟨_, rfl, h.toOrderly.forkCopy hp hf hfresh rfl, ?_⟩
    refine h.of_eq_add hp hhalf (.inr hfresh.2) (forest_eq_add hp.present hne ?_ ?_ ?_ ?_ ?_ ?_)
    · rw [setCall_ptable, modify_ptable_self]
      exact Proc.view_of_child (.inr rfl) rfl
    · rw [setCall_ptable, modify_ptable_self]
      exact Proc.counted_eq_zero (h.halfMade_count np hhalf)
    · intro i hi
      rw [setCall_ptable, modify_ptable_of_ne hi]
      rfl
    · rw [setCall_ptable, modify_ptable_of_ne hne.symm]
      have hpgdir := h.pgdir_mem hp.present fun hret ↦ hp.not_done hret.1
      exact (if_neg fun heq : (k.ptable p).pgdir = d ↦ hfresh.2 (heq ▸ hpgdir)).symm
    · intro i hi _
      rw [setCall_ptable, modify_ptable_of_ne hi]
      rfl
    · exact Finset.coe_insert d k.pgdirs

/-- and frees nothing that is in use if no entry has a leftover of what it frees. -/
theorem Inv.forkCopy (h : Inv k) (hp : k.Running p) (hf : k.Fills p np) {space : NewSpace}
    (hfresh : space.Fresh k) (hleft : ∀ d, space = .aborted d → ¬ k.Leftover d) :
    ∃ r, k.forkCopy p np space = .ok r ∧
      Inv (r.1.setCall p (if r.2.isSome then .forkReturn np else .user)) := by
  obtain ⟨r, hr, hinv⟩ := h.forkCopy_unmonitored hp hf hfresh
  refine ⟨r, hr ▸ ?_, hinv⟩
  cases space with
  | none => rfl
  | ready d sz => rfl
  | aborted d =>
    rw [Kernel.forkCopy, h.freevm_setupkvm hfresh.1 hfresh.2 (hleft d rfl),
      Unmonitored.forkCopy_aborted hfresh.1 hfresh.2]
    rfl

/-- The last step of `fork` changes nothing but a count. -/
theorem forkReturn_ptable (i : Slot) : (k.forkReturn np).ptable i =
    if i = np then { k.ptable i with countThread := 0 } else k.ptable i := by
  rw [Kernel.forkReturn]
  split_ifs with hi
  · rw [hi, modify_ptable_self]
  · exact modify_ptable_of_ne hi

/-- The reset of the count of a child keeps the table orderly. -/
theorem Orderly.forkReturn (h : Orderly k) (hp : k.Running p) :
    Orderly ((k.forkReturn np).setCall p .user) := by
  have hfield : ∀ {β : Type} (π : Proc → β), (∀ a n, π { a with countThread := n } = π a) →
      ∀ i, π ((k.forkReturn np).ptable i) = π (k.ptable i) := by
    intro β π hπ i
    rw [forkReturn_ptable]
    split_ifs
    · exact hπ _ _
    · rfl
  have hstate := hfield Proc.state fun _ _ ↦ rfl
  have hparent := hfield Proc.parent fun _ _ ↦ rfl
  have hhalf : ∀ i, ((k.forkReturn np).ptable i).HalfMade ↔ (k.ptable i).HalfMade := by
    intro i
    rw [Proc.HalfMade, Proc.HalfMade, hstate, hparent]
  have hawake : ∀ i, ((k.forkReturn np).ptable i).Awake ↔ (k.ptable i).Awake := by
    intro i
    rw [Proc.Awake, Proc.Awake, hstate]
  refine (h.of_settled (fun i ↦ ⟨hhalf i, fun hi ↦ ?_, fun hi ↦ ?_⟩)
    (fun _ x _ ↦ ⟨hparent x, fun hx ↦ (hstate x).trans hx⟩) (fun q _ ↦ (hawake q).2) h.zero
    rfl).setCall ((hawake p).2 hp.awake) trivial
  · rw [forkReturn_ptable]
    split_ifs
    · exact (h.halfMade_count i ((hhalf i).1 hi)).symm
    · rfl
  · exact .inr ⟨(hstate i).symm.trans hi, hparent i⟩

/-- A child that has cloned no thread yet has no count to lose. -/
theorem Inv.forkReturn (h : Inv k) (hp : k.Running p) (hcount : (k.ptable np).countThread = 0) :
    Inv ((k.forkReturn np).setCall p .user) := by
  have hsame : k.forkReturn np = k := by
    have htable : (k.forkReturn np).ptable = k.ptable := by
      funext i
      rw [forkReturn_ptable]
      split_ifs with hi
      · rw [hi, ← hcount]
      · rfl
    exact congrArg (fun table ↦ { k with ptable := table }) htable
  rw [hsame]
  exact h.setCall hp.awake trivial

/-- `clone` fills in the entry of the thread, -/
theorem cloneCopy_ptable_self (hne : np ≠ p) (stack : ℕ) :
    (k.cloneCopy p np stack).ptable np =
      { k.ptable np with
        pgdir := (k.ptable p).pgdir
        sz := (k.ptable p).sz
        parent := some p
        stack := stack } := by
  simp [cloneCopy, hne]

/-- and counts it, -/
theorem cloneCopy_ptable_parent (hne : np ≠ p) (stack : ℕ) :
    (k.cloneCopy p np stack).ptable p =
      { k.ptable p with countThread := (k.ptable p).countThread + 1 } := by
  simp [cloneCopy, hne.symm]

/-- and leaves the others alone. -/
theorem cloneCopy_ptable_of_ne {i : Slot} (hi : i ≠ np) (hip : i ≠ p) (stack : ℕ) :
    (k.cloneCopy p np stack).ptable i = k.ptable i := by
  simp [cloneCopy, hi, hip]

/-- The second step of `clone`. -/
theorem Orderly.cloneCopy (h : Orderly k) (hp : k.Running p) (hf : k.Fills p np) (stack : ℕ) :
    Orderly ((k.cloneCopy p np stack).setCall p (.cloneReturn np)) := by
  have hne := Fills.ne h hp hf
  have hembryo := (h.fills_halfMade p np hf).1
  have hself := cloneCopy_ptable_self (k := k) hne stack
  have hparent := cloneCopy_ptable_parent (k := k) hne stack
  have hcall : (k.cloneCopy p np stack).call = k.call := rfl
  have hzero : 0 ∉ (k.cloneCopy p np stack).pgdirs := h.zero
  refine h.fill hp hf (fun i hi hip ↦ ?_) ?_ ?_ ?_ hzero hcall
    (fun _ ↦ ⟨.inr rfl, ?_, fun _ ↦ ?_⟩) ?_
  · rw [cloneCopy_ptable_of_ne hi hip]
    exact .refl _
  · rw [hparent]
    exact hp.awake
  · rw [hself]
    exact fun h' ↦ by cases h'.2
  · rw [hself]
    exact fun h' ↦ absurd (hembryo.symm.trans h') (by decide)
  · rw [hself]
  · rw [hself]
    exact hembryo
  · rw [hparent]

/-- The thread is in the forest before it is RUNNABLE, and also when it never is. -/
theorem Inv.cloneCopy (h : Inv k) (hp : k.Running p) (hf : k.Fills p np) (stack : ℕ) :
    Inv ((k.cloneCopy p np stack).setCall p (.cloneReturn np)) := by
  have hne := Fills.ne h.toOrderly hp hf
  have hhalf := h.fills_halfMade p np hf
  have hself := cloneCopy_ptable_self (k := k) hne stack
  have hparent := cloneCopy_ptable_parent (k := k) hne stack
  have hmem := h.pgdir_mem hp.present fun hret ↦ hp.not_done hret.1
  refine ⟨h.toOrderly.cloneCopy hp hf stack,
    h.of_eq_add hp hhalf (.inl rfl) (forest_eq_add hp.present hne ?_ ?_ ?_ ?_ ?_ ?_)⟩
  · rw [setCall_ptable, hself]
    exact Proc.view_of_child (.inl hhalf.1) rfl
  · rw [setCall_ptable, hself]
    exact Proc.counted_eq_zero (h.halfMade_count np hhalf)
  · intro i hi
    by_cases hip : i = p
    · subst hip
      rw [setCall_ptable, hparent]
      rfl
    · rw [setCall_ptable, cloneCopy_ptable_of_ne hi hip]
  · rw [setCall_ptable, hparent, if_pos rfl, Proc.counted_of_present hp.present]
    exact Proc.counted_of_present hp.present
  · intro i hi hip
    rw [setCall_ptable, cloneCopy_ptable_of_ne hi hip]
  · exact (Set.insert_eq_of_mem hmem).symm

/-- The entry that the last step of `clone` makes RUNNABLE shows as before. -/
theorem quiet_cloneReturn (h : Orderly k) (hcall : k.call p = .cloneReturn np) (copied : Bool)
    (i : Slot) : Quiet (k.ptable i) ((k.cloneReturn np copied).1.ptable i) := by
  cases copied with
  | false => exact .refl _
  | true =>
    show Quiet _ ((k.setState np .runnable).ptable i)
    by_cases hi : i = np
    · subst hi
      have hparent := h.made_parent p i (.inr hcall)
      have hembryo := h.made_embryo p i hcall
      have hpresent := Proc.present_of_parent (by rw [hembryo]; decide) hparent
      have hpresent' : Proc.Present { k.ptable i with state := .runnable } :=
        Proc.present_of_ne (by simp) (by simp)
      rw [setState, modify_ptable_self]
      refine ⟨.of_not_halfMade hpresent.2 hpresent'.2 fun hu ↦ (by cases hu), ?_, ?_⟩
      · rw [Proc.view_of_child (.inl hembryo) hparent]
        exact Proc.view_of_child (.inr rfl) hparent
      · rw [Proc.counted_of_present hpresent, Proc.counted_of_present hpresent']
    · rw [setState, modify_ptable_of_ne hi]
      exact .refl _

theorem cloneReturn_ptable_of_ne {i : Slot} (hi : i ≠ np) (copied : Bool) :
    (k.cloneReturn np copied).1.ptable i = k.ptable i := by
  cases copied with
  | false => rfl
  | true =>
    show (k.setState np .runnable).ptable i = _
    rw [setState, modify_ptable_of_ne hi]

theorem cloneReturn_ptable_self (copied : Bool) : (k.cloneReturn np copied).1.ptable np =
    { k.ptable np with state := if copied then .runnable else (k.ptable np).state } := by
  cases copied with
  | false => rfl
  | true =>
    show (k.setState np .runnable).ptable np = _
    rw [setState, modify_ptable_self]
    rfl

theorem cloneReturn_pgdirs (copied : Bool) : (k.cloneReturn np copied).1.pgdirs = k.pgdirs := by
  cases copied <;> rfl

theorem cloneReturn_call (copied : Bool) : (k.cloneReturn np copied).1.call = k.call := by
  cases copied <;> rfl

/-- The last step of `clone`. -/
theorem Orderly.cloneReturn (h : Orderly k) (hp : k.Running p)
    (hcall : k.call p = .cloneReturn np) (copied : Bool) :
    Orderly ((k.cloneReturn np copied).1.setCall p .user) := by
  have hembryo := h.made_embryo p np hcall
  have hne : ∀ {i}, (k.ptable i).Awake → i ≠ np := by
    rintro i hi rfl
    exact (Proc.awake_iff.1 hi).2.1 hembryo
  have hsame : ∀ {i}, (k.ptable i).Awake → (k.cloneReturn np copied).1.ptable i = k.ptable i :=
    fun hi ↦ cloneReturn_ptable_of_ne (hne hi) copied
  have hquiet := quiet_cloneReturn h hcall copied
  -- nobody else makes `np`
  have hother : ∀ r x, r ≠ p → k.Made r x → x ≠ np := by
    rintro r x hrp hr rfl
    have hparent := (h.made_parent r x hr).symm.trans (h.made_parent p x (.inr hcall))
    exact hrp (Option.some.inj hparent)
  have hfills : ∀ r x, ((k.cloneReturn np copied).1.setCall p .user).Fills r x →
      k.Fills r x := by
    intro r x hr
    by_cases hrp : r = p
    · subst hrp
      rcases fills_setCall_self.1 hr with hc | ⟨_, hc⟩ <;> cases hc
    · rwa [fills_setCall_of_ne hrp, Fills, cloneReturn_call] at hr
  refine ⟨?_, fun i hi ↦ h.parent_of_settled (hquiet i).toSettled hi, fun i hi ↦ ?_,
    fun r x hr ↦ (hquiet x).halfMade.2 (h.fills_halfMade r x (hfills r x hr)),
    fun r r' x hr hr' ↦ h.fills_inj r r' x (hfills r x hr) (hfills r' x hr'), fun r x hr ↦ ?_,
    fun r x hr ↦ ?_, busy_setCall (fun q hq ↦ ?_) ?_⟩
  · show 0 ∉ (k.cloneReturn np copied).1.pgdirs
    rw [cloneReturn_pgdirs]
    exact h.zero
  · rw [setCall_ptable] at hi ⊢
    rw [(hquiet i).countThread hi]
    exact h.halfMade_count i ((hquiet i).halfMade.1 hi)
  · by_cases hrp : r = p
    · subst hrp
      rcases made_setCall_self.1 hr with hc | hc <;> cases hc
    · rw [made_setCall_of_ne hrp, Made, cloneReturn_call] at hr
      rw [setCall_ptable, cloneReturn_ptable_of_ne (hother r x hrp hr)]
      exact h.made_parent r x hr
  · by_cases hrp : r = p
    · subst hrp
      rw [setCall_call_self] at hr
      cases hr
    · rw [setCall_call_of_ne hrp, cloneReturn_call] at hr
      rw [setCall_ptable, cloneReturn_ptable_of_ne (hother r x hrp (.inr hr))]
      exact h.made_embryo r x hr
  · rw [cloneReturn_call] at hq
    rw [hsame (h.busy q hq)]
    exact h.busy q hq
  · rw [hsame hp.awake]
    exact hp.awake

/-- The end of `clone` keeps the invariant. -/
theorem Inv.cloneReturn (h : Inv k) (hp : k.Running p) (hcall : k.call p = .cloneReturn np)
    (copied : Bool) : Inv ((k.cloneReturn np copied).1.setCall p .user) := by
  refine ⟨h.toOrderly.cloneReturn hp hcall copied, ?_⟩
  rw [setCall_forest, forest_of_quiet (quiet_cloneReturn h.toOrderly hcall copied)
    (cloneReturn_pgdirs copied)]
  exact h.forest

/-! ### A new address space -/

/-- A node is retired if its entry is that of a ZOMBIE with threads. -/
theorem retired_iff {i : Slot} (hi : (k.ptable i).Present) :
    OwnerForest.Retired k.forest i (k.ptable i).node ↔
      (k.ptable i).state = .zombie ∧ (k.ptable i).countThread ≠ 0 := by
  rw [OwnerForest.Retired, forest_count_of_present hi]
  rfl

/-- Nobody but `p` still counts on the page directory of `p`. -/
def Alone (k : Kernel) (p : Slot) : Prop :=
  ∀ i, (k.ptable i).Present → i ≠ p → (k.ptable i).pgdir = (k.ptable p).pgdir →
    (k.ptable i).state = .zombie ∧ (k.ptable i).countThread ≠ 0

/-- A zombie child of `p`, any zombie for `p` the first process, that has left its page directory to
a thread and still shows `d`. -/
def StaleBelow (k : Kernel) (p : Slot) (d : ℕ) : Prop :=
  ∃ i, (k.ptable i).state = .zombie ∧ (k.ptable i).countThread ≠ 0 ∧ (k.ptable i).pgdir = d ∧
    ((k.ptable i).parent = some p ∨ p = initproc)

instance (k : Kernel) (p : Slot) : Decidable (k.Alone p) := inferInstanceAs (Decidable (∀ _, _))

instance (k : Kernel) (p : Slot) (d : ℕ) : Decidable (k.StaleBelow p d) :=
  inferInstanceAs (Decidable (∃ _, _))

/-- `exec`. -/
theorem Orderly.exec (h : Orderly k) (hp : k.Running p) {space : NewSpace}
    (hfresh : space.Fresh k) {r : Kernel × ℤ} (hr : Unmonitored.exec k p space = .ok r) :
    Orderly r.1 := by
  rcases Unmonitored.exec_cases hfresh hr with rfl | ⟨d, sz, rfl⟩
  · exact h
  · obtain ⟨k₁, hfree, hr⟩ := bind_eq_ok_iff.1 hr
    rw [← Except.ok.inj hr, Unmonitored.freevm_eq_ok hfree]
    have hfield : ∀ {β : Type} (π : Proc → β), (∀ a, π { a with pgdir := d, sz := sz } = π a) →
        ∀ i, π ((k.modify p fun a ↦ { a with pgdir := d, sz := sz }).ptable i) =
          π (k.ptable i) := by
      intro β π hπ i
      by_cases hip : i = p
      · rw [hip, modify_ptable_self]
        exact hπ _
      · rw [modify_ptable_of_ne hip]
    have hstate := hfield Proc.state fun _ ↦ rfl
    have hparent := hfield Proc.parent fun _ ↦ rfl
    refine h.of_settled (fun i ↦ ?_) (fun _ x _ ↦ ⟨hparent x, fun hx ↦ (hstate x).trans hx⟩)
      (fun q _ hq ↦ ?_) (fun h0 ↦ ?_) rfl
    · show Settled _ ((k.modify p fun a ↦ { a with pgdir := d, sz := sz }).ptable i)
      by_cases hip : i = p
      · rw [hip, modify_ptable_self]
        exact .of_not_halfMade hp.present.2 hp.present.2 fun hu ↦ absurd hu hp.present.1
      · rw [modify_ptable_of_ne hip]
        exact .refl _
    · show ((k.modify p fun a ↦ { a with pgdir := d, sz := sz }).ptable q).Awake
      rwa [Proc.Awake, hstate]
    · exact (Finset.mem_insert.1 (Finset.mem_of_mem_erase h0)).elim
        (fun heq ↦ hfresh.1 heq.symm) h.zero

/-- `exec` of a process that is alone in its address space keeps the invariant, -/
theorem Inv.exec_unmonitored (h : Inv k) (hp : k.Running p) {space : NewSpace}
    (hfresh : space.Fresh k)
    (hready : ∀ d sz, space = .ready d sz → k.Alone p ∧ ¬ k.StaleBelow p d) :
    ∃ r, Unmonitored.exec k p space = .ok r ∧ Inv r.1 := by
  cases space with
  | none => exact ⟨_, rfl, h⟩
  | aborted d => exact ⟨_, Unmonitored.exec_aborted hfresh.1 hfresh.2, h⟩
  | ready d sz =>
    obtain ⟨halone, hstale⟩ := hready d sz rfl
    have hmem := h.pgdir_mem hp.present fun hret ↦ hp.not_done hret.1
    have hd : d ≠ (k.ptable p).pgdir := fun heq ↦ hfresh.2 (heq ▸ hmem)
    have hold : (k.ptable p).pgdir ≠ 0 := fun heq ↦ h.zero (heq ▸ hmem)
    have hok : Unmonitored.exec k p (.ready d sz) = .ok
        ({ (k.setupkvm d).modify p fun a ↦ { a with pgdir := d, sz := sz } with
          pgdirs := (insert d k.pgdirs).erase (k.ptable p).pgdir }, 0) := by
      show Unmonitored.freevm _ (k.ptable p).pgdir >>= (fun k' ↦ .ok (k', 0)) = _
      rw [Unmonitored.freevm_of_ne_zero hold]
      rfl
    refine ⟨_, hok, h.toOrderly.exec hp hfresh hok, ?_⟩
    have hswap : ({ (k.setupkvm d).modify p fun a ↦ { a with pgdir := d, sz := sz } with
          pgdirs := (insert d k.pgdirs).erase (k.ptable p).pgdir } : Kernel).forest =
        OwnerForest.swap k.forest p (k.ptable p).node d := by
      refine OwnerForest.State.ext ?_ ?_ ?_
      · show (k.modify p fun a ↦ { a with pgdir := d, sz := sz }).forest.node = _
        rw [modify_forest_node]
        exact congrArg _ (Proc.view_of_present (a := { k.ptable p with pgdir := d, sz := sz })
          hp.present)
      · show (k.modify p fun a ↦ { a with pgdir := d, sz := sz }).forest.count = _
        rw [modify_forest_count]
        exact Function.update_eq_self p _
      · show (((insert d k.pgdirs).erase (k.ptable p).pgdir : Finset ℕ) : Set ℕ) =
          insert d ((k.pgdirs : Set ℕ) \ {(k.ptable p).pgdir})
        rw [Finset.erase_insert_of_ne hd, Finset.coe_insert, Finset.coe_erase]
    rw [hswap]
    refine h.forest.swap (forest_node_of_present hp.present) hp.not_done ?_ hfresh.2 ?_
    · intro i c hi hip hres
      obtain ⟨hpresent, rfl⟩ := forest_node_eq_some_iff.1 hi
      exact (retired_iff hpresent).2 (halone i hpresent hip hres)
    · intro i c hi hret hpar hres
      obtain ⟨hpresent, rfl⟩ := forest_node_eq_some_iff.1 hi
      obtain ⟨hzombie, hcount⟩ := (retired_iff hpresent).1 hret
      exact hstale ⟨i, hzombie, hcount, hres, hpar⟩

/-- and frees nothing that is in use. -/
theorem Inv.exec (h : Inv k) (hp : k.Running p) {space : NewSpace} (hfresh : space.Fresh k)
    (haborted : ∀ d, space = .aborted d → ¬ k.Leftover d)
    (hready : ∀ d sz, space = .ready d sz →
      k.Alone p ∧ ¬ k.StaleBelow p d ∧ ¬ k.Leftover (k.ptable p).pgdir) :
    ∃ r, k.exec p space = .ok r ∧ Inv r.1 := by
  obtain ⟨r, hr, hinv⟩ := h.exec_unmonitored hp hfresh fun d sz heq ↦
    ⟨(hready d sz heq).1, (hready d sz heq).2.1⟩
  refine ⟨r, hr ▸ ?_, hinv⟩
  cases space with
  | none => rfl
  | aborted d =>
    rw [Kernel.exec, h.freevm_setupkvm hfresh.1 hfresh.2 (haborted d rfl),
      Unmonitored.exec_aborted hfresh.1 hfresh.2]
    rfl
  | ready d sz =>
    obtain ⟨halone, -, hleft⟩ := hready d sz rfl
    have hmem := h.pgdir_mem hp.present fun hret ↦ hp.not_done hret.1
    have hold : (k.ptable p).pgdir ≠ 0 := fun heq ↦ h.zero (heq ▸ hmem)
    have hzero : 0 ∉ insert d k.pgdirs :=
      fun h0 ↦ (Finset.mem_insert.1 h0).elim (fun heq ↦ hfresh.1 heq.symm) h.zero
    show freevm _ _ >>= (fun k' ↦ .ok (k', 0)) = Unmonitored.freevm _ _ >>= fun k' ↦ .ok (k', 0)
    rw [freevm_eq_ok hzero (Finset.mem_insert_of_mem hmem), Unmonitored.freevm_of_ne_zero hold]
    · intro i hi heq
      by_cases hip : i = p
      · rw [hip, modify_ptable_self] at heq
        have hd : d = (k.ptable p).pgdir := heq
        exact hfresh.2 (hd ▸ hmem)
      · rw [modify_ptable_of_ne hip] at hi heq
        rcases halfMade_or_live hi with hhalf | ⟨hpresent, hlive⟩
        · exact hleft ⟨i, hhalf, heq⟩
        · exact hlive (halone i hpresent hip heq).1

end Kernel

end Threads
