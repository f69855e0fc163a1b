import Mathlib.Data.Set.Card
import Mathlib.Tactic.SplitIfs

/-!
# Shared resources in a forest of nodes

Nodes hold resources. A node either got a resource of its own or shares the one of its parent, and
whoever removes a node must know whether the last user of its resource is gone. The rule studied
here is a count kept with the parent: every node counts the children that share with it, a node
that finishes hands its children over to the root of the forest, and a finished node is removed
later by its parent, its resource being released when it does not share with that parent and its
count is zero.

`Inv` is the invariant under which that rule is right: every resource in use has exactly one
*owner*, a node that does not share with its parent and has not handed its resource over, and
every other user of the resource sits below the owner.

* `Inv.eq_of_res_eq` — a finished owner with count zero is the only user of its resource, so the
  resource can be released;
* `Inv.single` — it holds of the root alone;
* `Inv.add`, `Inv.swap`, `Inv.finish`, `Inv.remove` — each operation keeps the invariant, under the
  conditions that the rule silently relies on.

The conditions worth noting are those of `Inv.finish`: a node that shares with its parent must have
no sharing child left, and an owner at most one, because the root does not share with the children
it is given and each of them becomes an owner. A node that has handed its resource over keeps the
name of it, which by then may be released and given out again: that is why `Inv.swap` must not meet
such a leftover among the children of the node.
-/

namespace OwnerForest

/-- A node of the forest. -/
@[ext]
structure Node (ι ρ : Type*) where
  /-- The node has finished and waits to be removed. -/
  done : Prop
  parent : Option ι
  res : ρ

/-- The nodes in the forest, how many sharing children each of them counts, and the resources that
are allocated. -/
@[ext]
structure State (ι ρ : Type*) where
  node : ι → Option (Node ι ρ)
  count : ι → ℤ
  held : Set ρ

variable {ι ρ : Type*}

/-- The node shares its parent's resource. -/
def Shares (s : State ι ρ) (a : Node ι ρ) : Prop :=
  ∃ p b, a.parent = some p ∧ s.node p = some b ∧ b.res = a.res

/-- Node `i` has finished and handed its resource over to a child. -/
def Retired (s : State ι ρ) (i : ι) (a : Node ι ρ) : Prop := a.done ∧ s.count i ≠ 0

/-- Node `i` is responsible for its resource. -/
def Owner (s : State ι ρ) (i : ι) (a : Node ι ρ) : Prop := ¬ Shares s a ∧ ¬ Retired s i a

/-- The children of node `p` that have resource `r`. -/
def sharers (s : State ι ρ) (p : ι) (r : ρ) : Set ι :=
  {i | ∃ a, s.node i = some a ∧ a.parent = some p ∧ a.res = r}

theorem res_of_mem_sharers {s : State ι ρ} {p i : ι} {r : ρ} {a : Node ι ρ}
    (hi : s.node i = some a) (hmem : i ∈ sharers s p r) : a.res = r := by
  obtain ⟨a', ha', -, hres⟩ := hmem
  obtain rfl : a' = a := Option.some.inj (ha'.symm.trans hi)
  exact hres

/-- Every resource in use has one owner, and the counts are right. -/
structure Inv (root : ι) (s : State ι ρ) : Prop where
  root_node : ∃ a, s.node root = some a ∧ ¬ a.done ∧ a.parent = none
  parent_live : ∀ i a, s.node i = some a → i ≠ root →
    ∃ p b, a.parent = some p ∧ s.node p = some b ∧ ¬ b.done
  ranked : ∃ rank : ι → ℕ, ∀ i a p, s.node i = some a → a.parent = some p → rank p < rank i
  count : ∀ p b, s.node p = some b → ¬ b.done → s.count p = (sharers s p b.res).ncard
  done_count : ∀ i a, s.node i = some a → a.done → Shares s a → s.count i = 0
  owner_unique : ∀ i j a b, s.node i = some a → s.node j = some b → Owner s i a → Owner s j b →
    a.res = b.res → i = j
  retired_root : ∀ i a r, s.node i = some a → Retired s i a → s.node root = some r →
    a.res ≠ r.res
  held : ∀ i a, s.node i = some a → ¬ Retired s i a → a.res ∈ s.held

/-! ### Owners -/

section

variable {root : ι} {s : State ι ρ} {p : ι} {b : Node ι ρ}

/-- A parent is a node that has not finished. -/
theorem Inv.live_of_parent (h : Inv root s) {i : ι} {a : Node ι ρ} (hi : s.node i = some a)
    (hp : a.parent = some p) : ∃ b, s.node p = some b ∧ ¬ b.done := by
  by_cases hroot : i = root
  · obtain ⟨a', ha', -, hnone⟩ := h.root_node
    rw [← hroot, hi] at ha'
    rw [Option.some.inj ha', hnone] at hp
    cases hp
  · obtain ⟨p', b, hp', hb, hlive⟩ := h.parent_live i a hi hroot
    obtain rfl : p' = p := Option.some.inj (hp'.symm.trans hp)
    exact ⟨b, hb, hlive⟩

/-- A place without a live node has no children. -/
theorem Inv.parent_ne (h : Inv root s) (hp : ∀ b, s.node p = some b → b.done) {i : ι}
    {a : Node ι ρ} (hi : s.node i = some a) : a.parent ≠ some p := by
  intro hpar
  obtain ⟨b, hb, hlive⟩ := h.live_of_parent hi hpar
  exact hlive (hp b hb)

theorem ne_of_node_eq_none {q : ι} (hq : s.node q = none) {i : ι} {a : Node ι ρ}
    (hi : s.node i = some a) : i ≠ q := by
  rintro rfl
  rw [hi] at hq
  cases hq

/-- A free place has no children. -/
theorem Inv.parent_ne_of_node_eq_none (h : Inv root s) {q : ι} (hq : s.node q = none) {i : ι}
    {a : Node ι ρ} (hi : s.node i = some a) : a.parent ≠ some q :=
  h.parent_ne (fun _ hb' ↦ absurd rfl (ne_of_node_eq_none hq hb')) hi

/-- No node is its own parent. -/
theorem Inv.parent_ne_self (h : Inv root s) {i : ι} {a : Node ι ρ} (hi : s.node i = some a) :
    a.parent ≠ some i := by
  obtain ⟨rank, hrank⟩ := h.ranked
  exact fun hp ↦ lt_irrefl _ (hrank i a i hi hp)

/-- The root is an owner. -/
theorem Inv.owner_root (h : Inv root s) {c : Node ι ρ} (hc : s.node root = some c) :
    Owner s root c := by
  obtain ⟨c', hc', hlive, hnone⟩ := h.root_node
  obtain rfl : c' = c := Option.some.inj (hc'.symm.trans hc)
  exact ⟨fun ⟨p, b, hp, _⟩ ↦ by simp [hnone] at hp, fun hr ↦ hlive hr.1⟩

/-- Every node that has not handed its resource over sits below the owner: it is the owner, or the
owner has not finished. -/
theorem Inv.exists_owner (h : Inv root s) {i : ι} {a : Node ι ρ} (hi : s.node i = some a)
    (hret : ¬ Retired s i a) :
    ∃ j b, s.node j = some b ∧ Owner s j b ∧ b.res = a.res ∧ (i = j ∨ ¬ b.done) := by
  obtain ⟨rank, hrank⟩ := h.ranked
  generalize hn : rank i = n
  induction n using Nat.strong_induction_on generalizing i a with
  | _ n ih =>
    by_cases hsh : Shares s a
    · obtain ⟨p, b, hp, hb, hres⟩ := hsh
      obtain ⟨b', hb', hlive⟩ := h.live_of_parent hi hp
      obtain rfl : b' = b := Option.some.inj (hb'.symm.trans hb)
      have hlt : rank p < n := hn ▸ hrank i a p hi hp
      obtain ⟨j, c, hj, hown, hjres, hcase⟩ := ih _ hlt hb (fun hr ↦ hlive hr.1) rfl
      refine ⟨j, c, hj, hown, hjres.trans hres, .inr ?_⟩
      rcases hcase with rfl | hdone
      · rw [hb] at hj
        exact Option.some.inj hj ▸ hlive
      · exact hdone
    · exact ⟨i, a, hi, ⟨hsh, hret⟩, rfl, .inl rfl⟩

/-- **A finished owner with count zero is the only user of its resource.** -/
theorem Inv.eq_of_res_eq (h : Inv root s) {q : ι} {a : Node ι ρ} (hq : s.node q = some a)
    (hdone : a.done) (hcount : s.count q = 0) (hown : ¬ Shares s a) {i : ι} {b : Node ι ρ}
    (hi : s.node i = some b) (hret : ¬ Retired s i b) (hres : b.res = a.res) : i = q := by
  obtain ⟨j, c, hj, hc, hcres, hcase⟩ := h.exists_owner hi hret
  have hjq : j = q :=
    h.owner_unique j q c a hj hq hc ⟨hown, fun hr ↦ hr.2 hcount⟩ (hcres.trans hres)
  subst hjq
  rw [hq] at hj
  obtain rfl := Option.some.inj hj
  exact hcase.resolve_right fun hlive ↦ hlive hdone

/-- When all other nodes with the resource of `p` have handed it over, no child of `p` shares it. -/
theorem Inv.sharers_eq_empty (h : Inv root s) (hp : s.node p = some b)
    (halone : ∀ i c, s.node i = some c → i ≠ p → c.res = b.res → Retired s i c) :
    sharers s p b.res = ∅ := by
  rw [Set.eq_empty_iff_forall_notMem]
  rintro i ⟨c, hi, hpar, hres⟩
  have hip : i ≠ p := fun heq ↦ h.parent_ne_self hi (heq ▸ hpar)
  have hret := halone i c hi hip hres
  exact hret.2 (h.done_count i c hi hret.1 ⟨p, b, hpar, hp, hres.symm⟩)

/-- ... and `p` does not share it with its parent. -/
theorem Inv.not_shares (h : Inv root s) (hp : s.node p = some b)
    (halone : ∀ i c, s.node i = some c → i ≠ p → c.res = b.res → Retired s i c) :
    ¬ Shares s b := by
  rintro ⟨q, c, hpar, hq, hres⟩
  have hqp : q ≠ p := fun heq ↦ h.parent_ne_self hp (heq ▸ hpar)
  obtain ⟨c', hc', hlive⟩ := h.live_of_parent hp hpar
  obtain rfl : c' = c := Option.some.inj (hc'.symm.trans hq)
  exact hlive (halone q c' hq hqp hres).1

end

variable [DecidableEq ι]

/-! ### The root alone -/

/-- The forest of the root, with a resource of its own. -/
def single (root : ι) (r : ρ) : State ι ρ where
  node i := if i = root then some ⟨False, none, r⟩ else none
  count _ := 0
  held := {r}

theorem single_node_eq_some_iff {root i : ι} {r : ρ} {c : Node ι ρ} :
    (single root r).node i = some c ↔ i = root ∧ c = ⟨False, none, r⟩ := by
  show ite _ _ _ = _ ↔ _
  split_ifs with hi <;> simp [hi, eq_comm]

theorem Inv.single (root : ι) (r : ρ) : Inv root (single root r) := by
  have hparent : ∀ i (a : Node ι ρ), (OwnerForest.single root r).node i = some a →
      a.parent = none := by
    intro i a hi
    rw [(single_node_eq_some_iff.1 hi).2]
  refine ⟨⟨_, single_node_eq_some_iff.2 ⟨rfl, rfl⟩, id, rfl⟩, ?_,
    ⟨fun _ ↦ 0, ?_⟩, ?_, ?_, ?_, ?_, ?_⟩
  · exact fun i a hi hne ↦ absurd (single_node_eq_some_iff.1 hi).1 hne
  · exact fun i a p hi hp ↦ by simp [hparent i a hi] at hp
  · intro p b _ _
    have hnone : sharers (OwnerForest.single root r) p b.res = ∅ := by
      rw [Set.eq_empty_iff_forall_notMem]
      rintro i ⟨a, hi, hp, -⟩
      simp [hparent i a hi] at hp
    rw [hnone, Set.ncard_empty]
    rfl
  · exact fun _ _ _ _ _ ↦ rfl
  · exact fun i j a b hi hj _ _ _ ↦
      (single_node_eq_some_iff.1 hi).1.trans (single_node_eq_some_iff.1 hj).1.symm
  · exact fun i a _ _ hret _ ↦ absurd rfl hret.2
  · intro i a hi _
    rw [(single_node_eq_some_iff.1 hi).2]
    exact Set.mem_singleton r

/-! ### A new child -/

open scoped Classical in
/-- A new child `q` of `p` with resource `r`: the resource of `p`, in which case `p` counts it, or
another one. -/
noncomputable def add (s : State ι ρ) (p q : ι) (r : ρ) : State ι ρ where
  node := Function.update s.node q (some ⟨False, some p, r⟩)
  count := Function.update
    (if ∃ b, s.node p = some b ∧ b.res = r then Function.update s.count p (s.count p + 1)
      else s.count) q 0
  held := insert r s.held

section

variable {root : ι} {s : State ι ρ} {p q : ι} {b : Node ι ρ} {r : ρ}

/-- The new node, and the old ones. -/
theorem add_node_eq_some_iff {i : ι} {c : Node ι ρ} :
    (add s p q r).node i = some c ↔
      i = q ∧ c = ⟨False, some p, r⟩ ∨ i ≠ q ∧ s.node i = some c := by
  by_cases hi : i = q
  · subst hi
    simp [add, eq_comm]
  · simp [add, hi]

theorem add_count_self : (add s p q r).count q = 0 := Function.update_self _ _ _

theorem add_count_of_ne {i : ι} (hq : i ≠ q) (hp : i ≠ p) :
    (add s p q r).count i = s.count i := by
  show Function.update _ q 0 i = _
  rw [Function.update_of_ne hq]
  split
  · exact Function.update_of_ne hp _ _
  · rfl

theorem add_count_parent_of_eq (hpq : p ≠ q) (hp : s.node p = some b) (hr : b.res = r) :
    (add s p q r).count p = s.count p + 1 := by
  show Function.update _ q 0 p = _
  rw [Function.update_of_ne hpq, if_pos ⟨b, hp, hr⟩, Function.update_self]

theorem add_count_parent_of_ne (hpq : p ≠ q) (hp : s.node p = some b) (hr : b.res ≠ r) :
    (add s p q r).count p = s.count p := by
  show Function.update _ q 0 p = _
  rw [Function.update_of_ne hpq, if_neg]
  rintro ⟨b', hb', hr'⟩
  rw [hp] at hb'
  exact hr (Option.some.inj hb' ▸ hr')

/-- The children of `p` with resource `r` are one more. -/
theorem mem_sharers_add_iff (hq : s.node q = none) {i j : ι} {r' : ρ} :
    i ∈ sharers (add s p q r) j r' ↔ (i = q ∧ j = p ∧ r' = r) ∨ i ∈ sharers s j r' := by
  constructor
  · rintro ⟨a, ha, hpar, hres⟩
    rcases add_node_eq_some_iff.1 ha with ⟨rfl, rfl⟩ | ⟨-, ha⟩
    · exact .inl ⟨rfl, (Option.some.inj hpar).symm, hres.symm⟩
    · exact .inr ⟨a, ha, hpar, hres⟩
  · rintro (⟨rfl, rfl, rfl⟩ | ⟨a, ha, hpar, hres⟩)
    · exact ⟨_, add_node_eq_some_iff.2 (.inl ⟨rfl, rfl⟩), rfl, rfl⟩
    · refine ⟨a, add_node_eq_some_iff.2 (.inr ⟨?_, ha⟩), hpar, hres⟩
      rintro rfl
      rw [ha] at hq
      cases hq

theorem add_node_of_old (hq : s.node q = none) {i : ι} {a : Node ι ρ} (hi : s.node i = some a) :
    (add s p q r).node i = some a :=
  add_node_eq_some_iff.2 (.inr ⟨ne_of_node_eq_none hq hi, hi⟩)

/-- An old node shares with its parent as before. -/
theorem Inv.shares_add_iff (h : Inv root s) (hq : s.node q = none) {i : ι} {a : Node ι ρ}
    (hi : s.node i = some a) : Shares (OwnerForest.add s p q r) a ↔ Shares s a := by
  refine exists_congr fun p' ↦ exists_congr fun b' ↦ and_congr_right fun hp' ↦ ?_
  refine and_congr_left fun _ ↦ ⟨fun hb' ↦ ?_, fun hb' ↦ add_node_of_old hq hb'⟩
  rcases add_node_eq_some_iff.1 hb' with ⟨rfl, -⟩ | ⟨-, hb'⟩
  · exact absurd hp' (h.parent_ne_of_node_eq_none hq hi)
  · exact hb'

theorem retired_add_iff (hp : s.node p = some b) (hlive : ¬ b.done) (hq : s.node q = none) {i : ι}
    {a : Node ι ρ} (hi : s.node i = some a) :
    Retired (OwnerForest.add s p q r) i a ↔ Retired s i a := by
  by_cases hip : i = p
  · subst hip
    obtain rfl : b = a := Option.some.inj (hp.symm.trans hi)
    exact ⟨fun hr ↦ absurd hr.1 hlive, fun hr ↦ absurd hr.1 hlive⟩
  · rw [Retired, Retired, add_count_of_ne (ne_of_node_eq_none hq hi) hip]

/-- The parent counts the new child when it shares with it. -/
theorem Inv.count_add [Finite ι] (h : Inv root s) (hp : s.node p = some b)
    (hq : s.node q = none) {i : ι} {c : Node ι ρ} (hi : s.node i = some c) (hc : ¬ c.done) :
    (OwnerForest.add s p q r).count i = (sharers (OwnerForest.add s p q r) i c.res).ncard := by
  have hpq : p ≠ q := ne_of_node_eq_none hq hp
  by_cases hip : i = p ∧ c.res = r
  · obtain ⟨rfl, hres⟩ := hip
    have hinsert : sharers (OwnerForest.add s i q r) i c.res = insert q (sharers s i c.res) := by
      ext j
      rw [mem_sharers_add_iff hq, Set.mem_insert_iff]
      exact or_congr_left (and_iff_left ⟨rfl, hres⟩)
    have hnot : q ∉ sharers s i c.res := fun ⟨a, ha, _⟩ ↦ ne_of_node_eq_none hq ha rfl
    rw [add_count_parent_of_eq hpq hi hres, hinsert, Set.ncard_insert_of_notMem hnot,
      h.count i c hi hc]
    push_cast
    rfl
  · have hsame : sharers (OwnerForest.add s p q r) i c.res = sharers s i c.res := by
      ext j
      rw [mem_sharers_add_iff hq]
      exact or_iff_right fun hj ↦ hip hj.2
    have hcount : (OwnerForest.add s p q r).count i = s.count i := by
      by_cases hip' : i = p
      · subst hip'
        exact add_count_parent_of_ne hpq hi fun hres ↦ hip ⟨rfl, hres⟩
      · exact add_count_of_ne (ne_of_node_eq_none hq hi) hip'
    rw [hsame, hcount]
    exact h.count i c hi hc

/-- A new child keeps the invariant, when it takes its parent's resource or one that is not
allocated. -/
theorem Inv.add [Finite ι] (h : Inv root s) (hp : s.node p = some b) (hlive : ¬ b.done)
    (hq : s.node q = none) (hr : r = b.res ∨ r ∉ s.held) :
    Inv root (add s p q r) := by
  have hold {i a} (hi : s.node i = some a) := add_node_of_old (p := p) (r := r) hq hi
  have hretired {i a} (hi : s.node i = some a) := retired_add_iff (r := r) hp hlive hq hi
  have hshares {i a} (hi : s.node i = some a) := h.shares_add_iff (p := p) (r := r) hq hi
  have howner : ∀ {i a}, s.node i = some a →
      (Owner (OwnerForest.add s p q r) i a ↔ Owner s i a) :=
    fun hi ↦ and_congr (not_congr (hshares hi)) (not_congr (hretired hi))
  -- the new child is an owner only of a resource of its own
  have hnew : Owner (OwnerForest.add s p q r) q ⟨False, some p, r⟩ →
      ∀ i a, s.node i = some a → Owner (OwnerForest.add s p q r) i a → a.res ≠ r := by
    rintro hown i a hi hoi rfl
    rcases hr with hres | hfree
    · exact hown.1 ⟨p, b, rfl, hold hp, hres.symm⟩
    · exact hfree (h.held i a hi ((howner hi).1 hoi).2)
  refine ⟨?_, ?_, ?_, ?_, ?_, ?_, ?_, ?_⟩
  · obtain ⟨c, hc, hrest⟩ := h.root_node
    exact ⟨c, hold hc, hrest⟩
  · intro i c hi' hroot
    rcases add_node_eq_some_iff.1 hi' with ⟨rfl, rfl⟩ | ⟨-, hi⟩
    · exact ⟨p, b, rfl, hold hp, hlive⟩
    · obtain ⟨p', b', hp', hb', hrest⟩ := h.parent_live i c hi hroot
      exact ⟨p', b', hp', hold hb', hrest⟩
  · obtain ⟨rank, hrank⟩ := h.ranked
    refine ⟨Function.update rank q (rank p + 1), fun i c p' hi' hp' ↦ ?_⟩
    rcases add_node_eq_some_iff.1 hi' with ⟨rfl, rfl⟩ | ⟨hiq, hi⟩
    · obtain rfl : p = p' := Option.some.inj hp'
      rw [Function.update_self, Function.update_of_ne (ne_of_node_eq_none hq hp)]
      exact Nat.lt_succ_self _
    · have hp'q : p' ≠ q := fun heq ↦ h.parent_ne_of_node_eq_none hq hi (heq ▸ hp')
      rw [Function.update_of_ne hiq, Function.update_of_ne hp'q]
      exact hrank i c p' hi hp'
  · intro i c hi' hc
    rcases add_node_eq_some_iff.1 hi' with ⟨rfl, rfl⟩ | ⟨hiq, hi⟩
    · have hnone : sharers (OwnerForest.add s p i r) i r = ∅ := by
        rw [Set.eq_empty_iff_forall_notMem]
        rintro j hj
        rcases (mem_sharers_add_iff hq).1 hj with ⟨-, hip, -⟩ | ⟨a, ha, hpar, -⟩
        · exact ne_of_node_eq_none hq hp hip.symm
        · exact h.parent_ne_of_node_eq_none hq ha hpar
      rw [add_count_self, hnone, Set.ncard_empty]
      rfl
    · exact h.count_add hp hq hi hc
  · intro i c hi' hc hsh
    rcases add_node_eq_some_iff.1 hi' with ⟨rfl, rfl⟩ | ⟨hiq, hi⟩
    · exact absurd hc id
    · have hip : i ≠ p := by
        rintro rfl
        rw [hp] at hi
        exact hlive (Option.some.inj hi ▸ hc)
      rw [add_count_of_ne hiq hip]
      exact h.done_count i c hi hc ((hshares hi).1 hsh)
  · intro i j a c hi' hj' hoi hoj hres
    rcases add_node_eq_some_iff.1 hi' with ⟨rfl, rfl⟩ | ⟨hiq, hi⟩
    · rcases add_node_eq_some_iff.1 hj' with ⟨rfl, rfl⟩ | ⟨-, hj⟩
      · rfl
      · exact absurd hres.symm (hnew hoi j c hj hoj)
    · rcases add_node_eq_some_iff.1 hj' with ⟨rfl, rfl⟩ | ⟨-, hj⟩
      · exact absurd hres (hnew hoj i a hi hoi)
      · exact h.owner_unique i j a c hi hj ((howner hi).1 hoi) ((howner hj).1 hoj) hres
  · intro i a c hi' hret hc
    obtain ⟨c', hc', -⟩ := h.root_node
    obtain rfl : c' = c := Option.some.inj ((hold hc').symm.trans hc)
    rcases add_node_eq_some_iff.1 hi' with ⟨rfl, rfl⟩ | ⟨hiq, hi⟩
    · exact absurd hret.1 id
    · exact h.retired_root i a c' hi ((hretired hi).1 hret) hc'
  · intro i a hi' hret
    rcases add_node_eq_some_iff.1 hi' with ⟨rfl, rfl⟩ | ⟨hiq, hi⟩
    · exact Set.mem_insert _ _
    · exact Set.mem_insert_of_mem _ (h.held i a hi fun hr ↦ hret ((hretired hi).2 hr))

end

/-! ### A new resource for a node -/

/-- Node `p`, which is `b`, exchanges its resource for `r`. -/
def swap (s : State ι ρ) (p : ι) (b : Node ι ρ) (r : ρ) : State ι ρ where
  node := Function.update s.node p (some { b with res := r })
  count := s.count
  held := insert r (s.held \ {b.res})

section

variable {root : ι} {s : State ι ρ} {p : ι} {b : Node ι ρ} {r : ρ}

theorem swap_node_eq_some_iff {i : ι} {c : Node ι ρ} :
    (swap s p b r).node i = some c ↔
      i = p ∧ c = { b with res := r } ∨ i ≠ p ∧ s.node i = some c := by
  by_cases hi : i = p
  · subst hi
    simp [swap, eq_comm]
  · simp [swap, hi]

theorem swap_node_self : (swap s p b r).node p = some { b with res := r } :=
  swap_node_eq_some_iff.2 (.inl ⟨rfl, rfl⟩)

theorem swap_node_of_ne {i : ι} {c : Node ι ρ} (hip : i ≠ p) (hi : s.node i = some c) :
    (swap s p b r).node i = some c :=
  swap_node_eq_some_iff.2 (.inr ⟨hip, hi⟩)

omit [DecidableEq ι] in
/-- The new resource is nobody's: what is not allocated is at most the leftover of a node that has
handed it over, and no such node is a child of `p`. -/
theorem Inv.child_res_ne (h : Inv root s) (hr : r ∉ s.held)
    (hstale : ∀ i c, s.node i = some c → Retired s i c → c.parent = some p → c.res ≠ r)
    {i : ι} {c : Node ι ρ} (hi : s.node i = some c) (hpar : c.parent = some p) : c.res ≠ r := by
  by_cases hret : Retired s i c
  · exact hstale i c hi hret hpar
  · exact fun heq ↦ hr (heq ▸ h.held i c hi hret)

/-- Another node shares with its parent as before. -/
theorem Inv.shares_swap_iff (h : Inv root s) (hp : s.node p = some b)
    (halone : ∀ i c, s.node i = some c → i ≠ p → c.res = b.res → Retired s i c)
    (hchild : ∀ i c, s.node i = some c → c.parent = some p → c.res ≠ r) {i : ι} {c : Node ι ρ}
    (hi : s.node i = some c) : Shares (OwnerForest.swap s p b r) c ↔ Shares s c := by
  constructor
  · rintro ⟨q, d, hpar, hq, hres⟩
    rcases swap_node_eq_some_iff.1 hq with ⟨rfl, rfl⟩ | ⟨-, hq⟩
    · exact absurd hres.symm (hchild i c hi hpar)
    · exact ⟨q, d, hpar, hq, hres⟩
  · rintro ⟨q, d, hpar, hq, hres⟩
    refine ⟨q, d, hpar, swap_node_of_ne ?_ hq, hres⟩
    rintro rfl
    obtain rfl : b = d := Option.some.inj (hp.symm.trans hq)
    have hmem : i ∈ sharers s q b.res := ⟨c, hi, hpar, hres.symm⟩
    rw [h.sharers_eq_empty hp halone] at hmem
    exact hmem

/-- The other nodes count the children they had. -/
theorem Inv.sharers_swap (h : Inv root s) (hp : s.node p = some b)
    (halone : ∀ i c, s.node i = some c → i ≠ p → c.res = b.res → Retired s i c) (hr : r ∉ s.held)
    {j : ι} {c : Node ι ρ} (hjp : j ≠ p) (hj : s.node j = some c) (hc : ¬ c.done) :
    sharers (OwnerForest.swap s p b r) j c.res = sharers s j c.res := by
  ext i
  constructor
  · rintro ⟨d, hi, hpar, hres⟩
    rcases swap_node_eq_some_iff.1 hi with ⟨rfl, rfl⟩ | ⟨-, hi⟩
    · have hres' : r = c.res := hres
      exact absurd (hres' ▸ h.held j c hj fun hret ↦ hc hret.1) hr
    · exact ⟨d, hi, hpar, hres⟩
  · rintro ⟨d, hi, hpar, hres⟩
    refine ⟨d, swap_node_of_ne ?_ hi, hpar, hres⟩
    rintro rfl
    obtain rfl : b = d := Option.some.inj (hp.symm.trans hi)
    exact h.not_shares hp halone ⟨j, c, hpar, hj, hres.symm⟩

/-- Exchanging a resource keeps the invariant, when nobody else is left with the old one, the new
one is not allocated, and no node that handed it over is a child of `p` (of the root, to which such
a node can come, for `p` the root). -/
theorem Inv.swap (h : Inv root s) (hp : s.node p = some b) (hlive : ¬ b.done)
    (halone : ∀ i c, s.node i = some c → i ≠ p → c.res = b.res → Retired s i c) (hr : r ∉ s.held)
    (hstale : ∀ i c, s.node i = some c → Retired s i c → c.parent = some p ∨ p = root →
      c.res ≠ r) : Inv root (swap s p b r) := by
  -- nobody has the new resource: who is not retired has an allocated one, and who is retired is no
  -- child of `p`
  have hchild : ∀ i c, s.node i = some c → c.parent = some p → c.res ≠ r :=
    fun i c hi ↦ h.child_res_ne hr (fun i c hi hret hpar ↦ hstale i c hi hret (.inl hpar)) hi
  have hshares {i c} (hi : s.node i = some c) := h.shares_swap_iff hp halone hchild hi
  have hfresh : ∀ i c, s.node i = some c → ¬ Retired s i c → c.res ≠ r :=
    fun i c hi hret heq ↦ hr (heq ▸ h.held i c hi hret)
  refine ⟨?_, ?_, ?_, ?_, ?_, ?_, ?_, ?_⟩
  · obtain ⟨c, hc, hdone, hnone⟩ := h.root_node
    by_cases hroot : root = p
    · subst hroot
      obtain rfl : b = c := Option.some.inj (hp.symm.trans hc)
      exact ⟨_, swap_node_self, hdone, hnone⟩
    · exact ⟨c, swap_node_of_ne hroot hc, hdone, hnone⟩
  · intro i c hi' hroot
    have hparent : ∀ d, s.node i = some d → d.parent = c.parent → ∃ q e, c.parent = some q ∧
        (OwnerForest.swap s p b r).node q = some e ∧ ¬ e.done := by
      intro d hd hpar
      obtain ⟨q, e, hq, he, hdone⟩ := h.parent_live i d hd hroot
      by_cases hqp : q = p
      · subst hqp
        exact ⟨q, _, hpar ▸ hq, swap_node_self, hlive⟩
      · exact ⟨q, e, hpar ▸ hq, swap_node_of_ne hqp he, hdone⟩
    rcases swap_node_eq_some_iff.1 hi' with ⟨rfl, rfl⟩ | ⟨-, hi⟩
    · exact hparent b hp rfl
    · exact hparent c hi rfl
  · obtain ⟨rank, hrank⟩ := h.ranked
    refine ⟨rank, fun i c q hi' hq ↦ ?_⟩
    rcases swap_node_eq_some_iff.1 hi' with ⟨rfl, rfl⟩ | ⟨-, hi⟩
    · exact hrank i b q hp hq
    · exact hrank i c q hi hq
  · intro j c hj' hc
    rcases swap_node_eq_some_iff.1 hj' with ⟨rfl, rfl⟩ | ⟨hjp, hj⟩
    · have hnone : sharers (OwnerForest.swap s j b r) j r = ∅ := by
        rw [Set.eq_empty_iff_forall_notMem]
        rintro i ⟨d, hi', hpar, hres⟩
        rcases swap_node_eq_some_iff.1 hi' with ⟨rfl, rfl⟩ | ⟨-, hi⟩
        · exact h.parent_ne_self hp hpar
        · exact hchild i d hi hpar hres
      show s.count j = _
      rw [hnone, h.count j b hp hlive, h.sharers_eq_empty hp halone]
    · rw [h.sharers_swap hp halone hr hjp hj hc]
      exact h.count j c hj hc
  · intro i c hi' hc hsh
    rcases swap_node_eq_some_iff.1 hi' with ⟨rfl, rfl⟩ | ⟨-, hi⟩
    · exact absurd hc hlive
    · exact h.done_count i c hi hc ((hshares hi).1 hsh)
  · intro i j c d hi' hj' hoi hoj hres
    rcases swap_node_eq_some_iff.1 hi' with ⟨rfl, rfl⟩ | ⟨-, hi⟩
    · rcases swap_node_eq_some_iff.1 hj' with ⟨rfl, rfl⟩ | ⟨-, hj⟩
      · rfl
      · exact absurd hres.symm (hfresh j d hj hoj.2)
    · rcases swap_node_eq_some_iff.1 hj' with ⟨rfl, rfl⟩ | ⟨-, hj⟩
      · exact absurd hres (hfresh i c hi hoi.2)
      · exact h.owner_unique i j c d hi hj ⟨fun hs ↦ hoi.1 ((hshares hi).2 hs), hoi.2⟩
          ⟨fun hs ↦ hoj.1 ((hshares hj).2 hs), hoj.2⟩ hres
  · intro i c d hi' hret hd'
    rcases swap_node_eq_some_iff.1 hi' with ⟨rfl, rfl⟩ | ⟨-, hi⟩
    · exact absurd hret.1 hlive
    · rcases swap_node_eq_some_iff.1 hd' with ⟨rfl, rfl⟩ | ⟨-, hd⟩
      · exact hstale i c hi hret (.inr rfl)
      · exact h.retired_root i c d hi hret hd
  · intro i c hi' hret
    rcases swap_node_eq_some_iff.1 hi' with ⟨rfl, rfl⟩ | ⟨hip, hi⟩
    · exact Set.mem_insert _ _
    · refine Set.mem_insert_of_mem _ ⟨h.held i c hi hret, fun hres ↦ ?_⟩
      exact hret (halone i c hi hip hres)

end

/-! ### A node that finishes -/

/-- What becomes of node `i` when node `p` finishes: its children pass to the root. -/
def handOver (root p i : ι) (a : Node ι ρ) : Node ι ρ where
  done := a.done ∨ i = p
  parent := if a.parent = some p then some root else a.parent
  res := a.res

/-- Node `p` finishes and its children pass to the root. -/
def finish (s : State ι ρ) (root p : ι) : State ι ρ where
  node i := (s.node i).map (handOver root p i)
  count := s.count
  held := s.held

section

variable {root : ι} {s : State ι ρ} {p : ι} {b : Node ι ρ}

theorem finish_node_eq_some_iff {i : ι} {c : Node ι ρ} :
    (finish s root p).node i = some c ↔ ∃ a, s.node i = some a ∧ c = handOver root p i a := by
  show (s.node i).map _ = _ ↔ _
  rw [Option.map_eq_some_iff]
  exact exists_congr fun a ↦ and_congr_right fun _ ↦ eq_comm

theorem finish_node_of_node {i : ι} {a : Node ι ρ} (hi : s.node i = some a) :
    (finish s root p).node i = some (handOver root p i a) :=
  finish_node_eq_some_iff.2 ⟨a, hi, rfl⟩

@[simp]
theorem handOver_res {i : ι} {a : Node ι ρ} : (handOver root p i a).res = a.res := rfl

theorem handOver_parent_of_eq {i : ι} {a : Node ι ρ} (ha : a.parent = some p) :
    (handOver root p i a).parent = some root := if_pos ha

theorem handOver_parent_of_ne {i : ι} {a : Node ι ρ} (ha : a.parent ≠ some p) :
    (handOver root p i a).parent = a.parent := if_neg ha

theorem handOver_done_of_ne {i : ι} {a : Node ι ρ} (hi : i ≠ p) :
    (handOver root p i a).done ↔ a.done := or_iff_left hi

omit [DecidableEq ι] in
/-- No child of `p` has the resource of the root, when `p` has no sharing child or is an owner. -/
theorem Inv.child_res_ne_root (h : Inv root s) (hp : s.node p = some b) (hlive : ¬ b.done)
    (hroot : p ≠ root) (hshare : Shares s b → sharers s p b.res = ∅) {i : ι} {a r : Node ι ρ}
    (hi : s.node i = some a) (hpar : a.parent = some p) (hr : s.node root = some r) :
    a.res ≠ r.res := by
  intro hres
  have hret : ¬ Retired s i a := fun hret ↦ h.retired_root i a r hi hret hr hres
  by_cases hab : b.res = a.res
  · have hnot : ¬ Shares s b := by
      intro hsh
      have hmem : i ∈ sharers s p b.res := ⟨a, hi, hpar, hab.symm⟩
      rw [hshare hsh] at hmem
      exact hmem
    exact hroot (h.owner_unique p root b r hp hr ⟨hnot, fun hret ↦ hlive hret.1⟩
      (h.owner_root hr) (hab.trans hres))
  · have hnot : ¬ Shares s a := by
      rintro ⟨p', b', hp', hb', hab'⟩
      obtain rfl : p = p' := Option.some.inj (hpar.symm.trans hp')
      obtain rfl : b = b' := Option.some.inj (hp.symm.trans hb')
      exact hab hab'
    obtain rfl := h.owner_unique i root a r hi hr ⟨hnot, hret⟩ (h.owner_root hr) hres
    obtain ⟨r', hr', -, hnone⟩ := h.root_node
    rw [Option.some.inj (hi.symm.trans hr'), hnone] at hpar
    cases hpar

section

variable (h : Inv root s) (hp : s.node p = some b) (hlive : ¬ b.done) (hroot : p ≠ root)
  (hshare : Shares s b → sharers s p b.res = ∅)
include h hp hlive hroot hshare

/-- After `p` has finished, its former children share with nobody above them and all other nodes
share as before. -/
theorem Inv.shares_finish_iff {i : ι} {a : Node ι ρ} (hi : s.node i = some a) :
    Shares (OwnerForest.finish s root p) (handOver root p i a) ↔
      a.parent ≠ some p ∧ Shares s a := by
  by_cases hpar : a.parent = some p
  · refine iff_of_false ?_ fun hsh ↦ hsh.1 hpar
    rintro ⟨q, c, hq, hc, hres⟩
    obtain rfl : root = q := Option.some.inj ((handOver_parent_of_eq hpar).symm.trans hq)
    obtain ⟨r, hr, rfl⟩ := finish_node_eq_some_iff.1 hc
    exact h.child_res_ne_root hp hlive hroot hshare hi hpar hr hres.symm
  · rw [and_iff_right hpar]
    constructor
    · rintro ⟨q, c, hq, hc, hres⟩
      obtain ⟨d, hd, rfl⟩ := finish_node_eq_some_iff.1 hc
      exact ⟨q, d, handOver_parent_of_ne hpar ▸ hq, hd, hres⟩
    · rintro ⟨q, d, hq, hd, hres⟩
      exact ⟨q, _, (handOver_parent_of_ne hpar).trans hq, finish_node_of_node hd, hres⟩

/-- The nodes that stay count the children they had. -/
theorem Inv.sharers_finish {j : ι} {c : Node ι ρ} (hj : s.node j = some c) (hjp : j ≠ p) :
    sharers (OwnerForest.finish s root p) j c.res = sharers s j c.res := by
  ext i
  constructor
  · rintro ⟨d, hi', hpar, hres⟩
    obtain ⟨a, hi, rfl⟩ := finish_node_eq_some_iff.1 hi'
    by_cases hap : Node.parent a = some p
    · obtain rfl : root = j := Option.some.inj ((handOver_parent_of_eq hap).symm.trans hpar)
      have hne := h.child_res_ne_root hp hlive hroot hshare hi hap hj
      exact absurd hres hne
    · exact ⟨a, hi, handOver_parent_of_ne hap ▸ hpar, hres⟩
  · rintro ⟨a, hi, hpar, hres⟩
    have hap : a.parent ≠ some p := fun hap ↦ hjp (Option.some.inj (hpar.symm.trans hap))
    exact ⟨_, finish_node_of_node hi, (handOver_parent_of_ne hap).trans hpar, hres⟩

/-- A node that owns its resource after `p` has finished owned it before, or got it from `p`. -/
theorem Inv.owner_of_finish {i : ι} {a : Node ι ρ} (hi : s.node i = some a)
    (hown : Owner (OwnerForest.finish s root p) i (handOver root p i a)) :
    Owner s i a ∨ i ∈ sharers s p b.res := by
  have hret : ¬ Retired s i a := fun hret ↦ hown.2 ⟨.inl hret.1, hret.2⟩
  have hnot := mt (h.shares_finish_iff hp hlive hroot hshare hi).2 hown.1
  by_cases hsh : Shares s a
  · have hpar : a.parent = some p := by
      by_contra hpar
      exact hnot ⟨hpar, hsh⟩
    obtain ⟨q, c, hq, hc, hres⟩ := hsh
    obtain rfl : p = q := Option.some.inj (hpar.symm.trans hq)
    obtain rfl : b = c := Option.some.inj (hp.symm.trans hc)
    exact .inr ⟨a, hi, hpar, hres.symm⟩
  · exact .inl ⟨hsh, hret⟩

/-- A node that handed its resource over to a child is an owner no more. -/
theorem Inv.not_owner_finish [Finite ι] {i j : ι} {a : Node ι ρ} (hi : s.node i = some a)
    (hj : j ∈ sharers s p b.res) (hown : Owner s i a)
    (hown' : Owner (OwnerForest.finish s root p) i (handOver root p i a)) : a.res ≠ b.res := by
  intro hres
  have hpown : Owner s p b := by
    refine ⟨fun hsh ↦ ?_, fun hret ↦ hlive hret.1⟩
    rw [hshare hsh] at hj
    exact hj
  obtain rfl := h.owner_unique i p a b hi hp hown hpown hres
  refine hown'.2 ⟨.inr rfl, ?_⟩
  show s.count i ≠ 0
  rw [h.count i b hp hlive]
  exact Nat.cast_ne_zero.2 (Set.ncard_ne_zero_of_mem hj)

/-- A node that finishes keeps the invariant, when it has no sharing child or is an owner with one:
then that child becomes the owner. -/
theorem Inv.finish [Finite ι] (hone : (sharers s p b.res).Subsingleton) :
    Inv root (OwnerForest.finish s root p) := by
  have hchild {i a r} (hi : s.node i = some a) (hpar : a.parent = some p)
      (hr : s.node root = some r) := h.child_res_ne_root hp hlive hroot hshare hi hpar hr
  have hshares {i a} (hi : s.node i = some a) := h.shares_finish_iff hp hlive hroot hshare hi
  obtain ⟨r, hr, hrlive, hrnone⟩ := h.root_node
  have hr' : (OwnerForest.finish s root p).node root = some (handOver root p root r) :=
    finish_node_of_node hr
  have hrlive' : ¬ (handOver root p root r).done :=
    fun hdone ↦ hrlive ((handOver_done_of_ne hroot.symm).1 hdone)
  refine ⟨⟨_, hr', hrlive', ?_⟩, ?_, ?_, ?_, ?_, ?_, ?_, ?_⟩
  · exact (handOver_parent_of_ne (by simp [hrnone])).trans hrnone
  · intro i c hi' hiroot
    obtain ⟨a, hi, rfl⟩ := finish_node_eq_some_iff.1 hi'
    obtain ⟨q, d, hq, hd, hdlive⟩ := h.parent_live i a hi hiroot
    by_cases hqp : q = p
    · subst hqp
      exact ⟨root, _, handOver_parent_of_eq hq, hr', hrlive'⟩
    · have hap : a.parent ≠ some p := fun hap ↦ hqp (Option.some.inj (hq.symm.trans hap))
      exact ⟨q, _, (handOver_parent_of_ne hap).trans hq, finish_node_of_node hd,
        fun hdone ↦ hdlive ((handOver_done_of_ne hqp).1 hdone)⟩
  · obtain ⟨rank, hrank⟩ := h.ranked
    -- the root goes to the bottom, so that every other node can be its child
    refine ⟨Function.update rank root 0, fun i c q hi' hq ↦ ?_⟩
    obtain ⟨a, hi, rfl⟩ := finish_node_eq_some_iff.1 hi'
    obtain ⟨q', hq'⟩ : ∃ q', a.parent = some q' := by
      by_cases hap : a.parent = some p
      · exact ⟨p, hap⟩
      · exact ⟨q, handOver_parent_of_ne hap ▸ hq⟩
    have hiroot : i ≠ root := by
      rintro rfl
      rw [Option.some.inj (hi.symm.trans hr), hrnone] at hq'
      cases hq'
    have hlt := hrank i a q' hi hq'
    rw [Function.update_of_ne hiroot]
    by_cases hqroot : q = root
    · rw [hqroot, Function.update_self]
      omega
    · have hap : a.parent ≠ some p := fun hap ↦
        hqroot (Option.some.inj (hq.symm.trans (handOver_parent_of_eq hap)))
      rw [Function.update_of_ne hqroot]
      exact hrank i a q hi (handOver_parent_of_ne hap ▸ hq)
  · intro j c hj' hc
    obtain ⟨a, hj, rfl⟩ := finish_node_eq_some_iff.1 hj'
    have hjp : j ≠ p := fun heq ↦ hc (.inr heq)
    rw [handOver_res, h.sharers_finish hp hlive hroot hshare hj hjp]
    exact h.count j a hj fun hdone ↦ hc (.inl hdone)
  · intro i c hi' hc hsh
    obtain ⟨a, hi, rfl⟩ := finish_node_eq_some_iff.1 hi'
    have hsh' := ((hshares hi).1 hsh).2
    rcases hc with hdone | rfl
    · exact h.done_count i a hi hdone hsh'
    · obtain rfl : b = a := Option.some.inj (hp.symm.trans hi)
      show s.count i = 0
      rw [h.count i b hp hlive, hshare hsh', Set.ncard_empty]
      rfl
  · intro i j c d hi' hj' hoi hoj hres
    obtain ⟨a, hi, rfl⟩ := finish_node_eq_some_iff.1 hi'
    obtain ⟨e, hj, rfl⟩ := finish_node_eq_some_iff.1 hj'
    rw [handOver_res, handOver_res] at hres
    have hnot {k l g} (hk : s.node k = some g) (hl : l ∈ sharers s p b.res) (hown : Owner s k g)
        (hown' : Owner (OwnerForest.finish s root p) k (handOver root p k g)) :=
      h.not_owner_finish hp hlive hroot hshare hk hl hown hown'
    rcases h.owner_of_finish hp hlive hroot hshare hi hoi with hi₁ | hi₁ <;>
      rcases h.owner_of_finish hp hlive hroot hshare hj hoj with hj₁ | hj₁
    · exact h.owner_unique i j a e hi hj hi₁ hj₁ hres
    · have hne := hnot hi hj₁ hi₁ hoi
      exact absurd (hres.trans (res_of_mem_sharers hj hj₁)) hne
    · have hne := hnot hj hi₁ hj₁ hoj
      exact absurd (hres.symm.trans (res_of_mem_sharers hi hi₁)) hne
    · exact hone hi₁ hj₁
  · intro i c d hi' hret hd
    obtain ⟨a, hi, rfl⟩ := finish_node_eq_some_iff.1 hi'
    obtain rfl : handOver root p root r = d := Option.some.inj (hr'.symm.trans hd)
    rcases hret.1 with hdone | rfl
    · exact h.retired_root i a r hi ⟨hdone, hret.2⟩ hr
    · obtain rfl : b = a := Option.some.inj (hp.symm.trans hi)
      -- the count says that there is a child with the same resource
      have hne : (sharers s i b.res).ncard ≠ 0 := fun h0 ↦
        hret.2 ((h.count i b hp hlive).trans (by rw [h0]; rfl))
      obtain ⟨k, e, hk, hpar, hres⟩ := Set.nonempty_of_ncard_ne_zero hne
      have hne' := hchild hk hpar hr
      rw [hres] at hne'
      exact hne'
  · intro i c hi' hret
    obtain ⟨a, hi, rfl⟩ := finish_node_eq_some_iff.1 hi'
    exact h.held i a hi fun hr ↦ hret ⟨.inl hr.1, hr.2⟩

end

end

/-! ### A node that is removed -/

open scoped Classical in
/-- The finished node `q`, which is `a`, is removed by its parent `p`, which is `b`: the parent no
longer counts it when they share, and otherwise its resource is released when its count is zero. -/
noncomputable def remove (s : State ι ρ) (p q : ι) (a b : Node ι ρ) : State ι ρ where
  node := Function.update s.node q none
  count := Function.update
    (if a.res = b.res then Function.update s.count p (s.count p - 1) else s.count) q 0
  held := if a.res ≠ b.res ∧ s.count q = 0 then s.held \ {a.res} else s.held

section

variable {root : ι} {s : State ι ρ} {p q : ι} {a b : Node ι ρ}

theorem remove_node_eq_some_iff {i : ι} {c : Node ι ρ} :
    (remove s p q a b).node i = some c ↔ i ≠ q ∧ s.node i = some c := by
  by_cases hi : i = q
  · subst hi
    simp [remove]
  · simp [remove, hi]

theorem remove_count_of_ne {i : ι} (hq : i ≠ q) (hp : i ≠ p) :
    (remove s p q a b).count i = s.count i := by
  show Function.update _ q 0 i = _
  rw [Function.update_of_ne hq]
  split
  · exact Function.update_of_ne hp _ _
  · rfl

theorem remove_count_self : (remove s p q a b).count q = 0 := Function.update_self _ _ _

theorem remove_count_parent_of_eq (hpq : p ≠ q) (hr : a.res = b.res) :
    (remove s p q a b).count p = s.count p - 1 := by
  show Function.update _ q 0 p = _
  rw [Function.update_of_ne hpq, if_pos hr, Function.update_self]

theorem remove_count_parent_of_ne (hpq : p ≠ q) (hr : a.res ≠ b.res) :
    (remove s p q a b).count p = s.count p := by
  show Function.update _ q 0 p = _
  rw [Function.update_of_ne hpq, if_neg hr]

theorem mem_remove_held_iff {r : ρ} :
    r ∈ (remove s p q a b).held ↔
      r ∈ s.held ∧ ¬ (a.res ≠ b.res ∧ s.count q = 0 ∧ r = a.res) := by
  by_cases hfree : a.res ≠ b.res ∧ s.count q = 0
  · rw [remove, if_pos hfree]
    simp [hfree]
  · rw [remove, if_neg hfree]
    grind

section

variable (h : Inv root s) (hq : s.node q = some a) (hdone : a.done) (hpar : a.parent = some p)
  (hp : s.node p = some b)
include h hq hdone hpar hp

omit hdone in
/-- The parent counts one child less when it shares with the one that is removed. -/
theorem Inv.count_remove [Finite ι] {j : ι} {c : Node ι ρ} (hj : s.node j = some c)
    (hjq : j ≠ q) (hc : ¬ c.done) :
    (OwnerForest.remove s p q a b).count j =
      (sharers (OwnerForest.remove s p q a b) j c.res).ncard := by
  have hdiff : sharers (OwnerForest.remove s p q a b) j c.res = sharers s j c.res \ {q} := by
    ext i
    constructor
    · rintro ⟨d, hi, hdpar, hres⟩
      obtain ⟨hiq, hi⟩ := remove_node_eq_some_iff.1 hi
      exact ⟨⟨d, hi, hdpar, hres⟩, hiq⟩
    · rintro ⟨⟨d, hi, hdpar, hres⟩, hiq⟩
      exact ⟨d, remove_node_eq_some_iff.2 ⟨hiq, hi⟩, hdpar, hres⟩
  rw [hdiff]
  by_cases hmem : q ∈ sharers s j c.res
  · obtain ⟨a', ha', hpar', hres⟩ := hmem
    obtain rfl : a = a' := Option.some.inj (hq.symm.trans ha')
    obtain rfl : p = j := Option.some.inj (hpar.symm.trans hpar')
    obtain rfl : b = c := Option.some.inj (hp.symm.trans hj)
    have hcard := Set.ncard_sdiff_singleton_add_one (s := sharers s p b.res)
      ⟨a, ha', hpar', hres⟩ (Set.toFinite _)
    rw [remove_count_parent_of_eq hjq hres, h.count p b hp hc, ← hcard]
    push_cast
    exact add_sub_cancel_right _ _
  · rw [Set.sdiff_singleton_eq_self hmem, ← h.count j c hj hc]
    by_cases hjp : j = p
    · subst hjp
      obtain rfl : b = c := Option.some.inj (hp.symm.trans hj)
      exact remove_count_parent_of_ne hjq fun hres ↦ hmem ⟨a, hq, hpar, hres⟩
    · exact remove_count_of_ne hjq hjp

/-- Removing a finished node keeps the invariant. -/
theorem Inv.remove [Finite ι] : Inv root (OwnerForest.remove s p q a b) := by
  have hchild {i c} (hi : s.node i = some c) : c.parent ≠ some q :=
    h.parent_ne (fun d hd ↦ Option.some.inj (hq.symm.trans hd) ▸ hdone) hi
  obtain ⟨b', hb', hlive⟩ := h.live_of_parent hq hpar
  obtain rfl : b = b' := Option.some.inj (hp.symm.trans hb')
  have hshares : ∀ {i c}, s.node i = some c →
      (Shares (OwnerForest.remove s p q a b) c ↔ Shares s c) := by
    intro i c hi
    refine exists_congr fun p' ↦ exists_congr fun d ↦ and_congr_right fun hp' ↦ ?_
    refine and_congr_left fun _ ↦ remove_node_eq_some_iff.trans (and_iff_right ?_)
    rintro rfl
    exact hchild hi hp'
  have hretired : ∀ {i c}, s.node i = some c → i ≠ q →
      (Retired (OwnerForest.remove s p q a b) i c ↔ Retired s i c) := by
    intro i c hi hiq
    by_cases hip : i = p
    · subst hip
      obtain rfl : b = c := Option.some.inj (hp.symm.trans hi)
      exact ⟨fun hr ↦ absurd hr.1 hlive, fun hr ↦ absurd hr.1 hlive⟩
    · rw [Retired, Retired, remove_count_of_ne hiq hip]
  have howner : ∀ {i c}, s.node i = some c → i ≠ q →
      (Owner (OwnerForest.remove s p q a b) i c ↔ Owner s i c) :=
    fun hi hiq ↦ and_congr (not_congr (hshares hi)) (not_congr (hretired hi hiq))
  refine ⟨?_, ?_, ?_, ?_, ?_, ?_, ?_, ?_⟩
  · obtain ⟨c, hc, hclive, hnone⟩ := h.root_node
    refine ⟨c, remove_node_eq_some_iff.2 ⟨?_, hc⟩, hclive, hnone⟩
    rintro rfl
    exact hclive (Option.some.inj (hq.symm.trans hc) ▸ hdone)
  · intro i c hi' hroot
    obtain ⟨hiq, hi⟩ := remove_node_eq_some_iff.1 hi'
    obtain ⟨p', d, hp', hd, hdlive⟩ := h.parent_live i c hi hroot
    refine ⟨p', d, hp', remove_node_eq_some_iff.2 ⟨?_, hd⟩, hdlive⟩
    rintro rfl
    exact hchild hi hp'
  · obtain ⟨rank, hrank⟩ := h.ranked
    exact ⟨rank, fun i c p' hi' hp' ↦ hrank i c p' (remove_node_eq_some_iff.1 hi').2 hp'⟩
  · intro j c hj' hc
    obtain ⟨hjq, hj⟩ := remove_node_eq_some_iff.1 hj'
    exact h.count_remove hq hpar hp hj hjq hc
  · intro i c hi' hc hsh
    obtain ⟨hiq, hi⟩ := remove_node_eq_some_iff.1 hi'
    have hip : i ≠ p := by
      rintro rfl
      exact hlive (Option.some.inj (hp.symm.trans hi) ▸ hc)
    rw [remove_count_of_ne hiq hip]
    exact h.done_count i c hi hc ((hshares hi).1 hsh)
  · intro i j c d hi' hj' hoi hoj hres
    obtain ⟨hiq, hi⟩ := remove_node_eq_some_iff.1 hi'
    obtain ⟨hjq, hj⟩ := remove_node_eq_some_iff.1 hj'
    exact h.owner_unique i j c d hi hj ((howner hi hiq).1 hoi) ((howner hj hjq).1 hoj) hres
  · intro i c d hi' hret hd'
    obtain ⟨hiq, hi⟩ := remove_node_eq_some_iff.1 hi'
    exact h.retired_root i c d hi ((hretired hi hiq).1 hret) (remove_node_eq_some_iff.1 hd').2
  · intro i c hi' hret
    obtain ⟨hiq, hi⟩ := remove_node_eq_some_iff.1 hi'
    have hret' : ¬ Retired s i c := fun hr ↦ hret ((hretired hi hiq).2 hr)
    refine mem_remove_held_iff.2 ⟨h.held i c hi hret', ?_⟩
    -- only the finished owner itself used the resource that is released
    rintro ⟨hne, hcount, hres⟩
    refine hiq (h.eq_of_res_eq hq hdone hcount ?_ hi hret' hres)
    rintro ⟨p', d, hp', hd, hshare⟩
    obtain rfl : p = p' := Option.some.inj (hpar.symm.trans hp')
    obtain rfl : b = d := Option.some.inj (hp.symm.trans hd)
    exact hne hshare.symm

end

end

end OwnerForest
