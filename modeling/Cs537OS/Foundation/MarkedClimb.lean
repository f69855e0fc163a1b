import Mathlib.Data.Set.Lattice
import Mathlib.Dynamics.PeriodicPts.Defs

/-!
# Climbing with marks

Following a `parent` function upwards from a start, to the first ancestor that is `done`.

* `Ends` — the climb reaches such an ancestor;
* `climb` — the nodes it passes on the way, the last one excluded: those that a search which marks
  the nodes it passes leaves marked;
* `passed` — the nodes that the climbs from a set of starts pass together.

A climb that ends meets no node twice (`Ends.notMem_climb_parent`), and the climb from a node on a
climb is a part of it (`climb_subset`): a start that an earlier climb passed adds nothing
(`passed_insert_of_mem`).

Nodes are of any type and the `parent` function is arbitrary: nothing is assumed of its shape.
-/

namespace MarkedClimb

variable {α : Type*} {parent : α → α} {done : α → Prop}

variable (parent done) in
/-- The climb from `d` ends: some ancestor is done. -/
def Ends (d : α) : Prop := ∃ n, done (parent^[n] d)

variable (parent done) in
/-- The nodes the climb from `d` passes: the ancestors up to the first one that is done, itself
excluded. -/
def climb (d : α) : Set α := {x | ∃ n, parent^[n] d = x ∧ ∀ m ≤ n, ¬ done (parent^[m] d)}

variable (parent done) in
/-- The nodes that the climbs from the starts `ds` pass. -/
def passed (ds : Set α) : Set α := {x | ∃ d ∈ ds, x ∈ climb parent done d}

theorem ends_of_done {d : α} (h : done d) : Ends parent done d := ⟨0, h⟩

theorem ends_iff_parent {d : α} (h : ¬ done d) :
    Ends parent done d ↔ Ends parent done (parent d) := by
  constructor
  · rintro ⟨n, hn⟩
    cases n with
    | zero => exact absurd hn h
    | succ n => exact ⟨n, hn⟩
  · rintro ⟨n, hn⟩
    exact ⟨n + 1, hn⟩

theorem mem_climb_self {d : α} (h : ¬ done d) : d ∈ climb parent done d := by
  refine ⟨0, rfl, fun m hm ↦ ?_⟩
  obtain rfl : m = 0 := Nat.le_zero.1 hm
  exact h

/-- A climb that starts at its end passes nothing. -/
theorem climb_of_done {d : α} (h : done d) : climb parent done d = ∅ := by
  rw [Set.eq_empty_iff_forall_notMem]
  rintro x ⟨n, -, hn⟩
  exact hn 0 (Nat.zero_le n) h

/-- A climb that does not start at its end passes the start and goes on from the parent. -/
theorem climb_of_not_done {d : α} (h : ¬ done d) :
    climb parent done d = insert d (climb parent done (parent d)) := by
  ext x
  rw [Set.mem_insert_iff]
  constructor
  · rintro ⟨n, rfl, hn⟩
    cases n with
    | zero => exact .inl rfl
    | succ n => exact .inr ⟨n, rfl, fun m hm ↦ hn (m + 1) (Nat.succ_le_succ hm)⟩
  · rintro (rfl | ⟨n, rfl, hn⟩)
    · exact mem_climb_self h
    · refine ⟨n + 1, rfl, fun m hm ↦ ?_⟩
      cases m with
      | zero => exact h
      | succ m => exact hn m (Nat.le_of_succ_le_succ hm)

/-- The climb from a node on a climb is a part of it. -/
theorem climb_subset {d x : α} (hx : x ∈ climb parent done d) :
    climb parent done x ⊆ climb parent done d := by
  obtain ⟨n, rfl, hn⟩ := hx
  rintro y ⟨k, rfl, hk⟩
  refine ⟨k + n, Function.iterate_add_apply parent k n d, fun m hm ↦ ?_⟩
  rcases le_total m n with h | h
  · exact hn m h
  · obtain ⟨j, rfl⟩ := Nat.exists_eq_add_of_le' h
    rw [Function.iterate_add_apply]
    exact hk j (Nat.le_of_add_le_add_right hm)

/-- A node on a climb that ends starts a climb that ends. -/
theorem Ends.of_mem_climb {d x : α} (h : Ends parent done d) (hx : x ∈ climb parent done d) :
    Ends parent done x := by
  obtain ⟨k, hk⟩ := h
  obtain ⟨n, rfl, hn⟩ := hx
  have hle : n ≤ k := by
    by_contra hlt
    exact hn k (by omega) hk
  obtain ⟨j, rfl⟩ := Nat.exists_eq_add_of_le' hle
  exact ⟨j, by rwa [← Function.iterate_add_apply]⟩

/-- **A climb that ends meets no node twice.** -/
theorem Ends.notMem_climb_parent {d : α} (h : Ends parent done d) :
    d ∉ climb parent done (parent d) := by
  rintro ⟨n, hper, hn⟩
  have hp : Function.IsPeriodicPt parent (n + 1) d := hper
  obtain ⟨k, hk⟩ := h
  -- an ancestor of a node on a cycle is one of the cycle's nodes, none of which is done
  rw [← hp.iterate_mod_apply k] at hk
  have hlt : k % (n + 1) < n + 1 := Nat.mod_lt k n.succ_pos
  rcases hr : k % (n + 1) with - | r
  · rw [hr, ← hper] at hk
    exact hn n le_rfl hk
  · rw [hr] at hk hlt
    exact hn r (by omega) hk

/-! ### Several climbs -/

theorem passed_insert (d : α) (ds : Set α) :
    passed parent done (insert d ds) = passed parent done ds ∪ climb parent done d := by
  ext x
  simp only [passed, Set.mem_ofPred_eq, Set.mem_union, Set.exists_mem_insert]
  exact or_comm

/-- A start that an earlier climb passed adds nothing. -/
theorem passed_insert_of_mem {d : α} {ds : Set α} (h : d ∈ passed parent done ds) :
    passed parent done (insert d ds) = passed parent done ds := by
  obtain ⟨d', hd', hd⟩ := h
  rw [passed_insert, Set.union_eq_left]
  exact fun x hx ↦ ⟨d', hd', climb_subset hd hx⟩

/-- Climbs that all end pass only nodes whose climbs end. -/
theorem ends_of_mem_passed {ds : Set α} (h : ∀ d ∈ ds, Ends parent done d) {x : α}
    (hx : x ∈ passed parent done ds) : Ends parent done x := by
  obtain ⟨d, hd, hx⟩ := hx
  exact (h d hd).of_mem_climb hx

end MarkedClimb
