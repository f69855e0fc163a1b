import Mathlib.Data.List.Basic
import Mathlib.Logic.Function.Basic
import Mathlib.Tactic.SplitIfs

/-!
# Tables of slots

A table has a number of slots, each empty or with a key and a value, and is searched from the front.
A new entry goes into an empty slot or behind the last one, and only if its key is not there, so no
key is there twice (`Unique`) and the table is a finite map.

* `find?_eq_none_iff`, `Unique.find?_eq_some_iff` — what a search finds;
* `Unique.put`, `Unique.get_put` — a new entry.
-/

/-- A table of slots. Only the slots below `len` count. -/
structure SlotTable (κ ν : Type*) where
  len : ℕ
  slot : ℕ → Option (κ × ν)

namespace SlotTable

variable {κ ν : Type*} (t : SlotTable κ ν)

/-- An entry is put into a slot. -/
def put (j : ℕ) (k : κ) (v : ν) : SlotTable κ ν where
  len := max t.len (j + 1)
  slot := Function.update t.slot j (some (k, v))

/-- No key is there twice. -/
def Unique : Prop := ∀ i < t.len, ∀ j < t.len, ∀ k v w,
  t.slot i = some (k, v) → t.slot j = some (k, w) → i = j

variable [DecidableEq κ]

/-- The value in slot `j`, if the key is there. -/
def look (k : κ) (j : ℕ) : Option (ℕ × ν) :=
  match t.slot j with
  | none => none
  | some (k', v) => if k' = k then some (j, v) else none

/-- The first slot with the key. -/
def find? (k : κ) : Option (ℕ × ν) := (List.range t.len).findSome? (t.look k)

/-- The value of a key. -/
def get (k : κ) : Option ν := (t.find? k).map Prod.snd

variable {t} {i j : ℕ} {k k' : κ} {v w : ν}

theorem look_eq_some_iff : t.look k i = some (j, v) ↔ i = j ∧ t.slot i = some (k, v) := by
  rw [look]
  cases t.slot i with
  | none => simp
  | some e =>
    obtain ⟨k', w⟩ := e
    by_cases hk : k' = k <;> simp [hk]

theorem find?_eq_none_iff : t.find? k = none ↔ ∀ j < t.len, ∀ v, t.slot j ≠ some (k, v) := by
  rw [find?, List.findSome?_eq_none_iff]
  constructor
  · intro h j hj v hv
    have hnone := h j (List.mem_range.2 hj)
    rw [look_eq_some_iff.2 ⟨rfl, hv⟩] at hnone
    cases hnone
  · intro h j hj
    cases hlook : t.look k j with
    | none => rfl
    | some e =>
      obtain ⟨i, v⟩ := e
      exact absurd (look_eq_some_iff.1 hlook).2 (h j (List.mem_range.1 hj) v)

/-- What is found is there. -/
theorem of_find? (h : t.find? k = some (j, v)) : j < t.len ∧ t.slot j = some (k, v) := by
  obtain ⟨i, hi, hlook⟩ := List.exists_of_findSome?_eq_some h
  obtain ⟨rfl, hslot⟩ := look_eq_some_iff.1 hlook
  exact ⟨List.mem_range.1 hi, hslot⟩

namespace Unique

theorem find?_eq_some_iff (hu : t.Unique) :
    t.find? k = some (j, v) ↔ j < t.len ∧ t.slot j = some (k, v) := by
  refine ⟨of_find?, fun ⟨hj, hslot⟩ ↦ ?_⟩
  cases hfind : t.find? k with
  | none => exact absurd hslot (find?_eq_none_iff.1 hfind j hj v)
  | some e =>
    obtain ⟨i, w⟩ := e
    obtain ⟨hi, hslot'⟩ := of_find? hfind
    obtain rfl := hu i hi j hj k w v hslot' hslot
    rw [hslot'] at hslot
    obtain ⟨-, rfl⟩ := Prod.mk.inj (Option.some.inj hslot)
    rfl

theorem get_eq_some_iff (hu : t.Unique) :
    t.get k = some v ↔ ∃ j < t.len, t.slot j = some (k, v) := by
  rw [get, Option.map_eq_some_iff]
  constructor
  · rintro ⟨⟨j, w⟩, hfind, rfl⟩
    exact ⟨j, of_find? hfind⟩
  · rintro ⟨j, hj, hslot⟩
    exact ⟨(j, v), hu.find?_eq_some_iff.2 ⟨hj, hslot⟩, rfl⟩

/-- Two tables with the same entries, apart from those of one key. -/
theorem get_congr {t' : SlotTable κ ν} (hu : t.Unique) (hu' : t'.Unique)
    (h : ∀ v, (∃ j < t'.len, t'.slot j = some (k, v)) ↔ ∃ j < t.len, t.slot j = some (k, v)) :
    t'.get k = t.get k := by
  refine Option.ext fun v ↦ ?_
  rw [hu.get_eq_some_iff, hu'.get_eq_some_iff, h v]

/-- The new entry has a slot of its own. -/
theorem put (hu : t.Unique) (hj : j < t.len → t.slot j = none) (hle : j ≤ t.len)
    (hnone : t.get k = none) (v : ν) : (t.put j k v).Unique := by
  have habsent : ∀ i < t.len, ∀ w, t.slot i ≠ some (k, w) :=
    find?_eq_none_iff.1 (Option.map_eq_none_iff.1 hnone)
  have hother : ∀ {i}, i < max t.len (j + 1) → i ≠ j → i < t.len := by omega
  intro i hi l hl c w w' hci hcl
  change Function.update t.slot j (some (k, v)) i = _ at hci
  change Function.update t.slot j (some (k, v)) l = _ at hcl
  rcases eq_or_ne i j with rfl | hij
  · rcases eq_or_ne l i with rfl | hli
    · rfl
    · rw [Function.update_self] at hci
      rw [Function.update_of_ne hli] at hcl
      obtain ⟨rfl, -⟩ := Prod.mk.inj (Option.some.inj hci)
      exact absurd hcl (habsent l (hother hl hli) w')
  · rcases eq_or_ne l j with rfl | hlj
    · rw [Function.update_self] at hcl
      rw [Function.update_of_ne hij] at hci
      obtain ⟨rfl, -⟩ := Prod.mk.inj (Option.some.inj hcl)
      exact absurd hci (habsent i (hother hi hij) w)
    · rw [Function.update_of_ne hij] at hci
      rw [Function.update_of_ne hlj] at hcl
      exact hu i (hother hi hij) l (hother hl hlj) c w w' hci hcl

/-- **A new entry** changes the value of its key. -/
theorem get_put (hu : t.Unique) (hj : j < t.len → t.slot j = none) (hle : j ≤ t.len)
    (hnone : t.get k = none) (v : ν) (k' : κ) :
    (t.put j k v).get k' = if k' = k then some v else t.get k' := by
  have hu' := hu.put hj hle hnone v
  split_ifs with hk
  · rw [hk]
    exact hu'.get_eq_some_iff.2 ⟨j, Nat.lt_of_lt_of_le (Nat.lt_succ_self j) (Nat.le_max_right _ _),
      Function.update_self ..⟩
  · refine hu.get_congr hu' fun w ↦ ⟨?_, ?_⟩
    · rintro ⟨i, hi, hslot⟩
      change Function.update t.slot j (some (k, v)) i = _ at hslot
      rcases eq_or_ne i j with rfl | hij
      · rw [Function.update_self] at hslot
        exact absurd (Prod.mk.inj (Option.some.inj hslot)).1.symm hk
      · rw [Function.update_of_ne hij] at hslot
        refine ⟨i, ?_, hslot⟩
        change i < max t.len (j + 1) at hi
        omega
    · rintro ⟨i, hi, hslot⟩
      refine ⟨i, Nat.lt_of_lt_of_le hi (Nat.le_max_left _ _), ?_⟩
      show Function.update t.slot j (some (k, v)) i = _
      rw [Function.update_of_ne, hslot]
      rintro rfl
      cases (hj hi).symm.trans hslot

end Unique

end SlotTable
