import Mathlib.Data.Nat.Notation
import Mathlib.Data.List.Basic
import Mathlib.Logic.Function.Basic

/-!
# Compacting an array in place

The entries to be kept are moved to the front, in order, with one index that reads and one that
writes. The front then holds the kept entries (`map_compact`). Behind it nothing is changed
(`compact_of_le`), so an entry that was moved is still in its old place as well.
-/

namespace Compaction

variable {α : Type*} (keep : ℕ → Bool) (t : ℕ → α)

/-- The array and the writing index after `n` turns of the loop. -/
def compact : ℕ → (ℕ → α) × ℕ
  | 0 => (t, 0)
  | n + 1 =>
    let (u, m) := compact n
    if keep n then (Function.update u m (u n), m + 1) else (u, m)

variable {keep t} {n i : ℕ}

theorem compact_succ_of_keep (h : keep n = true) :
    compact keep t (n + 1) =
      (Function.update (compact keep t n).1 (compact keep t n).2 ((compact keep t n).1 n),
        (compact keep t n).2 + 1) :=
  if_pos h

theorem compact_succ_of_not_keep (h : keep n = false) :
    compact keep t (n + 1) = compact keep t n :=
  if_neg (by rw [h]; decide)

/-- The writing index never overtakes the reading one. -/
theorem snd_compact_le (n : ℕ) : (compact keep t n).2 ≤ n := by
  induction n with
  | zero => exact Nat.le_refl _
  | succ n ih =>
    rcases h : keep n with _ | _
    · rw [compact_succ_of_not_keep h]
      exact Nat.le_succ_of_le ih
    · rw [compact_succ_of_keep h]
      exact Nat.succ_le_succ ih

/-- **What is left behind**: nothing changes from the writing index on. -/
theorem compact_of_le (h : (compact keep t n).2 ≤ i) : (compact keep t n).1 i = t i := by
  induction n with
  | zero => rfl
  | succ n ih =>
    rcases hkeep : keep n with _ | _
    · rw [compact_succ_of_not_keep hkeep] at h ⊢
      exact ih h
    · rw [compact_succ_of_keep hkeep] at h ⊢
      exact (Function.update_of_ne (Nat.ne_of_gt h) ..).trans (ih (Nat.le_of_succ_le h))

/-- **What is kept.** -/
theorem map_compact (n : ℕ) :
    (List.range (compact keep t n).2).map (compact keep t n).1 =
      ((List.range n).filter keep).map t := by
  induction n with
  | zero => rfl
  | succ n ih =>
    rw [List.range_succ, List.filter_append, List.map_append, ← ih]
    rcases h : keep n with _ | _
    · rw [compact_succ_of_not_keep h, List.filter_cons_of_neg (by rw [h]; decide)]
      exact (List.append_nil _).symm
    · rw [compact_succ_of_keep h, List.filter_cons_of_pos h, compact_of_le (snd_compact_le n),
        List.range_succ, List.map_append]
      congr 1
      · refine List.map_congr_left fun i hi ↦ ?_
        exact Function.update_of_ne (Nat.ne_of_lt (List.mem_range.1 hi)) ..
      · exact congrArg (fun x ↦ [x]) (Function.update_self ..)

theorem mem_prefix_iff {x : α} :
    (∃ i < (compact keep t n).2, (compact keep t n).1 i = x) ↔
      ∃ i < n, keep i = true ∧ t i = x := by
  have hmem : x ∈ (List.range (compact keep t n).2).map (compact keep t n).1 ↔
      x ∈ ((List.range n).filter keep).map t := by rw [map_compact]
  simpa [and_assoc] using hmem

end Compaction
