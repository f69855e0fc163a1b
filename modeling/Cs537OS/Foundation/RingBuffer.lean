import Mathlib.Data.Nat.ModEq
import Mathlib.Data.List.Basic
import Mathlib.Logic.Function.Basic

/-!
# Ring buffers

A queue is kept in an array of `n` places, from a place `base` on and around the end of the array.
The base is not reduced modulo `n`, so it moves on by one with every element that leaves the queue.

* `Holds.push` and `Holds.pop` — what the two ends of the queue do to the array;
* `Holds.head` and `Holds.exists_slot` — where the elements are found.
-/

namespace RingBuffer

variable {α : Type*} {n base : ℕ} {slots : ℕ → Option α} {queue : List α} {x : α}

/-- The array holds `queue` from place `base` on. -/
structure Holds (n : ℕ) (slots : ℕ → Option α) (base : ℕ) (queue : List α) : Prop where
  length_le : queue.length ≤ n
  slot : ∀ i x, queue[i]? = some x → slots ((base + i) % n) = some x

theorem holds_nil : Holds n slots base [] := ⟨Nat.zero_le n, nofun⟩

/-- Two places of the queue are two places of the array. -/
theorem place_ne {i j : ℕ} (hij : i < j) (hj : j < n) : (base + i) % n ≠ (base + j) % n := by
  intro heq
  have hmod : i ≡ j [MOD n] := Nat.ModEq.add_left_cancel' base heq
  rw [Nat.ModEq, Nat.mod_eq_of_lt (hij.trans hj), Nat.mod_eq_of_lt hj] at hmod
  exact hij.ne hmod

/-- An element is put at the end of a queue that is not full. -/
theorem Holds.push (h : Holds n slots base queue) (hroom : queue.length < n) (x : α) :
    Holds n (Function.update slots ((base + queue.length) % n) (some x)) base (queue ++ [x]) := by
  refine ⟨?_, fun i y hy ↦ ?_⟩
  · rw [List.length_append]
    exact hroom
  · by_cases hi : i < queue.length
    · rw [List.getElem?_append_left hi] at hy
      rw [Function.update_of_ne (place_ne hi hroom)]
      exact h.slot i y hy
    · rw [List.getElem?_append_right (Nat.le_of_not_lt hi)] at hy
      obtain ⟨hlast, hxy⟩ := List.getElem?_eq_some_iff.1 hy
      have hend : i = queue.length := by
        rw [List.length_singleton] at hlast
        omega
      subst hend
      rw [Function.update_self]
      simpa using hxy

/-- The first element of the queue is at its base. -/
theorem Holds.head (h : Holds n slots base (x :: queue)) : slots (base % n) = some x :=
  h.slot 0 x rfl

/-- The first element leaves the queue. -/
theorem Holds.pop (h : Holds n slots base (x :: queue)) : Holds n slots (base + 1) queue := by
  refine ⟨(Nat.le_succ _).trans h.length_le, fun i y hy ↦ ?_⟩
  rw [Nat.add_assoc, Nat.add_comm 1 i]
  exact h.slot (i + 1) y hy

/-- The array holds the front part of the queue. -/
theorem Holds.of_append {front back : List α} (h : Holds n slots base (front ++ back)) :
    Holds n slots base front := by
  have hlength := h.length_le
  rw [List.length_append] at hlength
  refine ⟨(Nat.le_add_right _ _).trans hlength, fun i y hy ↦ h.slot i y ?_⟩
  rw [List.getElem?_append_left (List.getElem?_eq_some_iff.1 hy).1]
  exact hy

/-- The elements of the queue are in the array. -/
theorem Holds.exists_slot (h : Holds n slots base queue) (hx : x ∈ queue) :
    ∃ i < queue.length, slots ((base + i) % n) = some x := by
  obtain ⟨i, hi, hget⟩ := List.getElem_of_mem hx
  exact ⟨i, hi, h.slot i x (List.getElem?_eq_some_iff.2 ⟨hi, hget⟩)⟩

end RingBuffer
