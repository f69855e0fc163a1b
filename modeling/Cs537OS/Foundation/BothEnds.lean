import Mathlib.Data.List.Perm.Basic

/-!
# Taking from both ends of a list

`alternate` takes the elements of a list by turns from its front and its back. One turn takes the
head and hands over the rest reversed, so that the turn from the back of `l` is the one from the
front of `l.reverse`.

* `alternate_perm` — every element is taken once;
* `alternate_concat_reverse` — the turn from the back.
-/

namespace List

variable {α : Type*}

/-- First, last, second, last but one, and so on. -/
def alternate : List α → List α
  | [] => []
  | a :: l => a :: alternate l.reverse
termination_by l => l.length

@[simp] theorem alternate_nil : alternate ([] : List α) = [] := by
  rw [alternate]

theorem alternate_cons (a : α) (l : List α) : alternate (a :: l) = a :: alternate l.reverse := by
  rw [alternate]

/-- The turn from the back. -/
theorem alternate_concat_reverse (l : List α) (a : α) :
    alternate (l ++ [a]).reverse = a :: alternate l := by
  rw [reverse_append, reverse_singleton, singleton_append, alternate_cons, reverse_reverse]

theorem alternate_map {β : Type*} (f : α → β) (l : List α) :
    alternate (l.map f) = (alternate l).map f := by
  induction hn : l.length generalizing l with
  | zero =>
    rw [length_eq_zero_iff.1 hn, map_nil, alternate_nil, alternate_nil, map_nil]
  | succ n ih =>
    cases l with
    | nil => cases hn
    | cons a l =>
      have hrest := ih l.reverse (length_reverse.trans (Nat.succ.inj hn))
      rw [map_cons, alternate_cons, alternate_cons, map_cons, ← map_reverse, hrest]

theorem alternate_perm (l : List α) : (alternate l).Perm l := by
  induction hn : l.length generalizing l with
  | zero =>
    rw [length_eq_zero_iff.1 hn, alternate_nil]
  | succ n ih =>
    cases l with
    | nil => cases hn
    | cons a l =>
      have hrest := ih l.reverse (length_reverse.trans (Nat.succ.inj hn))
      rw [alternate_cons]
      exact (hrest.trans (reverse_perm l)).cons a

end List
