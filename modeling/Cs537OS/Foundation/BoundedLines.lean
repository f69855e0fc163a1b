import Mathlib.Data.List.Basic

/-!
# Lines of bounded length

A reader takes a stream line by line, but at most `n + 1` symbols at a time, so that a line that is
longer comes in pieces.

* `takeLine_append` — nothing is lost;
* `notMem_dropLast_takeLine` — the end of a line is nowhere but at the end of a piece;
* `takeLine_append_cons` — a line that is not too long is one piece;
* `lines_of_ne_nil` — the pieces of a stream, one after the other;
* `lines_append` — behind the end of a line the pieces begin anew.
-/

namespace BoundedLines

variable {α : Type*} [DecidableEq α] (nl : α)

/-- Up to `n` symbols, but none behind the first `nl`: what is read, and what is left. -/
def takeLine : ℕ → List α → List α × List α
  | 0, l => ([], l)
  | _ + 1, [] => ([], [])
  | n + 1, a :: l => if a = nl then ([a], l) else (a :: (takeLine n l).1, (takeLine n l).2)

variable {nl} {n : ℕ} {a : α} {l : List α}

theorem takeLine_cons_self : takeLine nl (n + 1) (nl :: l) = ([nl], l) := if_pos rfl

theorem takeLine_cons_of_ne (h : a ≠ nl) : takeLine nl (n + 1) (a :: l) =
    (a :: (takeLine nl n l).1, (takeLine nl n l).2) := if_neg h

variable (nl) in
theorem takeLine_append (n : ℕ) (l : List α) :
    (takeLine nl n l).1 ++ (takeLine nl n l).2 = l := by
  induction n, l using takeLine.induct nl with
  | case1 l => rfl
  | case2 n => rfl
  | case3 n l => rw [takeLine_cons_self, List.singleton_append]
  | case4 n a l hne ih => rw [takeLine_cons_of_ne hne, List.cons_append, ih]

theorem length_takeLine_le (n : ℕ) (l : List α) : (takeLine nl n l).1.length ≤ n := by
  induction n, l using takeLine.induct nl with
  | case1 l => exact Nat.le_refl _
  | case2 n => exact Nat.zero_le _
  | case3 n l =>
    rw [takeLine_cons_self]
    exact Nat.succ_le_succ (Nat.zero_le n)
  | case4 n a l hne ih =>
    rw [takeLine_cons_of_ne hne]
    exact Nat.succ_le_succ ih

theorem takeLine_ne_nil (h : l ≠ []) : (takeLine nl (n + 1) l).1 ≠ [] := by
  cases l with
  | nil => exact absurd rfl h
  | cons a l =>
    rcases eq_or_ne a nl with rfl | hne
    · rw [takeLine_cons_self]
      exact List.cons_ne_nil _ _
    · rw [takeLine_cons_of_ne hne]
      exact List.cons_ne_nil _ _

theorem length_snd_takeLine_lt (h : l ≠ []) : (takeLine nl (n + 1) l).2.length < l.length := by
  have hlen := congrArg List.length (takeLine_append nl (n + 1) l)
  have hpos : 0 < (takeLine nl (n + 1) l).1.length := List.length_pos_iff.2 (takeLine_ne_nil h)
  rw [List.length_append] at hlen
  omega

variable (nl) in
/-- Only the last symbol of a piece ends a line. -/
theorem notMem_dropLast_takeLine (n : ℕ) (l : List α) : nl ∉ (takeLine nl n l).1.dropLast := by
  induction n, l using takeLine.induct nl with
  | case1 l => exact List.not_mem_nil
  | case2 n => exact List.not_mem_nil
  | case3 n l =>
    rw [takeLine_cons_self]
    exact List.not_mem_nil
  | case4 n a l hne ih =>
    rw [takeLine_cons_of_ne hne]
    rcases hrest : (takeLine nl n l).1 with - | ⟨b, bs⟩
    · exact List.not_mem_nil
    · rw [List.dropLast_cons_cons, ← hrest]
      exact List.not_mem_cons_of_ne_of_not_mem (Ne.symm hne) ih

/-- A line that is not too long is one piece. -/
theorem takeLine_append_cons (hl : nl ∉ l) (hn : l.length < n) (r : List α) :
    takeLine nl n (l ++ nl :: r) = (l ++ [nl], r) := by
  induction l generalizing n with
  | nil =>
    obtain ⟨k, rfl⟩ := Nat.exists_eq_succ_of_ne_zero (Nat.ne_of_gt hn)
    exact takeLine_cons_self
  | cons a l ih =>
    obtain ⟨k, rfl⟩ := Nat.exists_eq_succ_of_ne_zero (Nat.ne_of_gt (Nat.zero_lt_of_lt hn))
    obtain ⟨ha, hl⟩ := not_or.1 (mt List.mem_cons.2 hl)
    rw [List.cons_append, takeLine_cons_of_ne (Ne.symm ha), ih hl (Nat.lt_of_succ_lt_succ hn)]
    rfl

variable (nl n) in
/-- The pieces of a stream. -/
def lines (l : List α) : List (List α) :=
  if l = [] then [] else (takeLine nl (n + 1) l).1 :: lines (takeLine nl (n + 1) l).2
termination_by l.length
decreasing_by exact length_snd_takeLine_lt ‹_›

theorem lines_nil : lines nl n [] = [] := by
  rw [lines, if_pos rfl]

theorem lines_of_ne_nil (h : l ≠ []) :
    lines nl n l = (takeLine nl (n + 1) l).1 :: lines nl n (takeLine nl (n + 1) l).2 := by
  rw [lines, if_neg h]

theorem takeLine_append_right (hl : l.getLast? = some nl) (n : ℕ) (r : List α) :
    takeLine nl n (l ++ r) = ((takeLine nl n l).1, (takeLine nl n l).2 ++ r) := by
  induction n, l using takeLine.induct nl with
  | case1 l => rfl
  | case2 n => cases hl
  | case3 n l =>
    rw [List.cons_append, takeLine_cons_self, takeLine_cons_self]
  | case4 n a l hne ih =>
    cases l with
    | nil => exact absurd (Option.some.inj hl) hne
    | cons b l =>
      rw [List.getLast?_cons_cons] at hl
      rw [List.cons_append, takeLine_cons_of_ne hne, takeLine_cons_of_ne hne, ih hl]

/-- After complete lines the pieces begin anew. -/
theorem lines_append (hl : l = [] ∨ l.getLast? = some nl) (r : List α) :
    lines nl n (l ++ r) = lines nl n l ++ lines nl n r := by
  induction l using lines.induct nl n with
  | case1 => rw [lines_nil, List.nil_append, List.nil_append]
  | case2 l hne ih =>
    have hl := hl.resolve_left hne
    -- what is left behind the first piece ends as before
    have hleft : (takeLine nl (n + 1) l).2 = [] ∨
        (takeLine nl (n + 1) l).2.getLast? = some nl := by
      have hlast := congrArg List.getLast? (takeLine_append nl (n + 1) l)
      rw [List.getLast?_append, hl] at hlast
      cases hrest : (takeLine nl (n + 1) l).2.getLast? with
      | none => exact .inl (List.getLast?_eq_none_iff.1 hrest)
      | some b =>
        rw [hrest, Option.some_or] at hlast
        exact .inr hlast
    rw [lines_of_ne_nil (List.append_ne_nil_of_left_ne_nil hne r), lines_of_ne_nil hne,
      takeLine_append_right hl, List.cons_append]
    exact congrArg _ (ih hleft)

end BoundedLines
