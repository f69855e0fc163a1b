import Mathlib.Data.List.Infix

/-!
# Paths

A path is cut at its separators. An empty component and the component `.` stay where they are, the
component `..` leads to the directory above, and any other one into the directory of its name.
Links are not followed.

* `infix_of_mem_splitOnP` — a component is a part of the path;
* `walk_append_cons` — a path is walked up to a separator, and then on from there;
* `prefix_walk` — without a component `..` a path stays under the directory in which it begins.
-/

namespace Paths

variable {α : Type*}

/-- The first piece of a list that is split is at its start, and the others are in it. -/
theorem exists_splitOnP_eq_cons (p : α → Bool) (l : List α) : ∃ piece pieces,
    l.splitOnP p = piece :: pieces ∧ piece <+: l ∧ ∀ c ∈ pieces, c <:+: l := by
  induction l with
  | nil => exact ⟨[], [], rfl, List.prefix_rfl, List.forall_mem_nil _⟩
  | cons a l ih =>
    obtain ⟨piece, pieces, heq, hpiece, hpieces⟩ := ih
    have hall : ∀ c ∈ pieces, c <:+: a :: l := fun c hc ↦
      (hpieces c hc).trans (List.suffix_cons a l).isInfix
    rw [List.splitOnP_cons_eq_if_modifyHead, heq]
    split_ifs with ha
    · refine ⟨[], piece :: pieces, rfl, List.nil_prefix, List.forall_mem_cons.2 ⟨?_, hall⟩⟩
      exact hpiece.isInfix.trans (List.suffix_cons a l).isInfix
    · exact ⟨a :: piece, pieces, rfl, List.cons_prefix_cons.2 ⟨rfl, hpiece⟩, hall⟩

theorem infix_of_mem_splitOnP {p : α → Bool} {l c : List α} (h : c ∈ l.splitOnP p) :
    c <:+: l := by
  obtain ⟨piece, pieces, heq, hpiece, hpieces⟩ := exists_splitOnP_eq_cons p l
  rw [heq] at h
  rcases List.mem_cons.1 h with rfl | h
  · exact hpiece.isInfix
  · exact hpieces c h

variable [DecidableEq α] {sep dot : α} {dir : List (List α)} {path c : List α}

variable (sep dot)

/-- The directory to which a component leads. -/
def enter (dir : List (List α)) (c : List α) : List (List α) :=
  if c = [] ∨ c = [dot] then dir else if c = [dot, dot] then dir.dropLast else dir ++ [c]

/-- Where a path leads that begins in a directory. -/
def walk (dir : List (List α)) (path : List α) : List (List α) :=
  (path.splitOn sep).foldl (enter dot) dir

variable {sep dot}

theorem walk_append_cons (dir : List (List α)) (p q : List α) :
    walk sep dot dir (p ++ sep :: q) = walk sep dot (walk sep dot dir p) q := by
  rw [walk, List.splitOn_append_cons_self, List.foldl_append, walk, walk]

theorem prefix_enter (h : c ≠ [dot, dot]) : dir <+: enter dot dir c := by
  rw [enter]
  split_ifs
  · exact List.prefix_rfl
  · exact List.prefix_append dir [c]

/-- Without `..` a path leads down only. -/
theorem prefix_walk (h : [dot, dot] ∉ path.splitOn sep) : dir <+: walk sep dot dir path := by
  rw [walk]
  generalize path.splitOn sep = cs at h
  induction cs generalizing dir with
  | nil => exact List.prefix_rfl
  | cons c cs ih =>
    obtain ⟨hc, hcs⟩ := not_or.1 (mt List.mem_cons.2 h)
    exact (prefix_enter (Ne.symm hc)).trans (ih hcs)

end Paths
