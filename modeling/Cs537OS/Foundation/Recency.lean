import Mathlib.Data.List.Dedup
import Mathlib.Data.List.Nodup

/-!
# Moving to the front

A list in which each element that is used is moved to the front is ordered by the last uses: what
was used last comes first, and what was never used comes last, in the order it had.

* `recency_concat` — one more use is one more move;
* `find?_eq_of_perm` — where at most one element is looked for the order does not matter.
-/

variable {α : Type*}

/-- The elements of `l` after the uses `bs`. -/
def recency [DecidableEq α] (l bs : List α) : List α :=
  bs.dedup.reverse ++ l.filter fun b ↦ b ∉ bs

section

variable [DecidableEq α] {l bs : List α} {b : α}

theorem recency_nil : recency l [] = l := by
  rw [recency, List.dedup_nil, List.reverse_nil, List.nil_append]
  exact List.filter_eq_self.2 fun b _ ↦ decide_eq_true List.not_mem_nil

theorem dedup_concat (bs : List α) (b : α) :
    (bs ++ [b]).dedup = (bs.dedup.filter fun c ↦ c ≠ b) ++ [b] := by
  induction bs with
  | nil => rfl
  | cons c bs ih =>
    rw [List.cons_append, List.dedup_cons, List.dedup_cons (a := c) (l := bs), ih]
    by_cases hmem : c ∈ bs
    · rw [if_pos (List.mem_append_left [b] hmem), if_pos hmem]
    · rw [if_neg hmem, List.filter_cons]
      rcases eq_or_ne c b with rfl | hne
      · rw [if_pos (List.mem_append_right bs List.mem_cons_self),
          if_neg (decide_eq_true_iff.not.2 (not_not.2 rfl))]
      · rw [if_neg, if_pos (decide_eq_true hne), List.cons_append]
        rw [List.mem_append, List.mem_singleton]
        exact not_or.2 ⟨hmem, hne⟩

theorem nodup_recency (h : l.Nodup) : (recency l bs).Nodup := by
  refine List.Nodup.append (List.nodup_reverse.2 bs.nodup_dedup) (h.filter _)
    fun b hmem hfilter ↦ ?_
  rw [List.mem_reverse, List.mem_dedup] at hmem
  exact of_decide_eq_true (List.mem_filter.1 hfilter).2 hmem

theorem mem_recency : b ∈ recency l bs ↔ b ∈ bs ∨ b ∈ l := by
  rw [recency, List.mem_append, List.mem_reverse, List.mem_dedup, List.mem_filter,
    decide_eq_true_eq]
  exact ⟨fun h ↦ h.imp id And.left,
    fun h ↦ (em (b ∈ bs)).imp id fun hno ↦ ⟨h.resolve_left hno, hno⟩⟩

theorem perm_recency (h : l.Nodup) (hbs : ∀ b ∈ bs, b ∈ l) : (recency l bs).Perm l :=
  (List.perm_ext_iff_of_nodup (nodup_recency h) h).2 fun b ↦
    mem_recency.trans (or_iff_right_of_imp (hbs b))

/-- **One more use.** -/
theorem recency_concat (h : l.Nodup) :
    recency l (bs ++ [b]) = b :: (recency l bs).erase b := by
  have hfilter : (l.filter fun c ↦ c ∉ bs ++ [b]) =
      (l.filter fun c ↦ c ∉ bs).filter fun c ↦ c ≠ b := by
    rw [List.filter_filter]
    refine List.filter_congr fun c _ ↦ ?_
    rw [← Bool.decide_and, decide_eq_decide, List.mem_append, List.mem_singleton, not_or, and_comm]
  have herase : (recency l bs).erase b = (recency l bs).filter fun c ↦ c ≠ b := by
    rw [(nodup_recency h).erase_eq_filter]
    exact List.filter_congr fun c _ ↦ decide_not.symm
  rw [herase, recency, recency, dedup_concat, hfilter, List.reverse_append, List.filter_append,
    List.filter_reverse]
  rfl

/-- From the end: what was never used, and then what was used the longest time ago. -/
theorem reverse_recency :
    (recency l bs).reverse = (l.reverse.filter fun b ↦ b ∉ bs) ++ bs.dedup := by
  rw [recency, List.reverse_append, List.reverse_reverse, List.filter_reverse]

end

/-- **At most one element.** -/
theorem find?_eq_of_perm {l l' : List α} {p : α → Bool} (h : l.Perm l')
    (hp : ∀ b ∈ l, ∀ c ∈ l, p b = true → p c = true → b = c) : l.find? p = l'.find? p := by
  cases hfind : l'.find? p with
  | none =>
    refine List.find?_eq_none.2 fun b hb ↦ ?_
    exact List.find?_eq_none.1 hfind b (h.mem_iff.1 hb)
  | some c =>
    have hc := List.find?_some hfind
    have hmem := h.mem_iff.2 (List.mem_of_find?_eq_some hfind)
    cases hfind' : l.find? p with
    | none => exact absurd hc (List.find?_eq_none.1 hfind' c hmem)
    | some b =>
      rw [hp b (List.mem_of_find?_eq_some hfind') c hmem (List.find?_some hfind') hc]
