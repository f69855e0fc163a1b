import Mathlib.Data.List.TakeWhile
import Mathlib.Data.Nat.Notation

/-!
# Operators and their operands in a list

An operator takes what stands behind it, up to an operator of the other kind. `operands` is the
number of elements that all operators of one kind take together, an element counted once for each
operator that takes it. `lastPlace` is where the last of them stands.

The number says little about the shape of the list, since operators take each other. What a bound
on it does say:

* it is at least two exactly if the operators are `Crowded`, which is read off neighbours;
* it is one, with operators of one kind only, exactly if the list ends with an operator and one
  more element (`operands_eq_one_iff`);
* with both kinds, both numbers at most one and something to take behind the last operator of each
  kind, the list is the shortest that one would expect (`eq_of_operands_le_one`).
-/

namespace Operands

variable {α : Type*} [DecidableEq α] {op other x y : α} {l pre pre' post rest : List α} {i : ℕ}

/-- Where the last `op` stands. -/
def lastPlace (op : α) : List α → Option ℕ
  | [] => none
  | t :: l =>
    match lastPlace op l with
    | some i => some (i + 1)
    | none => if t = op then some 0 else none

/-- What the operators `op` take, up to `other` each. -/
def operands (op other : α) : List α → ℕ
  | [] => 0
  | t :: l => (if t = op then (l.takeWhile (· ≠ other)).length else 0) + operands op other l

/-- Some operator has something to take. -/
def Followed (op other : α) : List α → Prop
  | [] => False
  | t :: l => (t = op ∧ ∃ x ∈ l.head?, x ≠ other) ∨ Followed op other l

/-- Some operator takes two elements, or two operators have something to take. -/
def Crowded (op other : α) : List α → Prop
  | [] => False
  | t :: l =>
    (t = op ∧ ∃ x ∈ l.head?, x ≠ other ∧ ((∃ y ∈ l.tail.head?, y ≠ other) ∨ Followed op other l)) ∨
      Crowded op other l

theorem lastPlace_eq_none_iff : lastPlace op l = none ↔ op ∉ l := by
  induction l with
  | nil => exact ⟨fun _ ↦ List.not_mem_nil, fun _ ↦ rfl⟩
  | cons t l ih =>
    rw [lastPlace, List.mem_cons, not_or, ← ih]
    rcases lastPlace op l with _ | i
    · rcases eq_or_ne t op with rfl | hne
      · simp
      · simp [hne, hne.symm]
    · simp

theorem exists_lastPlace (h : op ∈ l) : ∃ i, lastPlace op l = some i := by
  rw [← Option.ne_none_iff_exists', Ne, lastPlace_eq_none_iff]
  exact fun hno ↦ hno h

/-- The last place splits the list. -/
theorem lastPlace_eq_some_iff :
    lastPlace op l = some i ↔ ∃ pre post, l = pre ++ op :: post ∧ op ∉ post ∧ pre.length = i := by
  induction l generalizing i with
  | nil => simp [lastPlace]
  | cons t l ih =>
    rw [lastPlace]
    constructor
    · rcases hl : lastPlace op l with _ | j
      · intro h
        have h : (if t = op then some 0 else none) = some i := h
        split at h
        next heq =>
          obtain rfl := heq
          rw [if_pos rfl] at h
          exact ⟨[], l, rfl, lastPlace_eq_none_iff.1 hl, Option.some.inj h⟩
        next => cases h
      · intro h
        obtain rfl : j + 1 = i := Option.some.inj h
        obtain ⟨pre, post, rfl, hpost, rfl⟩ := ih.1 hl
        exact ⟨t :: pre, post, rfl, hpost, rfl⟩
    · rintro ⟨pre, post, heq, hpost, rfl⟩
      cases pre with
      | nil =>
        obtain ⟨rfl, rfl⟩ := List.cons.inj heq
        rw [lastPlace_eq_none_iff.2 hpost]
        exact if_pos rfl
      | cons p pre =>
        obtain ⟨rfl, rfl⟩ := List.cons.inj heq
        rw [ih.2 ⟨pre, post, rfl, hpost, rfl⟩]
        rfl

/-- Going through the list, the later place overwrites the earlier one. -/
theorem lastPlace_cons_or (t : α) (r : Option ℕ) :
    ((lastPlace op (t :: l)).map (i + ·)).or r =
      ((lastPlace op l).map (i + 1 + ·)).or (if t = op then some i else r) := by
  rw [lastPlace]
  rcases lastPlace op l with _ | j
  · rcases eq_or_ne t op with rfl | hne
    · simp
    · simp [hne]
  · simp only [Option.map_some, Option.some_or, Option.some.injEq]
    omega

theorem takeWhile_of_notMem (h : other ∉ l) : l.takeWhile (· ≠ other) = l := by
  rw [List.takeWhile_eq_self_iff]
  intro t ht
  exact decide_eq_true (ne_of_mem_of_not_mem ht h)

/-! ### The number of operands -/

theorem operands_append (h : op ∉ pre) : operands op other (pre ++ l) = operands op other l := by
  induction pre with
  | nil => rfl
  | cons t pre ih =>
    rw [List.mem_cons, not_or] at h
    rw [List.cons_append, operands, if_neg fun heq ↦ h.1 heq.symm, ih h.2, Nat.zero_add]

theorem operands_of_notMem (h : op ∉ l) : operands op other l = 0 := by
  have hnil : operands op other (l ++ []) = operands op other [] := operands_append h
  rwa [List.append_nil] at hnil

theorem operands_cons_self (h : op ∉ l) :
    operands op other (op :: l) = (l.takeWhile (· ≠ other)).length := by
  rw [operands, if_pos rfl, operands_of_notMem h, Nat.add_zero]

theorem followed_iff : Followed op other l ↔ 1 ≤ operands op other l := by
  induction l with
  | nil => simp [Followed, operands]
  | cons t l ih =>
    rw [Followed, operands, ih]
    rcases eq_or_ne t op with rfl | hne
    · rw [if_pos rfl]
      cases l with
      | nil => simp [operands]
      | cons x l =>
        rcases eq_or_ne x other with rfl | hx
        · simp
        · simp [hx]
          omega
    · simp [hne]

theorem crowded_iff : Crowded op other l ↔ 2 ≤ operands op other l := by
  induction l with
  | nil => simp [Crowded, operands]
  | cons t l ih =>
    rw [Crowded, operands, ih]
    rcases eq_or_ne t op with rfl | hne
    · rw [if_pos rfl, followed_iff]
      cases l with
      | nil => simp [operands]
      | cons x l =>
        rcases eq_or_ne x other with rfl | hx
        · simp
        · cases l with
          | nil => simp [hx]; omega
          | cons y l =>
            rcases eq_or_ne y other with rfl | hy
            · simp [hx]
              omega
            · simp [hx, hy]
              omega
    · simp [hne]

/-- Operators of one kind only. -/
theorem operands_eq_one_iff (h : other ∉ l) :
    operands op other l = 1 ↔ ∃ pre x, op ∉ pre ∧ l = pre ++ [op, x] := by
  constructor
  · induction l with
    | nil => exact nofun
    | cons t l ih =>
      rw [List.mem_cons, not_or] at h
      intro hone
      rw [operands, takeWhile_of_notMem h.2] at hone
      rcases eq_or_ne t op with rfl | hne
      · rw [if_pos rfl] at hone
        match l, hone with
        | [], hone => cases hone
        | [x], _ => exact ⟨[], x, List.not_mem_nil, rfl⟩
        | _ :: _ :: _, hone =>
          rw [List.length_cons, List.length_cons] at hone
          omega
      · rw [if_neg hne, Nat.zero_add] at hone
        obtain ⟨pre, x, hpre, rfl⟩ := ih h.2 hone
        exact ⟨t :: pre, x, by simp [hne.symm, hpre], rfl⟩
  · rintro ⟨pre, x, hpre, rfl⟩
    rw [List.mem_append, not_or] at h
    have hx : x ≠ other := fun heq ↦ h.2 (by simp [heq])
    rw [operands_append hpre]
    simp [operands, hx]

/-- Operators of both kinds, with something to take behind the last one of each. -/
theorem eq_of_operands_le_one (hl : l = pre ++ op :: x :: rest) (hpre : other ∉ pre ++ [op, x])
    (hop : op ∉ pre) (hrest : op ∉ x :: rest) (hl' : l = pre' ++ other :: y :: post)
    (hin : operands op other l ≤ 1) (hout : operands other op l ≤ 1) :
    l = pre ++ [op, x, other, y] := by
  have hx : x ≠ other := fun heq ↦ hpre (by simp [heq])
  -- the first operator takes `x`, hence nothing else
  rw [hl, operands_append hop, operands_cons_self hrest, List.takeWhile_cons,
    if_pos (decide_eq_true hx), List.length_cons] at hin
  have hnil : rest.takeWhile (· ≠ other) = [] := List.eq_nil_of_length_eq_zero (by omega)
  obtain ⟨tail, rfl⟩ : ∃ tail, rest = other :: tail := by
    cases rest with
    | nil =>
      have hmem : other ∈ pre ++ [op, x] := by
        rw [← hl, hl']
        exact List.mem_append_right _ List.mem_cons_self
      exact absurd hmem hpre
    | cons z tail =>
      rw [List.takeWhile_cons] at hnil
      split at hnil
      next => cases hnil
      next hz => exact ⟨tail, by rw [show z = other from by simpa using hz]⟩
  have hsplit : l = (pre ++ [op, x]) ++ other :: tail := by
    rw [hl, List.append_assoc]
    rfl
  -- the other one takes all that is left
  have htail : tail.length ≤ 1 := by
    rw [hsplit, operands_append hpre, operands, if_pos rfl, takeWhile_of_notMem] at hout
    · omega
    · exact fun hmem ↦ hrest (by simp [hmem])
  rcases List.append_eq_append_iff.1 (hsplit.symm.trans hl') with
    ⟨mid, -, hmid⟩ | ⟨mid, hmid, htail'⟩
  · cases mid with
    | nil =>
      obtain ⟨-, rfl⟩ := List.cons.inj hmid
      rw [List.length_cons] at htail
      obtain rfl : post = [] := List.eq_nil_of_length_eq_zero (by omega)
      rw [hsplit, List.append_assoc]
      rfl
    | cons z mid =>
      obtain ⟨-, htail'⟩ := List.cons.inj hmid
      have htail' : tail = mid ++ other :: y :: post := htail'
      rw [htail', List.length_append, List.length_cons, List.length_cons] at htail
      omega
  · cases mid with
    | nil =>
      obtain ⟨-, rfl⟩ := List.cons.inj htail'
      rw [List.length_cons] at htail
      obtain rfl : post = [] := List.eq_nil_of_length_eq_zero (by omega)
      rw [hsplit, List.append_assoc]
      rfl
    | cons z mid =>
      obtain ⟨rfl, -⟩ := List.cons.inj htail'
      exact absurd (by rw [hmid]; simp) hpre

end Operands
