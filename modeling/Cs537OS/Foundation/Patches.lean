import Cs537OS.Foundation.GuardedLoop
import Mathlib.Data.List.Pairwise
import Mathlib.Data.Nat.Notation

/-!
# Writes into a memory

A memory is a function on addresses, a patch a run of values at an offset. After a list of
patches an address holds what the last patch over it wrote there, and its old value when no patch
lies over it (`writeAll_apply`). The frame lemmas are two readings of that equation:

* `writeAll_of_forall` — an address keeps its value when every patch over it repeats that value;
* `writeAll_of_mem` — an address takes the value of a patch that no other patch contradicts.

What the values are does not matter.
-/

/-- A run of values to be written from the offset `off` on. -/
@[ext]
structure Patch (α : Type*) where
  off : ℕ
  vals : List α
deriving DecidableEq

namespace Patch

variable {α : Type*} (p : Patch α) (m : ℕ → α) (ps : List (Patch α)) {a : ℕ}

/-- The value the patch writes at address `a`, if it lies over `a`. -/
def at? (a : ℕ) : Option α := if p.off ≤ a then p.vals[a - p.off]? else none

/-- The memory with the patch written into it. -/
def write (m : ℕ → α) (p : Patch α) : ℕ → α := fun a ↦ (p.at? a).getD (m a)

/-- The memory with the patches written into it, one after the other. -/
def writeAll (m : ℕ → α) (ps : List (Patch α)) : ℕ → α := ps.foldl write m

/-- The memory already holds what the patch writes. -/
def Holds : Prop := ∀ i, ∀ h : i < p.vals.length, m (p.off + i) = p.vals[i]

instance [DecidableEq α] : Decidable (p.Holds m) :=
  inferInstanceAs (Decidable (∀ i, ∀ h : i < p.vals.length, m (p.off + i) = p.vals[i]))

variable {p m ps}

theorem at?_add {i : ℕ} (h : i < p.vals.length) : p.at? (p.off + i) = some p.vals[i] := by
  rw [at?, if_pos (Nat.le_add_right _ _), Nat.add_sub_cancel_left, List.getElem?_eq_getElem h]

/-- An address that a patch writes is an index into its values. -/
theorem at?_eq_some_iff {v : α} :
    p.at? a = some v ↔ ∃ i, ∃ h : i < p.vals.length, a = p.off + i ∧ p.vals[i] = v := by
  constructor
  · intro h
    unfold at? at h
    split at h
    next hle =>
      obtain ⟨hi, hv⟩ := List.getElem?_eq_some_iff.1 h
      exact ⟨a - p.off, hi, by omega, hv⟩
    next => exact absurd h (by simp)
  · rintro ⟨i, hi, rfl, rfl⟩
    exact at?_add hi

theorem at?_eq_none (h : a < p.off ∨ p.off + p.vals.length ≤ a) : p.at? a = none := by
  unfold at?
  split
  · exact List.getElem?_eq_none (by omega)
  · rfl

theorem off_le_of_at? {v : α} (h : p.at? a = some v) : p.off ≤ a := by
  obtain ⟨i, -, rfl, -⟩ := at?_eq_some_iff.1 h
  exact Nat.le_add_right _ _

theorem lt_of_at? {v : α} (h : p.at? a = some v) : a < p.off + p.vals.length := by
  obtain ⟨i, hi, rfl, -⟩ := at?_eq_some_iff.1 h
  omega

theorem holds_iff : p.Holds m ↔ ∀ a v, p.at? a = some v → m a = v := by
  constructor
  · intro h a v hv
    obtain ⟨i, hi, rfl, rfl⟩ := at?_eq_some_iff.1 hv
    exact h i hi
  · exact fun h i hi ↦ h _ _ (at?_add hi)

/-- A patch changes nothing outside of itself. -/
theorem write_of_outside (h : a < p.off ∨ p.off + p.vals.length ≤ a) : p.write m a = m a := by
  rw [write, at?_eq_none h, Option.getD_none]

/-- What was written is there. -/
theorem holds_write (m : ℕ → α) : p.Holds (p.write m) := by
  refine holds_iff.2 fun a v hv ↦ ?_
  rw [write, hv, Option.getD_some]

theorem write_nil (m : ℕ → α) (a : ℕ) : write m ⟨a, []⟩ = m :=
  funext fun b ↦ write_of_outside (by show b < a ∨ a + 0 ≤ b; omega)

/-- Two writes one behind the other are one. -/
theorem write_append (m : ℕ → α) (a : ℕ) (us vs : List α) :
    write (write m ⟨a, us⟩) ⟨a + us.length, vs⟩ = write m ⟨a, us ++ vs⟩ := by
  refine funext fun b ↦ ?_
  rcases Nat.lt_or_ge b a with hlt | hge
  · rw [write_of_outside (.inl (Nat.lt_add_right _ hlt)), write_of_outside (.inl hlt),
      write_of_outside (.inl hlt)]
  obtain ⟨i, rfl⟩ := Nat.exists_eq_add_of_le hge
  have hat : ∀ ws : List α, (Patch.mk a ws).at? (a + i) = ws[i]? := fun ws ↦ by
    rw [at?, if_pos hge, Nat.add_sub_cancel_left]
  rcases Nat.lt_or_ge i us.length with hi | hi
  · rw [write_of_outside (.inl (Nat.add_lt_add_left hi a)), write, write, hat, hat,
      List.getElem?_append_left hi]
  · have hsecond : (Patch.mk (a + us.length) vs).at? (a + i) = vs[i - us.length]? := by
      rw [at?, if_pos (Nat.add_le_add_left hi a), Nat.add_sub_add_left]
    rw [write, write, write, hsecond, hat, hat, List.getElem?_append_right hi,
      List.getElem?_eq_none hi, Option.getD_none]

/-- Two runs of values, the second behind the first. -/
theorem holds_append {off : ℕ} {us vs : List α} :
    (⟨off, us ++ vs⟩ : Patch α).Holds m ↔
      (⟨off, us⟩ : Patch α).Holds m ∧ (⟨off + us.length, vs⟩ : Patch α).Holds m := by
  constructor
  · refine fun h ↦ ⟨fun i hi ↦ ?_, fun i hi ↦ ?_⟩
    · exact (h i (by rw [List.length_append]; exact Nat.lt_add_right _ hi)).trans
        (List.getElem_append_left hi)
    · have hlast := h (us.length + i) (by rw [List.length_append]; exact Nat.add_lt_add_left hi _)
      rw [List.getElem_append_right (Nat.le_add_right _ _)] at hlast
      simpa only [Nat.add_sub_cancel_left, Nat.add_assoc] using hlast
  · rintro ⟨hu, hv⟩ i hi
    rcases Nat.lt_or_ge i us.length with hlt | hge
    · exact (hu i hlt).trans (List.getElem_append_left hlt).symm
    · obtain ⟨j, rfl⟩ := Nat.exists_eq_add_of_le hge
      have hj : j < vs.length := by
        rw [List.length_append] at hi
        exact Nat.lt_of_add_lt_add_left hi
      have hlast := hv j hj
      rw [List.getElem_append_right hge]
      simpa only [Nat.add_sub_cancel_left, Nat.add_assoc] using hlast

/-- No address lies under both patches. -/
def Apart (p q : Patch α) : Prop := p.off + p.vals.length ≤ q.off ∨ q.off + q.vals.length ≤ p.off

instance : Std.Symm (Apart : Patch α → Patch α → Prop) := ⟨fun _ _ ↦ Or.symm⟩

theorem Apart.at?_eq_none {q : Patch α} {v : α} (h : p.Apart q) (hv : p.at? a = some v) :
    q.at? a = none := by
  have hlo := off_le_of_at? hv
  have hhi := lt_of_at? hv
  refine Patch.at?_eq_none ?_
  rcases h with h | h
  · exact .inl (Nat.lt_of_lt_of_le hhi h)
  · exact .inr (Nat.le_trans h hlo)

/-! ### A list of patches -/

theorem writeAll_append (qs : List (Patch α)) :
    writeAll m (ps ++ qs) = writeAll (writeAll m ps) qs := List.foldl_append

/-- **An address holds what the last patch over it wrote.** -/
theorem writeAll_apply :
    writeAll m ps a = ((ps.filterMap fun p ↦ p.at? a).getLast?).getD (m a) :=
  GuardedLoop.foldl_register write (fun m ↦ m a) (fun p ↦ p.at? a) (fun _ _ ↦ rfl) m ps

/-- An address keeps its value when every patch over it repeats that value. -/
theorem writeAll_of_forall (h : ∀ p ∈ ps, ∀ v, p.at? a = some v → m a = v) :
    writeAll m ps a = m a := by
  rw [writeAll_apply]
  cases hl : (ps.filterMap fun p ↦ p.at? a).getLast? with
  | none => rfl
  | some v =>
    obtain ⟨p, hp, hv⟩ := List.mem_filterMap.1 (List.mem_of_getLast? hl)
    exact (h p hp v hv).symm

/-- A changed address lies under a patch that does not repeat its value. -/
theorem exists_of_writeAll_ne (h : writeAll m ps a ≠ m a) :
    ∃ p ∈ ps, ¬ p.Holds m ∧ p.off ≤ a ∧ a < p.off + p.vals.length := by
  by_contra hno
  refine h (writeAll_of_forall fun p hp v hv ↦ ?_)
  by_contra hne
  exact hno ⟨p, hp, fun hold ↦ hne (holds_iff.1 hold a v hv), off_le_of_at? hv, lt_of_at? hv⟩

/-- An address takes the value of a patch that no other patch over it contradicts. -/
theorem writeAll_of_mem {v : α} (hp : p ∈ ps) (hv : p.at? a = some v)
    (h : ∀ q ∈ ps, ∀ w, q.at? a = some w → w = v) : writeAll m ps a = v := by
  have hmem : v ∈ ps.filterMap fun q ↦ q.at? a := List.mem_filterMap.2 ⟨p, hp, hv⟩
  rw [writeAll_apply]
  cases hl : (ps.filterMap fun q ↦ q.at? a).getLast? with
  | none =>
    rw [List.getLast?_eq_none_iff.1 hl] at hmem
    exact absurd hmem List.not_mem_nil
  | some w =>
    obtain ⟨q, hq, hw⟩ := List.mem_filterMap.1 (List.mem_of_getLast? hl)
    exact h q hq w hw

/-- Of patches that lie apart each is there in the end. -/
theorem holds_writeAll (m : ℕ → α) (hps : ps.Pairwise Apart) (hp : p ∈ ps) :
    p.Holds (writeAll m ps) := by
  refine holds_iff.2 fun a v hv ↦ writeAll_of_mem hp hv fun q hq w hw ↦ ?_
  rcases em (p = q) with rfl | hne
  · exact Option.some.inj (hw.symm.trans hv)
  · have hapart : p.Apart q := hps.forall hp hq hne
    rw [hapart.at?_eq_none hv] at hw
    cases hw

/-- Writing what is already there changes nothing. -/
theorem writeAll_of_holds (h : ∀ p ∈ ps, p.Holds m) : writeAll m ps = m :=
  funext fun _ ↦ writeAll_of_forall fun p hp v hv ↦ holds_iff.1 (h p hp) _ v hv

end Patch
