import Mathlib.Data.Nat.Basic
import Mathlib.Logic.Function.Basic

/-!
# Flags taken with an exchange

Threads run a program between whose places they move. At some of the places, those that `holds`
marks, a thread has taken a flag, by an exchange that found it to be 0, and has not given it back.

`Held` says that at most one thread is at a marked place, that the flag is 1 when one is and 0 when
none is. A move between two places of the same kind keeps that (`Held.stay`), and so do the
exchange (`Held.take`) and giving the flag back (`Held.give`).
-/

namespace SpinFlag

variable {ι π : Type*} {holds : π → Bool} {place : ι → π} {flag : ℕ} {owner : Option ι} {p q : ι}
  {l : π}

/-- The flag is held by `owner`. -/
structure Held (holds : π → Bool) (place : ι → π) (flag : ℕ) (owner : Option ι) : Prop where
  holds_iff : ∀ t, holds (place t) = true ↔ owner = some t
  flag_eq : flag = if owner.isSome then 1 else 0

theorem held_none (h : ∀ t, holds (place t) = false) : Held holds place 0 none := by
  refine ⟨fun t ↦ ?_, rfl⟩
  rw [h t]
  exact ⟨nofun, nofun⟩

theorem Held.owner_eq (h : Held holds place flag owner) (hp : holds (place p) = true) :
    owner = some p :=
  (h.holds_iff p).1 hp

/-- **Mutual exclusion.** -/
theorem Held.unique (h : Held holds place flag owner) (hp : holds (place p) = true)
    (hq : holds (place q) = true) : p = q :=
  Option.some.inj ((h.owner_eq hp).symm.trans (h.owner_eq hq))

theorem Held.flag_eq_one (h : Held holds place flag owner) (hp : holds (place p) = true) :
    flag = 1 := by
  rw [h.flag_eq, h.owner_eq hp]
  rfl

theorem Held.owner_eq_none (h : Held holds place flag owner) (hflag : flag = 0) :
    owner = none := by
  cases owner with
  | none => rfl
  | some p =>
    have hone := h.flag_eq_one ((h.holds_iff p).2 rfl)
    omega

variable [DecidableEq ι]

/-- A move between places of the same kind. -/
theorem Held.stay (h : Held holds place flag owner) (hl : holds l = holds (place p)) :
    Held holds (Function.update place p l) flag owner := by
  refine ⟨fun t ↦ ?_, h.flag_eq⟩
  by_cases ht : t = p
  · rw [ht, Function.update_self, hl]
    exact h.holds_iff p
  · rw [Function.update_of_ne ht]
    exact h.holds_iff t

/-- The exchange finds the flag to be 0. -/
theorem Held.take (h : Held holds place flag owner) (hflag : flag = 0) (hl : holds l = true) :
    Held holds (Function.update place p l) 1 (some p) := by
  refine ⟨fun t ↦ ?_, rfl⟩
  by_cases ht : t = p
  · rw [ht, Function.update_self, hl]
    exact ⟨fun _ ↦ rfl, fun _ ↦ rfl⟩
  · rw [Function.update_of_ne ht, h.holds_iff t, h.owner_eq_none hflag]
    exact ⟨nofun, fun heq ↦ absurd (Option.some.inj heq).symm ht⟩

/-- The flag is given back. -/
theorem Held.give (h : Held holds place flag owner) (hp : holds (place p) = true)
    (hl : holds l = false) : Held holds (Function.update place p l) 0 none := by
  refine held_none fun t ↦ ?_
  by_cases ht : t = p
  · rw [ht, Function.update_self, hl]
  · rw [Function.update_of_ne ht, ← Bool.not_eq_true]
    exact fun htrue ↦ ht (h.unique htrue hp)

end SpinFlag
