import Mathlib.Tactic.SplitIfs

/-!
# Total correctness of computations that may fail

`Yields x P` says that the computation `x` has a result and that the result satisfies `P`: it is the
weakest precondition of `x` for `P` when a failure is never acceptable. There is one rule for each
way a computation is put together, each of them an equivalence, so that rewriting with the rules
turns a program into the exact condition for its success.

* `yields_ok`, `yields_error`, `yields_bind`, `yields_ite` — the rules;
* `yields_congr` — postconditions that agree on the results there are;
* `yields_and_left` — what does not depend on the result comes out.

Nothing here knows what the results or the failures are.
-/

namespace TotalCorrectness

universe u

variable {α β : Type u} {ε : Type*}

/-- The computation has a result that satisfies `P`. -/
def Yields (x : Except ε α) (P : α → Prop) : Prop := ∃ a, x = .ok a ∧ P a

variable {x : Except ε α} {P Q : α → Prop}

@[simp]
theorem yields_ok {a : α} : Yields (.ok a : Except ε α) P ↔ P a := by
  constructor
  · rintro ⟨a', ha, hP⟩
    exact Except.ok.inj ha ▸ hP
  · exact fun hP ↦ ⟨a, rfl, hP⟩

@[simp]
theorem yields_error {e : ε} : Yields (.error e : Except ε α) P ↔ False := by
  refine ⟨fun ⟨_, h, _⟩ ↦ ?_, False.elim⟩
  cases h

/-- One computation after another. -/
theorem yields_bind {f : α → Except ε β} {R : β → Prop} :
    Yields (x >>= f) R ↔ Yields x fun a ↦ Yields (f a) R := by
  rcases x with e | a
  · show Yields (.error e : Except ε β) R ↔ _
    rw [yields_error, yields_error]
  · show Yields (f a) R ↔ _
    rw [yields_ok]

theorem yields_ite {c : Prop} [Decidable c] {y : Except ε α} :
    Yields (if c then x else y) P ↔ if c then Yields x P else Yields y P := by
  split_ifs <;> rfl

theorem yields_congr (h : ∀ a, x = .ok a → (P a ↔ Q a)) : Yields x P ↔ Yields x Q :=
  exists_congr fun a ↦ and_congr_right fun ha ↦ h a ha

/-- A computation that has a result in any case. -/
theorem yields_of_forall (hx : ∃ a, x = .ok a) (h : ∀ a, P a) : Yields x P :=
  hx.imp fun a ha ↦ ⟨ha, h a⟩

theorem yields_and_left {c : Prop} : (Yields x fun a ↦ c ∧ P a) ↔ c ∧ Yields x P := by
  constructor
  · rintro ⟨a, ha, hc, hP⟩
    exact ⟨hc, a, ha, hP⟩
  · rintro ⟨hc, a, ha, hP⟩
    exact ⟨a, ha, hc, hP⟩

end TotalCorrectness
