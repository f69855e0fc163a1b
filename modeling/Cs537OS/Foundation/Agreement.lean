import Mathlib.Logic.Basic

/-!
# Two computations in step

`Agree R x y` says of two computations that may fail that they fail together and for the same
reason, or else both have results, and the results are related by `R`. It is the notion of
refinement for a program that is written twice, once with more in its state than the other time.
There is a rule for each way a computation is put together:

* `Agree.ok`, `Agree.error`, `Agree.bind`, `Agree.ite`, `Agree.foldlM` — the rules;
* `Agree.map_left`, `Agree.map_right` — what only one of the two does to its result;
* `Agree.exists_of_ok` — what the one computation comes to, the other does too;
* `Agree.with_eq` — the related results are the results.
-/

namespace Agreement

universe u

variable {α α' β β' : Type u} {ε : Type*}

/-- Both computations fail with the same failure, or they have related results. -/
inductive Agree (R : α → β → Prop) : Except ε α → Except ε β → Prop
  | error (e : ε) : Agree R (.error e) (.error e)
  | ok {a : α} {b : β} (h : R a b) : Agree R (.ok a) (.ok b)

namespace Agree

variable {R S : α → β → Prop} {x : Except ε α} {y : Except ε β}

/-- A result on the left has its counterpart on the right. -/
theorem exists_of_ok {a : α} (h : Agree R x y) (hx : x = .ok a) : ∃ b, y = .ok b ∧ R a b := by
  cases h with
  | error e => cases hx
  | ok hR =>
    cases hx
    exact ⟨_, rfl, hR⟩

/-- The results are those of the two computations. -/
theorem with_eq (h : Agree R x y) : Agree (fun a b ↦ R a b ∧ x = .ok a ∧ y = .ok b) x y := by
  cases h with
  | error e => exact .error e
  | ok hR => exact .ok ⟨hR, rfl, rfl⟩

theorem mono (h : Agree R x y) (hRS : ∀ a b, R a b → S a b) : Agree S x y := by
  cases h with
  | error e => exact .error e
  | ok hR => exact .ok (hRS _ _ hR)

/-- One computation after another, on both sides. -/
theorem bind {f : α → Except ε α'} {g : β → Except ε β'} {R' : α' → β' → Prop} (h : Agree R x y)
    (hfg : ∀ a b, R a b → Agree R' (f a) (g b)) : Agree R' (x >>= f) (y >>= g) := by
  cases h with
  | error e => exact .error e
  | ok hR => exact hfg _ _ hR

/-- What one side does to its result at the end. -/
theorem map_left {f : α → α'} {S : α' → β → Prop} (h : Agree R x y)
    (hS : ∀ a b, R a b → S (f a) b) : Agree S (x >>= fun a ↦ .ok (f a)) y := by
  cases h with
  | error e => exact .error e
  | ok hR => exact .ok (hS _ _ hR)

theorem map_right {g : β → β'} {S : α → β' → Prop} (h : Agree R x y)
    (hS : ∀ a b, R a b → S a (g b)) : Agree S x (y >>= fun b ↦ .ok (g b)) := by
  cases h with
  | error e => exact .error e
  | ok hR => exact .ok (hS _ _ hR)

/-- Both sides decide in the same way. -/
theorem ite {c c' : Prop} [Decidable c] [Decidable c'] {x' : Except ε α} {y' : Except ε β}
    (hc : c ↔ c') (h : c → Agree R x y) (h' : ¬ c → Agree R x' y') :
    Agree R (if c then x else x') (if c' then y else y') := by
  rcases em c with hpos | hneg
  · rw [if_pos hpos, if_pos (hc.1 hpos)]
    exact h hpos
  · rw [if_neg hneg, if_neg (mt hc.2 hneg)]
    exact h' hneg

/-- A loop, turn by turn. -/
theorem foldlM {γ : Type*} {f : α → γ → Except ε α} {g : β → γ → Except ε β}
    (h : ∀ a b c, R a b → Agree R (f a c) (g b c)) {a : α} {b : β} (hR : R a b) (cs : List γ) :
    Agree R (cs.foldlM f a) (cs.foldlM g b) := by
  induction cs generalizing a b with
  | nil => exact .ok hR
  | cons c cs ih =>
    rw [List.foldlM_cons, List.foldlM_cons]
    exact (h a b c hR).bind fun a' b' hR' ↦ ih hR'

end Agree

end Agreement
