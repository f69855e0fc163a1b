import Mathlib.Data.List.Basic

/-!
# Labelled transition systems

A system is given by its initial states and the steps it can take, each with a label that says
which action was taken with which inputs.

* `Reachable.invariant` — what holds initially and is kept by every step holds in every reachable
  state;
* `System.restrict` — the same system with only the steps that meet a condition on the state and the
  label. Statements of the form "in every run whose steps all meet the condition" are statements
  about its reachable states;
* `Reachable.of_foldlM` and `Reachable.exists_of_run` — the states a step function computes along a
  list of labels are reachable; with the function that is stopped when the condition fails
  (`checked`) they are reachable in the restricted system.
-/

/-- A transition system with states `σ` and labels `α`. -/
structure System (σ α : Type*) where
  init : σ → Prop
  next : σ → α → σ → Prop

namespace System

variable {σ α ε : Type*}

/-- The states that a run of the system can come to. -/
inductive Reachable (S : System σ α) : σ → Prop where
  | init {s : σ} : S.init s → Reachable S s
  | step {s t : σ} (a : α) : Reachable S s → S.next s a t → Reachable S t

/-- Only the steps that meet a condition. -/
def restrict (S : System σ α) (P : σ → α → Prop) : System σ α where
  init := S.init
  next s a t := P s a ∧ S.next s a t

variable {S : System σ α}

/-- The invariant rule. -/
theorem Reachable.invariant {I : σ → Prop} (hinit : ∀ s, S.init s → I s)
    (hstep : ∀ s a t, I s → S.next s a t → I t) {s : σ} (hs : Reachable S s) : I s := by
  induction hs with
  | init h => exact hinit _ h
  | step a _ hnext ih => exact hstep _ a _ ih hnext

/-- A run whose steps meet the condition is a run of the restricted system. -/
theorem Reachable.restrict {P : σ → α → Prop} {s : σ} (hs : Reachable S s)
    (hP : ∀ s a t, S.next s a t → P s a) : Reachable (S.restrict P) s := by
  induction hs with
  | init h => exact .init h
  | step a _ hnext ih => exact .step a ih ⟨hP _ a _ hnext, hnext⟩

/-- What a step function computes along a list of labels is reachable. -/
theorem Reachable.of_foldlM {f : σ → α → Except ε σ}
    (hf : ∀ s a t, f s a = .ok t → S.next s a t) {as : List α} {s t : σ} (hs : Reachable S s)
    (hrun : as.foldlM f s = .ok t) : Reachable S t := by
  induction as generalizing s with
  | nil =>
    obtain rfl : s = t := Except.ok.inj hrun
    exact hs
  | cons a as ih =>
    rw [List.foldlM_cons] at hrun
    cases hstep : f s a with
    | error e =>
      rw [hstep] at hrun
      cases hrun
    | ok u =>
      rw [hstep] at hrun
      exact ih (.step a hs (hf s a u hstep)) hrun

/-- A list of labels along which the step function comes to a state of which `p` holds. -/
theorem Reachable.exists_of_run {f : σ → α → Except ε σ}
    (hf : ∀ s a t, f s a = .ok t → S.next s a t) {l : List α} {s : σ} {p : σ → Bool}
    (hs : Reachable S s) (hrun : (l.foldlM f s).toOption.any p = true) :
    ∃ t, Reachable S t ∧ p t = true := by
  cases hfold : l.foldlM f s with
  | error e =>
    rw [hfold] at hrun
    cases hrun
  | ok t =>
    rw [hfold] at hrun
    exact ⟨t, .of_foldlM hf hs hfold, hrun⟩

/-- The step function stopped at the steps that do not meet the condition. -/
def checked (P : σ → α → Prop) [∀ s a, Decidable (P s a)] (f : σ → α → Except ε σ) (e : ε) (s : σ)
    (a : α) : Except ε σ :=
  if P s a then f s a else .error e

theorem next_of_checked {P : σ → α → Prop} [∀ s a, Decidable (P s a)] {f : σ → α → Except ε σ}
    {e : ε} (hf : ∀ s a t, f s a = .ok t → S.next s a t) (s : σ) (a : α) (t : σ)
    (hstep : checked P f e s a = .ok t) : (S.restrict P).next s a t := by
  rw [checked] at hstep
  split_ifs at hstep with hP
  exact ⟨hP, hf s a t hstep⟩

end System
