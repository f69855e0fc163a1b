import Cs537OS.Foundation.Transitions

/-!
# Refinement

A system refines another, more abstract one if an abstraction takes its initial states to initial
states, and a step that is visible (`label`) to a step with that label; the other steps change
nothing of what is abstract. So what can be seen of a run (`Trace`) is a run of the abstract system.

* `Refines.trace` — runs are taken to runs;
* `trace_of_deterministic` — a run of a system whose steps are functions: each step was allowed
  where the steps before it lead to.
-/

variable {σ α ρ β : Type*}

/-- What can be seen of a run from `s`, and where it leads. -/
inductive System.Trace (S : System σ α) (label : σ → α → σ → Option β) (s : σ) :
    List β → σ → Prop
  | nil : Trace S label s [] s
  | step {es : List β} {t u : σ} (a : α) : Trace S label s es t → S.next t a u →
    Trace S label s (es ++ (label t a u).toList) u

namespace System

variable {ε : Type*} {S : System σ α} {label : σ → α → σ → Option β}

/-- A step function with what can be seen of its steps. -/
def observe (label : σ → α → σ → Option β) (f : σ → α → Except ε σ) (r : List β × σ) (a : α) :
    Except ε (List β × σ) :=
  (f r.2 a).map fun t ↦ (r.1 ++ (label r.2 a t).toList, t)

theorem Trace.of_foldlM {f : σ → α → Except ε σ} (hf : ∀ s a t, f s a = .ok t → S.next s a t)
    {as : List α} {s : σ} {r r' : List β × σ} (h : S.Trace label s r.1 r.2)
    (hrun : as.foldlM (observe label f) r = .ok r') : S.Trace label s r'.1 r'.2 := by
  induction as generalizing r with
  | nil =>
    obtain rfl : r = r' := Except.ok.inj hrun
    exact h
  | cons a as ih =>
    rw [List.foldlM_cons, observe] at hrun
    cases hstep : f r.2 a with
    | error e =>
      rw [hstep] at hrun
      cases hrun
    | ok t =>
      rw [hstep] at hrun
      exact ih (.step a h (hf r.2 a t hstep)) hrun

/-- What is seen along a list of labels. -/
theorem Trace.exists_of_run {f : σ → α → Except ε σ} (hf : ∀ s a t, f s a = .ok t → S.next s a t)
    {as : List α} {s : σ} {p : List β × σ → Bool}
    (hrun : (as.foldlM (observe label f) ([], s)).toOption.any p = true) :
    ∃ es t, S.Trace label s es t ∧ p (es, t) = true := by
  cases hfold : as.foldlM (observe label f) ([], s) with
  | error e =>
    rw [hfold] at hrun
    cases hrun
  | ok r =>
    rw [hfold] at hrun
    exact ⟨r.1, r.2, .of_foldlM hf .nil hfold, hrun⟩

/-- A run whose steps meet a condition is a run. -/
theorem Trace.of_restrict {P : σ → α → Prop} {s t : σ} {es : List β}
    (h : (S.restrict P).Trace label s es t) : S.Trace label s es t := by
  induction h with
  | nil => exact .nil
  | step a _ hnext ih => exact .step a ih hnext.2

theorem Trace.reachable {s t : σ} {es : List β} (hs : S.init s) (h : S.Trace label s es t) :
    S.Reachable t := by
  induction h with
  | nil => exact .init hs
  | step a _ hnext ih => exact .step a ih hnext

end System

/-- A refinement, where the states of the refining system satisfy `I`. -/
structure Refines (S : System σ α) (T : System ρ β) (I : σ → Prop) (abs : σ → ρ)
    (label : σ → α → σ → Option β) : Prop where
  init : ∀ s, S.init s → I s ∧ T.init (abs s)
  inv : ∀ s a t, I s → S.next s a t → I t
  /-- A visible step. -/
  step : ∀ s a t b, I s → S.next s a t → label s a t = some b → T.next (abs s) b (abs t)
  /-- A step that is not visible. -/
  stutter : ∀ s a t, I s → S.next s a t → label s a t = none → abs t = abs s

/-- **Runs are taken to runs.** -/
theorem Refines.trace {S : System σ α} {T : System ρ β} {I : σ → Prop} {abs : σ → ρ}
    {label : σ → α → σ → Option β} (h : Refines S T I abs label) {s t : σ} {es : List β}
    (hs : S.init s) (ht : S.Trace label s es t) :
    I t ∧ T.Trace (fun _ b _ ↦ some b) (abs s) es (abs t) := by
  induction ht with
  | nil => exact ⟨(h.init s hs).1, .nil⟩
  | @step es t u a _ hnext ih =>
    obtain ⟨hinv, htrace⟩ := ih
    refine ⟨h.inv t a u hinv hnext, ?_⟩
    cases hlabel : label t a u with
    | some b => exact .step b htrace (h.step t a u b hinv hnext hlabel)
    | none =>
      rw [h.stutter t a u hinv hnext hlabel, Option.toList_none, List.append_nil]
      exact htrace

/-- **Each step is allowed** where the steps before it lead to. -/
theorem System.trace_of_deterministic {T : System ρ β} (ok : ρ → β → Prop) {f : ρ → β → ρ}
    (hT : ∀ c b c', T.next c b c' → ok c b ∧ c' = f c b) {c c' : ρ} {es : List β}
    (h : T.Trace (fun _ b _ ↦ some b) c es c') :
    c' = es.foldl f c ∧ ∀ es₁ b es₂, es = es₁ ++ b :: es₂ → ok (es₁.foldl f c) b := by
  induction h with
  | nil =>
    refine ⟨rfl, fun es₁ b es₂ heq ↦ ?_⟩
    cases es₁ <;> cases heq
  | @step es d d' b _ hnext ih =>
    obtain ⟨hd, hbefore⟩ := ih
    obtain ⟨hok, hd'⟩ := hT d b d' hnext
    rw [hd] at hok hd'
    rw [Option.toList_some]
    refine ⟨by rw [List.foldl_concat]; exact hd', fun es₁ b' es₂ heq ↦ ?_⟩
    rcases es₂.eq_nil_or_concat with rfl | ⟨es₂, b'', rfl⟩
    · obtain ⟨rfl, hb⟩ := List.append_inj' heq rfl
      obtain rfl := List.singleton_inj.1 hb
      exact hok
    · rw [List.concat_eq_append, ← List.cons_append, ← List.append_assoc] at heq
      exact hbefore es₁ b' es₂ (List.append_inj' heq rfl).1
