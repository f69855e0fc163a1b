import Mathlib.Data.List.Basic
import Mathlib.Data.List.Induction

/-!
# Loops with early exits

A loop whose body may stop the whole program is a fold in `Except`. Its reasoning principle
is that such a loop is a *guarded* fold: whenever a turn goes through, the next state is a
plain function `update` of the old one, so a loop that goes through ends in the plain fold,
and a loop that stops does so at one particular turn, reached from the plain fold of the
turns before it.

* `foldlM_eq_ok_iff` — what a completed loop says about every one of its turns;
* `foldlM_eq_error_iff` — where a stopped loop stopped;
* `foldlM_flatMap`, `foldlM_map` — nested loops are one loop over the concatenated turns.

Nothing here knows what the states or the turns are.
-/

namespace GuardedLoop

universe u

variable {σ α β ε : Type*} {ρ ρ' : Type u}

/-- Nested loops flatten: an outer turn that is itself a loop over `g a` contributes the turns
`g a` to one loop. -/
theorem foldlM_flatMap {f : σ → β → Except ε σ} {g : α → List β} {body : σ → α → Except ε σ}
    (h : ∀ s a, body s a = (g a).foldlM f s) (s : σ) (l : List α) :
    l.foldlM body s = (l.flatMap g).foldlM f s := by
  induction l generalizing s with
  | nil => rfl
  | cons a l ih =>
    rw [List.flatMap_cons, List.foldlM_append, List.foldlM_cons, h]
    exact congrArg _ (funext fun s' ↦ ih s')

/-- A loop whose turns are turns of another one. -/
theorem foldlM_map {f : σ → β → Except ε σ} {g : α → β} {body : σ → α → Except ε σ}
    (h : ∀ s a, body s a = f s (g a)) (s : σ) (l : List α) :
    l.foldlM body s = (l.map g).foldlM f s := by
  rw [List.foldlM_map]
  exact congrArg (fun b ↦ l.foldlM b s) (funext fun s' ↦ funext fun a ↦ h s' a)

/-! ### Guards and sequences -/

theorem bind_eq_ok_iff {x : Except ε ρ} {g : ρ → Except ε ρ'} {b : ρ'} :
    x >>= g = .ok b ↔ ∃ a, x = .ok a ∧ g a = .ok b := by
  rcases x with e | a
  · exact ⟨fun h ↦ (by cases h), fun ⟨_, h, _⟩ ↦ (by cases h)⟩
  · refine ⟨fun h ↦ ⟨a, rfl, h⟩, ?_⟩
    rintro ⟨a', ha, h⟩
    cases ha
    exact h

theorem bind_eq_error_iff {x : Except ε ρ} {g : ρ → Except ε ρ'} {e : ε} :
    x >>= g = .error e ↔ x = .error e ∨ ∃ a, x = .ok a ∧ g a = .error e := by
  rcases x with e' | a
  · show Except.error e' = Except.error e ↔ _
    simp
  · show g a = .error e ↔ _
    simp

/-- A computation whose result passes a test has a result. -/
theorem exists_eq_ok {x : Except ε ρ} {p : ρ → Bool}
    (h : (match x with | .ok a => p a | .error _ => false) = true) : ∃ a, x = .ok a ∧ p a := by
  rcases x with e | a
  · exact absurd h (by simp)
  · exact ⟨a, rfl, h⟩

theorem guard_eq_ok_iff {c : Prop} [Decidable c] {e : ε} {x : Except ε σ} {a : σ} :
    (if c then .error e else x) = .ok a ↔ ¬ c ∧ x = .ok a := by
  by_cases hc : c <;> simp [hc]

theorem guard_eq_error_iff {c : Prop} [Decidable c] {e e' : ε} {x : Except ε σ} :
    (if c then .error e else x) = .error e' ↔ c ∧ e = e' ∨ ¬ c ∧ x = .error e' := by
  by_cases hc : c <;> simp [hc]

/-! ### Guarded folds -/

/-- A split of the turns of a nested loop at one turn falls into one turn of the outer loop. -/
theorem flatMap_range_eq_append_cons {g : ℕ → List β} {n : ℕ} {pre post : List β} {b : β}
    (h : (List.range n).flatMap g = pre ++ b :: post) :
    ∃ i < n, ∃ p q, g i = p ++ b :: q ∧ pre = (List.range i).flatMap g ++ p := by
  induction n generalizing post with
  | zero => exact absurd h (by simp)
  | succ n ih =>
    rw [List.range_succ, List.flatMap_append, List.flatMap_singleton] at h
    obtain ⟨p, rfl, hn⟩ | ⟨q, hpre, hq⟩ := List.append_eq_append_iff.1 h
    · exact ⟨n, Nat.lt_succ_self n, p, post, hn, rfl⟩
    · cases q with
      | nil =>
        exact ⟨n, Nat.lt_succ_self n, [], post, hq.symm, by
          rw [hpre, List.append_nil, List.append_nil]⟩
      | cons c q =>
        obtain ⟨rfl, rfl⟩ := List.cons.inj hq
        obtain ⟨i, hi, hrest⟩ := ih hpre
        exact ⟨i, Nat.lt_succ_of_lt hi, hrest⟩

/-- A turn that goes through moves the state by `update`. -/
def Tracks (f : σ → α → Except ε σ) (update : σ → α → σ) : Prop :=
  ∀ s a s', f s a = .ok s' → s' = update s a

/-- Every turn of the loop over `l` goes through, each from the state its predecessors left. -/
def Passes (f : σ → α → Except ε σ) (update : σ → α → σ) (s : σ) (l : List α) : Prop :=
  ∀ pre a post, l = pre ++ a :: post →
    f (pre.foldl update s) a = .ok (update (pre.foldl update s) a)

variable {f : σ → α → Except ε σ} {update : σ → α → σ}

@[simp]
theorem passes_nil (s : σ) : Passes f update s [] := by
  intro pre a post h
  exact absurd h (by simp)

theorem passes_cons_iff {s : σ} {a : α} {l : List α} :
    Passes f update s (a :: l) ↔
      f s a = .ok (update s a) ∧ Passes f update (update s a) l := by
  constructor
  · intro h
    refine ⟨h [] a l rfl, fun pre b post hl ↦ ?_⟩
    exact h (a :: pre) b post (by rw [hl, List.cons_append])
  · rintro ⟨ha, hl⟩ pre b post h
    cases pre with
    | nil =>
      obtain ⟨rfl, rfl⟩ := List.cons.inj h
      exact ha
    | cons c pre =>
      obtain ⟨rfl, rfl⟩ := List.cons.inj h
      exact hl pre b post rfl

/-- Dropping turns from the end keeps a completed loop completed. -/
theorem Passes.of_append {s : σ} {l₁ l₂ : List α} (h : Passes f update s (l₁ ++ l₂)) :
    Passes f update s l₁ := by
  intro pre a post hl
  exact h pre a (post ++ l₂) (by rw [hl, List.append_assoc, List.cons_append])

/-- When going through does not depend on the state, a loop completes if every turn goes through
by itself. -/
theorem passes_iff_forall_mem {ok : α → Prop} (h : ∀ s a, f s a = .ok (update s a) ↔ ok a) {s : σ}
    {l : List α} : Passes f update s l ↔ ∀ a ∈ l, ok a := by
  constructor
  · intro hp a ha
    obtain ⟨pre, post, rfl⟩ := List.append_of_mem ha
    exact (h _ a).1 (hp pre a post rfl)
  · intro hp pre a post hl
    exact (h _ a).2 (hp a (hl ▸ List.mem_append_right pre List.mem_cons_self))

/-- **A completed loop.** It went through at every turn, and its final state is the plain
fold. -/
theorem foldlM_eq_ok_iff (hf : Tracks f update) {s s' : σ} {l : List α} :
    l.foldlM f s = .ok s' ↔ Passes f update s l ∧ s' = l.foldl update s := by
  induction l generalizing s with
  | nil =>
    rw [List.foldlM_nil, List.foldl_nil]
    refine ⟨fun h ↦ ⟨passes_nil s, (Except.ok.inj h).symm⟩, ?_⟩
    rintro ⟨-, rfl⟩
    rfl
  | cons a l ih =>
    rw [List.foldlM_cons, List.foldl_cons, passes_cons_iff]
    rcases hfa : f s a with e | s₁
    · refine ⟨fun h ↦ (by cases h), ?_⟩
      rintro ⟨⟨h, -⟩, -⟩
      cases h
    · rw [← hf s a s₁ hfa]
      show l.foldlM f s₁ = .ok s' ↔ _
      rw [ih]
      simp

/-- A loop whose turns go through or not whatever the state: it completes exactly when every turn
goes through. -/
theorem foldlM_eq_ok_iff_forall {ok : α → Prop}
    (h : ∀ s a s', f s a = .ok s' ↔ ok a ∧ s' = update s a) {s s' : σ} {l : List α} :
    l.foldlM f s = .ok s' ↔ (∀ a ∈ l, ok a) ∧ s' = l.foldl update s := by
  rw [foldlM_eq_ok_iff fun s a s' hs ↦ ((h s a s').1 hs).2,
    passes_iff_forall_mem fun s a ↦ (h s a _).trans (and_iff_left rfl)]

/-- A loop each of whose turns goes through from every state completes. -/
theorem exists_foldlM_eq_ok {l : List α} (h : ∀ a ∈ l, ∀ s, ∃ s', f s a = .ok s') (s : σ) :
    ∃ s', l.foldlM f s = .ok s' := by
  induction l generalizing s with
  | nil => exact ⟨s, rfl⟩
  | cons a l ih =>
    obtain ⟨s₁, hs₁⟩ := h a List.mem_cons_self s
    obtain ⟨s', hs'⟩ := ih (fun b hb ↦ h b (List.mem_cons_of_mem a hb)) s₁
    exact ⟨s', by rw [List.foldlM_cons, hs₁]; exact hs'⟩

/-- **A stopped loop** stopped at one turn: the turns before it went through. -/
theorem foldlM_eq_error_iff (hf : Tracks f update) {s : σ} {e : ε} {l : List α} :
    l.foldlM f s = .error e ↔
      ∃ pre a post, l = pre ++ a :: post ∧ Passes f update s pre ∧
        f (pre.foldl update s) a = .error e := by
  induction l generalizing s with
  | nil =>
    refine ⟨fun h ↦ (by cases h), ?_⟩
    rintro ⟨pre, a, post, h, -⟩
    exact absurd h (by simp)
  | cons a l ih =>
    rw [List.foldlM_cons]
    rcases hfa : f s a with e' | s₁
    · constructor
      · intro h
        cases h
        exact ⟨[], a, l, rfl, passes_nil s, hfa⟩
      · rintro ⟨pre, b, post, hl, hpre, hb⟩
        cases pre with
        | nil =>
          obtain ⟨rfl, rfl⟩ := List.cons.inj hl
          rw [List.foldl_nil, hfa] at hb
          exact congrArg Except.error (Except.error.inj hb)
        | cons c pre =>
          obtain ⟨rfl, rfl⟩ := List.cons.inj hl
          rw [passes_cons_iff, hfa] at hpre
          cases hpre.1
    -- the first turn has gone through, and the loop stops later
    · have hs₁ : s₁ = update s a := hf s a s₁ hfa
      show l.foldlM f s₁ = .error e ↔ _
      rw [ih]
      constructor
      · rintro ⟨pre, b, post, rfl, hpre, hb⟩
        refine ⟨a :: pre, b, post, rfl, passes_cons_iff.2 ⟨hs₁ ▸ hfa, hs₁ ▸ hpre⟩, ?_⟩
        rw [List.foldl_cons, ← hs₁]
        exact hb
      · rintro ⟨pre, b, post, hl, hpre, hb⟩
        cases pre with
        | nil =>
          obtain ⟨rfl, rfl⟩ := List.cons.inj hl
          rw [List.foldl_nil, hfa] at hb
          cases hb
        | cons c pre =>
          obtain ⟨rfl, rfl⟩ := List.cons.inj hl
          rw [List.foldl_cons, ← hs₁] at hb
          exact ⟨pre, b, post, rfl, hs₁ ▸ (passes_cons_iff.1 hpre).2, hb⟩

/-- A loop none of whose turns ends in `e` does not end in `e`. -/
theorem foldlM_ne_error {e : ε} (h : ∀ s a, f s a ≠ .error e) (s : σ) (l : List α) :
    l.foldlM f s ≠ .error e := by
  induction l generalizing s with
  | nil => exact fun h ↦ (by cases h)
  | cons a l ih =>
    rw [List.foldlM_cons, Ne, bind_eq_error_iff]
    rintro (ha | ⟨s', -, hl⟩)
    · exact h s a ha
    · exact ih s' hl

/-- What every turn preserves holds after a completed loop. -/
theorem foldlM_preserves {I : σ → Prop} (h : ∀ s a s', I s → f s a = .ok s' → I s') {s s' : σ}
    {l : List α} (hs : I s) (hl : l.foldlM f s = .ok s') : I s' := by
  induction l generalizing s with
  | nil => exact Except.ok.inj hl ▸ hs
  | cons a l ih =>
    rw [List.foldlM_cons] at hl
    obtain ⟨s₁, ha, hl⟩ := bind_eq_ok_iff.1 hl
    exact ih (h s a s₁ hs ha) hl

/-- A loop whose turns all go through as long as they preserve something completes. -/
theorem exists_foldlM_of_preserves {I : σ → Prop} (h : ∀ s a, I s → ∃ s', f s a = .ok s' ∧ I s')
    {s : σ} (hs : I s) (l : List α) : ∃ s', l.foldlM f s = .ok s' ∧ I s' := by
  induction l generalizing s with
  | nil => exact ⟨s, rfl, hs⟩
  | cons a l ih =>
    obtain ⟨s₁, ha, hs₁⟩ := h s a hs
    obtain ⟨s', hl, hs'⟩ := ih hs₁
    exact ⟨s', by rw [List.foldlM_cons, ha]; exact hl, hs'⟩

/-! ### Loops that only check

A loop whose turns leave no state: it completes when every turn does, and otherwise ends as the
first turn that does not. -/

theorem checks_eq_ok_iff {f : α → Except ε Unit} {l : List α} :
    l.foldlM (fun _ a ↦ f a) () = .ok () ↔ ∀ a ∈ l, f a = .ok () := by
  induction l with
  | nil => exact ⟨fun _ a ha ↦ absurd ha List.not_mem_nil, fun _ ↦ rfl⟩
  | cons a l ih =>
    rw [List.foldlM_cons, List.forall_mem_cons]
    rcases ha : f a with e | ⟨⟩
    · exact ⟨fun h ↦ (by cases h), fun h ↦ (by cases h.1)⟩
    · show l.foldlM (fun _ a ↦ f a) () = .ok () ↔ _
      rw [ih]
      exact (and_iff_right rfl).symm

theorem exists_of_checks_eq_error {f : α → Except ε Unit} {e : ε} {l : List α}
    (h : l.foldlM (fun _ a ↦ f a) () = .error e) : ∃ a ∈ l, f a = .error e := by
  induction l with
  | nil => cases h
  | cons a l ih =>
    rw [List.foldlM_cons, bind_eq_error_iff] at h
    rcases h with ha | ⟨⟨⟩, -, hl⟩
    · exact ⟨a, List.mem_cons_self, ha⟩
    · obtain ⟨b, hb, hfb⟩ := ih hl
      exact ⟨b, List.mem_cons_of_mem a hb, hfb⟩

/-- A loop that completes every turn before `a`, or ends there as it does at `a`, ends so. -/
theorem checks_eq_error {f : α → Except ε Unit} {e : ε} {pre post : List α} {a : α}
    (h : ∀ b ∈ pre, f b = .ok () ∨ f b = .error e) (ha : f a = .error e) :
    (pre ++ a :: post).foldlM (fun _ a ↦ f a) () = .error e := by
  induction pre with
  | nil =>
    rw [List.nil_append, List.foldlM_cons, ha]
    rfl
  | cons b pre ih =>
    obtain ⟨hb, hpre⟩ := List.forall_mem_cons.1 h
    rw [List.cons_append, List.foldlM_cons]
    rcases hb with hb | hb
    · rw [hb]
      exact ih hpre
    · rw [hb]
      rfl

/-! ### Tables that a fold fills

Three kinds of observation of the final state: a counter that some turns raise, a flag that some
turns set, and a register that some turns overwrite. Which turns do is given by a partial
function `pick` of the turn. -/

section

variable (update)

/-- **Counters.** A number raised once for every picked item with `p` counts those items. -/
theorem foldl_counter (get : σ → ℕ) (pick : α → Option β) (p : β → Bool)
    (h : ∀ s a, get (update s a) = get s + (pick a).toList.countP p) (s : σ) (l : List α) :
    get (l.foldl update s) = get s + (l.filterMap pick).countP p := by
  induction l generalizing s with
  | nil => rfl
  | cons a l ih =>
    rw [List.foldl_cons, ih, h, List.filterMap_cons]
    rcases pick a with - | b
    · simp
    · simp only [Option.toList_some, List.countP_cons, List.countP_nil]
      omega

/-- **Flags.** A flag that turns only set is up at the end exactly when it was up at the start or
some turn set it. -/
theorem foldl_flag (up : σ → Prop) (q : α → Prop)
    (h : ∀ s a, up (update s a) ↔ up s ∨ q a) (s : σ) (l : List α) :
    up (l.foldl update s) ↔ up s ∨ ∃ a ∈ l, q a := by
  induction l generalizing s with
  | nil => simp
  | cons a l ih =>
    rw [List.foldl_cons, ih, h]
    simp [or_assoc]

/-- **Registers.** A register that picked turns overwrite holds the last value picked. -/
theorem foldl_register (get : σ → β) (pick : α → Option β)
    (h : ∀ s a, get (update s a) = (pick a).getD (get s)) (s : σ) (l : List α) :
    get (l.foldl update s) = ((l.filterMap pick).getLast?).getD (get s) := by
  induction l generalizing s with
  | nil => rfl
  | cons a l ih =>
    rw [List.foldl_cons, ih, h, List.filterMap_cons]
    rcases pick a with - | b
    · rfl
    · simp [List.getLast?_cons]

end

/-- A list in which no picked item was picked before has no repeated picks. -/
theorem nodup_filterMap_of_forall_prefix (pick : α → Option β) {l : List α}
    (h : ∀ pre a post b, l = pre ++ a :: post → pick a = some b → b ∉ pre.filterMap pick) :
    (l.filterMap pick).Nodup := by
  induction l using List.reverseRecOn with
  | nil => simp
  | append_singleton l a ih =>
    have hl : (l.filterMap pick).Nodup := ih fun pre c post b hl ↦
      h pre c (post ++ [a]) b (by rw [hl, List.append_assoc, List.cons_append])
    rw [List.filterMap_append]
    rcases hp : pick a with - | b
    · simpa [hp] using hl
    · have hb : b ∉ l.filterMap pick := h l a [] b rfl hp
      refine List.nodup_append.2 ⟨hl, by simp [hp], ?_⟩
      rintro c hc c' hc' rfl
      have hcb : c = b := by simpa [hp] using hc'
      exact hb (hcb ▸ hc)

end GuardedLoop
