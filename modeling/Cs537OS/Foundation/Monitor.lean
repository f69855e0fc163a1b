import Mathlib.Data.Fintype.Option
import Mathlib.Tactic.SplitIfs

/-!
# A mutex and its condition variables

Threads run programs between whose places they move, and share a mutex. At the places that `inside`
marks a thread has the mutex; at a place that `waits` gives a condition variable it has called
`wait` on that variable and not come back. A thread that waits is asleep (`Monitor.asleep`) until a
signal or a spurious wakeup; awake it has to take the mutex again before it comes back, and others
may be faster.

`Obeys` says that the threads at marked places are those that have the mutex, so there is at most
one, and that only threads that wait are asleep. It is kept by a move between two places of the
same kind (`Obeys.stay`), and by what the operations do together with the move that goes with
them: `Obeys.lock`, `Obeys.unlock`, `Obeys.wait` and `Obeys.wake`.

A signal wakes at least one of the threads that are asleep on its variable, if there is one
(`Monitor.Signals`); `Monitor.Signals.exists_awake` is what a caller can rely on. A broadcast wakes
all of them.

Where a program is given as a list of statements, each with one operation (`Monitor.Op`),
`Obeys.perform` is one lemma for all of them. `Attentive` says that whoever sleeps has a reason to,
or is about to be woken by the thread that has the mutex; `Attentive.perform` asks for what one
statement has to do so that it stays true.
-/

/-- Who has the mutex, and who sleeps on which condition variable. -/
structure Monitor (τ γ : Type*) where
  owner : Option τ
  asleep : τ → Option γ

namespace Monitor

variable {τ γ : Type*}

/-- Nobody has the mutex and nobody sleeps. -/
def idle : Monitor τ γ where
  owner := none
  asleep _ := none

/-- The thread can take the mutex. -/
def CanLock (m : Monitor τ γ) (t : τ) : Prop := m.owner = none ∧ m.asleep t = none

instance [DecidableEq γ] (m : Monitor τ γ) (t : τ) : Decidable (m.CanLock t) :=
  inferInstanceAs (Decidable (_ ∧ _))

def lock (m : Monitor τ γ) (t : τ) : Monitor τ γ := { m with owner := some t }

def unlock (m : Monitor τ γ) : Monitor τ γ := { m with owner := none }

@[simp] theorem lock_owner (m : Monitor τ γ) (t : τ) : (m.lock t).owner = some t := rfl
@[simp] theorem lock_asleep (m : Monitor τ γ) (t : τ) : (m.lock t).asleep = m.asleep := rfl
@[simp] theorem unlock_owner (m : Monitor τ γ) : m.unlock.owner = none := rfl
@[simp] theorem unlock_asleep (m : Monitor τ γ) : m.unlock.asleep = m.asleep := rfl

section

variable [DecidableEq τ]

/-- Give the mutex back and fall asleep, in one step. -/
def wait (m : Monitor τ γ) (t : τ) (c : γ) : Monitor τ γ where
  owner := none
  asleep := Function.update m.asleep t (some c)

/-- The threads `ws` are awake. -/
def wake (m : Monitor τ γ) (ws : List τ) : Monitor τ γ :=
  { m with asleep := fun t ↦ if t ∈ ws then none else m.asleep t }

/-- A signal on `c` may wake the threads `ws`: they sleep on `c`, and there is one of them unless
nobody does. -/
def Signals (m : Monitor τ γ) (c : γ) (ws : List τ) : Prop :=
  (∀ t ∈ ws, m.asleep t = some c) ∧ (ws = [] → ∀ t, m.asleep t ≠ some c)

instance [DecidableEq γ] [Fintype τ] (m : Monitor τ γ) (c : γ) (ws : List τ) :
    Decidable (m.Signals c ws) :=
  inferInstanceAs (Decidable (_ ∧ (_ → _)))

@[simp] theorem wait_owner (m : Monitor τ γ) (t : τ) (c : γ) : (m.wait t c).owner = none := rfl
@[simp] theorem wake_owner (m : Monitor τ γ) (ws : List τ) : (m.wake ws).owner = m.owner := rfl

theorem wait_asleep_self (m : Monitor τ γ) (t : τ) (c : γ) :
    (m.wait t c).asleep t = some c := Function.update_self ..

theorem wait_asleep_of_ne (m : Monitor τ γ) {t u : τ} (c : γ) (h : u ≠ t) :
    (m.wait t c).asleep u = m.asleep u := Function.update_of_ne h ..

/-- Nobody falls asleep by waking others. -/
theorem asleep_of_wake {m : Monitor τ γ} {ws : List τ} {t : τ} {c : γ}
    (h : (m.wake ws).asleep t = some c) : m.asleep t = some c := by
  have h : (if t ∈ ws then none else m.asleep t) = some c := h
  split at h
  next => cases h
  next => exact h

/-- **What a signal is good for**: some thread of a group that nobody else sleeps with is awake. -/
theorem Signals.exists_awake {m : Monitor τ γ} {c : γ} {ws : List τ} {group : Set τ}
    (h : m.Signals c ws) (hgroup : ∀ t, m.asleep t = some c → t ∈ group) (hne : group.Nonempty) :
    ∃ t ∈ group, (m.wake ws).asleep t ≠ some c := by
  cases ws with
  | nil =>
    obtain ⟨t, ht⟩ := hne
    exact ⟨t, ht, fun hasleep ↦ h.2 rfl t (asleep_of_wake hasleep)⟩
  | cons t ws =>
    have hasleep := h.1 t List.mem_cons_self
    refine ⟨t, hgroup t hasleep, fun hno ↦ ?_⟩
    have hno : (if t ∈ t :: ws then none else m.asleep t) = some c := hno
    rw [if_pos List.mem_cons_self] at hno
    cases hno

end

end Monitor

/-! ### Places and the monitor -/

section Obeys

variable {τ γ π : Type*} {inside : π → Bool} {waits : π → Option γ} {place : τ → π}
  {m : Monitor τ γ} {t u : τ} {l : π}

/-- The places of the threads agree with the monitor. -/
structure Obeys (inside : π → Bool) (waits : π → Option γ) (place : τ → π) (m : Monitor τ γ) :
    Prop where
  inside_iff : ∀ t, inside (place t) = true ↔ m.owner = some t
  waits_of_asleep : ∀ t c, m.asleep t = some c → waits (place t) = some c

theorem obeys_idle (h : ∀ t, inside (place t) = false) :
    Obeys inside waits place (Monitor.idle : Monitor τ γ) := by
  refine ⟨fun t ↦ ?_, nofun⟩
  rw [h t]
  exact ⟨nofun, nofun⟩

theorem Obeys.owner_eq (h : Obeys inside waits place m) (ht : inside (place t) = true) :
    m.owner = some t :=
  (h.inside_iff t).1 ht

/-- **Mutual exclusion.** -/
theorem Obeys.unique (h : Obeys inside waits place m) (ht : inside (place t) = true)
    (hu : inside (place u) = true) : t = u :=
  Option.some.inj ((h.owner_eq ht).symm.trans (h.owner_eq hu))

/-- While the mutex is free nobody is inside. -/
theorem Obeys.not_inside (h : Obeys inside waits place m) (hfree : m.owner = none) (t : τ) :
    inside (place t) = false := by
  rw [← Bool.not_eq_true, h.inside_iff t, hfree]
  exact nofun

/-- A thread that does not wait is awake. -/
theorem Obeys.awake (h : Obeys inside waits place m) (ht : waits (place t) = none) :
    m.asleep t = none := by
  rcases hc : m.asleep t with _ | c
  · rfl
  · rw [h.waits_of_asleep t c hc] at ht
    cases ht

variable [DecidableEq τ]

/-- Only the place of `t` changes. -/
private theorem waits_update {asleep : τ → Option γ}
    (h : ∀ t c, asleep t = some c → waits (place t) = some c)
    (ht : ∀ c, asleep t = some c → waits l = some c) (u : τ) (c : γ) (hu : asleep u = some c) :
    waits (Function.update place t l u) = some c := by
  rcases eq_or_ne u t with rfl | hne
  · rw [Function.update_self]
    exact ht c hu
  · rw [Function.update_of_ne hne]
    exact h u c hu

/-- A move of a thread that is awake, between places of the same kind. -/
theorem Obeys.stay (h : Obeys inside waits place m) (hin : inside l = inside (place t))
    (ht : m.asleep t = none) : Obeys inside waits (Function.update place t l) m := by
  refine ⟨fun u ↦ ?_, waits_update h.waits_of_asleep fun c hc ↦ ?_⟩
  · rcases eq_or_ne u t with rfl | hne
    · rw [Function.update_self, hin]
      exact h.inside_iff u
    · rw [Function.update_of_ne hne]
      exact h.inside_iff u
  · rw [ht] at hc
    cases hc

/-- A thread takes the mutex. -/
theorem Obeys.lock (h : Obeys inside waits place m) (hcan : m.CanLock t) (hin : inside l = true) :
    Obeys inside waits (Function.update place t l) (m.lock t) := by
  refine ⟨fun u ↦ ?_, waits_update h.waits_of_asleep fun c hc ↦ ?_⟩
  · rcases eq_or_ne u t with rfl | hne
    · rw [Function.update_self, hin]
      exact ⟨fun _ ↦ rfl, fun _ ↦ rfl⟩
    · rw [Function.update_of_ne hne, h.not_inside hcan.1 u]
      exact ⟨nofun, fun heq ↦ absurd (Option.some.inj heq).symm hne⟩
  · rw [Monitor.lock_asleep, hcan.2] at hc
    cases hc

private theorem not_inside_update (h : Obeys inside waits place m) (ht : inside (place t) = true)
    (hout : inside l = false) (u : τ) : inside (Function.update place t l u) = false := by
  rcases eq_or_ne u t with rfl | hne
  · rw [Function.update_self]
    exact hout
  · rw [Function.update_of_ne hne, ← Bool.not_eq_true]
    exact fun hu ↦ hne (h.unique hu ht)

/-- A thread gives the mutex back. -/
theorem Obeys.unlock (h : Obeys inside waits place m) (ht : inside (place t) = true)
    (hwake : m.asleep t = none) (hout : inside l = false) :
    Obeys inside waits (Function.update place t l) m.unlock := by
  refine ⟨fun u ↦ ?_, waits_update h.waits_of_asleep fun c hc ↦ ?_⟩
  · rw [not_inside_update h ht hout u]
    exact ⟨nofun, nofun⟩
  · rw [Monitor.unlock_asleep, hwake] at hc
    cases hc

/-- A thread gives the mutex back and falls asleep. -/
theorem Obeys.wait (h : Obeys inside waits place m) (ht : inside (place t) = true) {c : γ}
    (hout : inside l = false) (hl : waits l = some c) :
    Obeys inside waits (Function.update place t l) (m.wait t c) := by
  refine ⟨fun u ↦ ?_, fun u c' hu ↦ ?_⟩
  · rw [not_inside_update h ht hout u]
    exact ⟨nofun, nofun⟩
  · rcases eq_or_ne u t with rfl | hne
    · rw [Monitor.wait_asleep_self] at hu
      rw [Function.update_self, hl]
      exact hu
    · rw [Monitor.wait_asleep_of_ne m c hne] at hu
      rw [Function.update_of_ne hne]
      exact h.waits_of_asleep u c' hu

/-- Threads are woken, by a signal or spuriously. -/
theorem Obeys.wake (h : Obeys inside waits place m) (ws : List τ) :
    Obeys inside waits place (m.wake ws) :=
  ⟨h.inside_iff, fun u c hu ↦ h.waits_of_asleep u c (Monitor.asleep_of_wake hu)⟩

end Obeys

/-! ### Statements that use the monitor -/

namespace Monitor

/-- What a statement does with the mutex and with the sleepers. -/
inductive Op (γ : Type*)
  | stay
  | acquire
  | release
  | sleep (c : γ)
  | wakeup (c : γ)

/-- The places before and after fit the operation. -/
def Op.Fits {γ π : Type*} (inside : π → Bool) (waits : π → Option γ) (l l' : π) : Op γ → Prop
  | .stay => inside l' = inside l ∧ waits l = none
  | .acquire => inside l' = true
  | .release => inside l = true ∧ inside l' = false ∧ waits l = none
  | .sleep c => inside l = true ∧ inside l' = false ∧ waits l' = some c
  | .wakeup _ => inside l' = inside l ∧ waits l = none

variable {τ γ : Type*} [DecidableEq γ] {m m' : Monitor τ γ} {t : τ} {c : γ}

/-- Everybody who sleeps on `c` is awake. -/
def broadcast (m : Monitor τ γ) (c : γ) : Monitor τ γ :=
  { m with asleep := fun t ↦ if m.asleep t = some c then none else m.asleep t }

@[simp] theorem broadcast_owner : (m.broadcast c).owner = m.owner := rfl

/-- Who still sleeps slept before, on another variable. -/
theorem asleep_of_broadcast {d : γ} (h : (m.broadcast c).asleep t = some d) :
    m.asleep t = some d ∧ d ≠ c := by
  have h : (if m.asleep t = some c then none else m.asleep t) = some d := h
  split_ifs at h with hc
  refine ⟨h, fun hd ↦ hc ?_⟩
  rw [h, hd]

/-- A thread does an operation; there is none if it has to wait for the mutex. -/
def perform [DecidableEq τ] (m : Monitor τ γ) (t : τ) : Op γ → Option (Monitor τ γ)
  | .stay => some m
  | .acquire => if m.CanLock t then some (m.lock t) else none
  | .release => some m.unlock
  | .sleep c => some (m.wait t c)
  | .wakeup c => some (m.broadcast c)

end Monitor

section Attentive

variable {τ γ π : Type*} [DecidableEq τ] [DecidableEq γ] {inside : π → Bool}
  {waits : π → Option γ} {place : τ → π} {m m' : Monitor τ γ} {t : τ} {l : π} {op : Monitor.Op γ}
  {reason reason' : γ → Prop} {pends : π → γ → Prop}

theorem Obeys.perform (h : Obeys inside waits place m) (hfits : op.Fits inside waits (place t) l)
    (hop : m.perform t op = some m') :
    Obeys inside waits (Function.update place t l) m' := by
  cases op with
  | stay =>
    obtain rfl := Option.some.inj hop
    exact h.stay hfits.1 (h.awake hfits.2)
  | acquire =>
    rw [Monitor.perform] at hop
    split_ifs at hop with hcan
    obtain rfl := Option.some.inj hop
    exact h.lock hcan hfits
  | release =>
    obtain rfl := Option.some.inj hop
    exact h.unlock hfits.1 (h.awake hfits.2.2) hfits.2.1
  | sleep c =>
    obtain rfl := Option.some.inj hop
    exact h.wait hfits.1 hfits.2.1 hfits.2.2
  | wakeup c =>
    obtain rfl := Option.some.inj hop
    have hstay := h.stay hfits.1 (h.awake hfits.2)
    exact ⟨hstay.inside_iff, fun u d hu ↦
      hstay.waits_of_asleep u d (Monitor.asleep_of_broadcast hu).1⟩

/-- Whoever sleeps has a reason to, or is about to be woken by the thread that has the mutex. -/
def Attentive (reason : γ → Prop) (pends : π → γ → Prop) (place : τ → π) (m : Monitor τ γ) :
    Prop :=
  ∀ t c, m.asleep t = some c → reason c ∨ ∃ u, m.owner = some u ∧ pends (place u) c

omit [DecidableEq τ] [DecidableEq γ] in
/-- **While nobody has the mutex, whoever sleeps has a reason to.** -/
theorem Attentive.reason_of_free (h : Attentive reason pends place m) (hfree : m.owner = none)
    {c : γ} (ht : m.asleep t = some c) : reason c := by
  rcases h t c ht with hreason | ⟨u, hu, -⟩
  · exact hreason
  · rw [hfree] at hu
    cases hu

/-- A statement keeps the sleepers attended to. It may take a reason away only where it wakes those
who have it, or comes to a place that is going to; and it puts a thread to sleep only with a
reason. -/
theorem Attentive.perform (h : Attentive reason pends place m)
    (hobeys : Obeys inside waits place m) (hfits : op.Fits inside waits (place t) l)
    (hop : m.perform t op = some m')
    (hkeep : ∀ c, (∃ u, m.asleep u = some c) → op ≠ .wakeup c →
      reason c ∨ inside (place t) = true ∧ pends (place t) c →
        reason' c ∨ inside l = true ∧ pends l c)
    (hsleep : ∀ c, op = .sleep c → reason' c) :
    Attentive reason' pends (Function.update place t l) m' := by
  have hpends : ∀ u, m.owner = some u → u ≠ t → ∀ c, pends (place u) c →
      pends (Function.update place t l u) c := by
    intro u _ hne c hc
    rw [Function.update_of_ne hne]
    exact hc
  -- what the thread that has the mutex after the step has to see to
  have hothers : ∀ c, (∃ u, m.asleep u = some c) → op ≠ .wakeup c →
      (inside l = true → m'.owner = some t) →
      (inside (place t) = false → ∀ u, m.owner = some u → m'.owner = some u) →
      (reason c ∨ ∃ u, m.owner = some u ∧ pends (place u) c) →
      reason' c ∨ ∃ u, m'.owner = some u ∧ pends (Function.update place t l u) c := by
    intro c hsleeps hc howner hstays hbefore
    have hstep : reason c ∨ inside (place t) = true ∧ pends (place t) c →
        reason' c ∨ ∃ u, m'.owner = some u ∧ pends (Function.update place t l u) c := by
      intro hb
      rcases hkeep c hsleeps hc hb with hreason | ⟨hin, hp⟩
      · exact .inl hreason
      · exact .inr ⟨t, howner hin, by rwa [Function.update_self]⟩
    rcases hbefore with hreason | ⟨u, hu, hp⟩
    · exact hstep (.inl hreason)
    · rcases eq_or_ne u t with rfl | hne
      · exact hstep (.inr ⟨(hobeys.inside_iff u).2 hu, hp⟩)
      · have hout : inside (place t) = false := by
          rw [← Bool.not_eq_true]
          exact fun hin ↦ hne (hobeys.unique ((hobeys.inside_iff u).2 hu) hin)
        exact .inr ⟨u, hstays hout u hu, hpends u hu hne c hp⟩
  have hobeys' := hobeys.perform hfits hop
  have howner : inside l = true → m'.owner = some t := by
    intro hin
    refine (hobeys'.inside_iff t).1 ?_
    rwa [Function.update_self]
  intro v c hv
  cases op with
  | stay =>
    obtain rfl := Option.some.inj hop
    exact hothers c ⟨v, hv⟩ nofun howner (fun _ _ hu ↦ hu) (h v c hv)
  | acquire =>
    rw [Monitor.perform] at hop
    split_ifs at hop with hcan
    obtain rfl := Option.some.inj hop
    refine hothers c ⟨v, hv⟩ nofun howner (fun _ u hu ↦ ?_) (h v c hv)
    rw [hcan.1] at hu
    cases hu
  | release =>
    obtain rfl := Option.some.inj hop
    refine hothers c ⟨v, hv⟩ nofun howner (fun hout ↦ ?_) (h v c hv)
    rw [hfits.1] at hout
    cases hout
  | sleep d =>
    obtain rfl := Option.some.inj hop
    rcases eq_or_ne v t with rfl | hne
    · rw [Monitor.wait_asleep_self] at hv
      exact .inl (hsleep c (congrArg _ (Option.some.inj hv)))
    · rw [Monitor.wait_asleep_of_ne m d hne] at hv
      refine hothers c ⟨v, hv⟩ nofun howner (fun hout ↦ ?_) (h v c hv)
      rw [hfits.1] at hout
      cases hout
  | wakeup d =>
    obtain rfl := Option.some.inj hop
    obtain ⟨hbefore, hne⟩ := Monitor.asleep_of_broadcast hv
    exact hothers c ⟨v, hbefore⟩ (fun heq ↦ hne (Monitor.Op.wakeup.inj heq).symm) howner
      (fun _ _ hu ↦ hu) (h v c hbefore)

omit [DecidableEq γ] in
/-- A thread outside moves. -/
theorem Attentive.outside (h : Attentive reason pends place m)
    (hobeys : Obeys inside waits place m) (hout : inside (place t) = false) :
    Attentive reason pends (Function.update place t l) m := by
  intro v c hv
  rcases h v c hv with hreason | ⟨u, hu, hp⟩
  · exact .inl hreason
  · have hne : u ≠ t := by
      rintro rfl
      rw [(hobeys.inside_iff u).2 hu] at hout
      cases hout
    exact .inr ⟨u, hu, by rwa [Function.update_of_ne hne]⟩

omit [DecidableEq γ] in
/-- Threads are woken. -/
theorem Attentive.wake (h : Attentive reason pends place m) (ws : List τ) :
    Attentive reason pends place (m.wake ws) :=
  fun u c hu ↦ h u c (Monitor.asleep_of_wake hu)

end Attentive
