import Cs537OS.Foundation.SpinFlag
import Cs537OS.Foundation.Transitions

/-!
# The lock around malloc and free

`thread_create` and `thread_join` of the thread library, run by the threads of one process. Both
take a lock around their call of the allocator, which the threads share, and the lock is a local
variable: each activation initialises its own, takes it, and nobody else ever looks at it.

A place of a thread holds the values of its local variables. What `malloc`, `clone` and `join`
return is an input of the step, and so is what the uninitialised word of the lock holds. Inside the
allocator a thread stays for as long as it likes. The start routine and its argument, which
`thread_create` only passes on, are left out.

* `serialised_iff` — the allocator is entered by one thread at a time in every run just when there
  is at most one thread; and in the runs in which a thread takes its lock only while nobody has
  taken another one, as a shared lock would see to.
-/

namespace Threads.HeapLock

/-- What a thread does next in `thread_create` or `thread_join`. -/
inductive Place where
  | user
  /-- `lock_init(&lock)` -/
  | createInit
  /-- `lock_acquire(&lock)` -/
  | createAcquire
  /-- Inside `malloc(4096)`. -/
  | createMalloc
  /-- `lock_release(&lock)` -/
  | createRelease (stack : ℕ)
  /-- `clone(start_routine,arg,stack)` -/
  | createClone (stack : ℕ)
  /-- `if(pid<0) printf(1,"error create new threads\n")`, and the return. -/
  | createReturn (pid : ℤ)
  /-- `join(&stack)` -/
  | joinJoin
  /-- `lock_init(&lock)` -/
  | joinInit (res : ℤ) (stack : ℕ)
  /-- `lock_acquire(&lock)` -/
  | joinAcquire (res : ℤ) (stack : ℕ)
  /-- `if(res!=-1)` -/
  | joinTest (res : ℤ) (stack : ℕ)
  /-- Inside `free(stack)`. -/
  | joinFree (res : ℤ) (stack : ℕ)
  /-- `lock_release(&lock)`, and the return. -/
  | joinRelease (res : ℤ)

namespace Place

/-- In a call of the allocator. -/
def inside : Place → Bool
  | .createMalloc | .joinFree _ _ => true
  | _ => false

/-- Between `lock_acquire` and `lock_release`. -/
def holdsLock : Place → Bool
  | .createMalloc | .createRelease _ | .joinTest _ _ | .joinFree _ _ | .joinRelease _ => true
  | _ => false

/-- Before `lock_acquire`. -/
def atAcquire : Place → Bool
  | .createAcquire | .joinAcquire _ _ => true
  | _ => false

end Place

/-- The threads `τ` of a process. -/
structure Process (τ : Type) where
  place : τ → Place
  /-- The flag of the lock of the thread's activation. -/
  lock : τ → ℕ
  /-- Whether the last `thread_create` has printed an error. -/
  printed : τ → Bool
  /-- What the last call returned. -/
  result : τ → ℤ

/-- What can happen next. -/
inductive Act (τ : Type) where
  /-- The call of `thread_create`; `w` is what the word of the lock holds. -/
  | create (p : τ) (w : ℕ)
  /-- The call of `thread_join`. -/
  | join (p : τ) (w : ℕ)
  /-- The next step of such a call. A call that it makes returns `r`, or the address `stack`. -/
  | advance (p : τ) (r : ℤ) (stack : ℕ)

namespace Process

variable {τ : Type} [DecidableEq τ]

def goto (s : Process τ) (p : τ) (l : Place) : Process τ :=
  { s with place := Function.update s.place p l }

def setLock (s : Process τ) (p : τ) (flag : ℕ) : Process τ :=
  { s with lock := Function.update s.lock p flag }

/-- A call returns. -/
def ret (s : Process τ) (p : τ) (r : ℤ) : Process τ :=
  { s with result := Function.update s.result p r }.goto p .user

/-- The next step of thread `p` in `thread_create` or `thread_join`, none when it has to wait. -/
def advance (s : Process τ) (p : τ) (r : ℤ) (stack : ℕ) : Option (Process τ) :=
  match s.place p with
  | .user => none
  | .createInit => some ((s.setLock p 0).goto p .createAcquire)
  | .createAcquire => if s.lock p ≠ 0 then none else some ((s.setLock p 1).goto p .createMalloc)
  | .createMalloc => some (s.goto p (.createRelease stack))
  | .createRelease stack => some ((s.setLock p 0).goto p (.createClone stack))
  | .createClone _ => some (s.goto p (.createReturn r))
  | .createReturn pid =>
    some ({ s with printed := Function.update s.printed p (decide (pid < 0)) }.ret p pid)
  | .joinJoin => some (s.goto p (.joinInit r stack))
  | .joinInit res stack => some ((s.setLock p 0).goto p (.joinAcquire res stack))
  | .joinAcquire res stack =>
    if s.lock p ≠ 0 then none else some ((s.setLock p 1).goto p (.joinTest res stack))
  | .joinTest res stack =>
    some (s.goto p (if res ≠ -1 then .joinFree res stack else .joinRelease res))
  | .joinFree res _ => some (s.goto p (.joinRelease res))
  | .joinRelease res => some ((s.setLock p 0).ret p res)

/-- One step. -/
def step (s : Process τ) : Act τ → Option (Process τ)
  | .create p w =>
    match s.place p with
    | .user => some ((s.setLock p w).goto p .createInit)
    | _ => none
  | .join p w =>
    match s.place p with
    | .user => some ((s.setLock p w).goto p .joinJoin)
    | _ => none
  | .advance p r stack => s.advance p r stack

/-- At most one thread is in a call of the allocator. -/
def Serialised (s : Process τ) : Prop :=
  ∀ p q, (s.place p).inside = true → (s.place q).inside = true → p = q

/-- A thread takes its lock while nobody has taken another one. -/
def InTurn (s : Process τ) : Act τ → Prop
  | .advance p _ _ => (s.place p).atAcquire = true → ∀ q, (s.place q).holdsLock = false
  | _ => True

end Process

/-- The runs, from a process whose threads are in none of the calls. -/
def system (τ : Type) [DecidableEq τ] : System (Process τ) (Act τ) where
  init s := ∀ p, s.place p = .user
  next s a s' := s.step a = some s'

open Process

variable {τ : Type} [DecidableEq τ] {s s' : Process τ} {a : Act τ} {p q : τ} {l : Place}

@[simp]
theorem goto_place_self : (s.goto p l).place p = l := Function.update_self ..

@[simp]
theorem goto_place_of_ne (hq : q ≠ p) : (s.goto p l).place q = s.place q :=
  Function.update_of_ne hq ..

@[simp]
theorem setLock_place (w : ℕ) : (s.setLock p w).place = s.place := rfl

/-! ### Two threads -/

/-- Whoever is in none of the calls can come to `malloc`, whatever the others do. -/
theorem exists_malloc (h : (system τ).Reachable s) (hp : s.place p = .user) :
    ∃ s', (system τ).Reachable s' ∧ s'.place p = .createMalloc ∧
      ∀ q, q ≠ p → s'.place q = s.place q := by
  let s₁ := (s.setLock p 0).goto p .createInit
  let s₂ := (s₁.setLock p 0).goto p .createAcquire
  let s₃ := (s₂.setLock p 1).goto p .createMalloc
  have h₁ : s.step (.create p 0) = some s₁ := by
    rw [Process.step, hp]
  have h₂ : s₁.step (.advance p 0 0) = some s₂ := by
    rw [Process.step, Process.advance, show s₁.place p = .createInit from goto_place_self]
  have hfree : s₂.lock p = 0 := Function.update_self ..
  have h₃ : s₂.step (.advance p 0 0) = some s₃ := by
    rw [Process.step, Process.advance, show s₂.place p = .createAcquire from goto_place_self]
    exact if_neg (not_not.2 hfree)
  refine ⟨s₃, ((h.step _ h₁).step _ h₂).step _ h₃, goto_place_self, fun q hq ↦ ?_⟩
  show (s₃.place q) = s.place q
  rw [goto_place_of_ne hq, setLock_place, goto_place_of_ne hq, setLock_place, goto_place_of_ne hq,
    setLock_place]

/-- Two threads are in `malloc` at once. -/
theorem exists_not_serialised (hpq : p ≠ q) :
    ∃ s, (system τ).Reachable s ∧ ¬ s.Serialised := by
  have hinit : (system τ).init ⟨fun _ ↦ .user, fun _ ↦ 0, fun _ ↦ false, fun _ ↦ 0⟩ := fun _ ↦ rfl
  obtain ⟨s, hs, hp, hrest⟩ := exists_malloc (p := p) (.init hinit) rfl
  obtain ⟨s', hs', hq, hsame⟩ := exists_malloc (p := q) hs (hrest q hpq.symm)
  refine ⟨s', hs', fun hserial ↦ hpq (hserial p q ?_ ?_)⟩
  · rw [hsame p hpq, hp]
    rfl
  · rw [hq]
    rfl

/-! ### One thread after the other -/

/-- The allocator is called with the lock held. -/
theorem Place.holdsLock_of_inside (h : l.inside = true) : l.holdsLock = true := by
  cases l <;> first | rfl | cases h

/-- How a thread moves: it takes its lock, or gives it back, or neither. -/
structure Moves (s : Process τ) (p : τ) (s' : Process τ) (l : Place) : Prop where
  place : s'.place = Function.update s.place p l
  kind : l.holdsLock = (s.place p).holdsLock ∨
    (s.place p).atAcquire = true ∧ l.holdsLock = true ∨
    (s.place p).holdsLock = true ∧ l.holdsLock = false

/-- The inversion of a step in a call. -/
theorem moves_of_advance {r : ℤ} {stack : ℕ} (h : s.advance p r stack = some s') :
    ∃ l, Moves s p s' l := by
  rw [Process.advance] at h
  cases hp : s.place p <;> simp only [hp, reduceCtorEq] at h
  case createAcquire | joinAcquire =>
    split_ifs at h
    cases h
    exact ⟨_, rfl, .inr (.inl ⟨congrArg Place.atAcquire hp, rfl⟩)⟩
  case createRelease | joinRelease =>
    cases h
    exact ⟨_, rfl, .inr (.inr ⟨congrArg Place.holdsLock hp, rfl⟩)⟩
  case joinTest res stack =>
    cases h
    refine ⟨_, rfl, .inl ?_⟩
    rw [hp]
    split_ifs <;> rfl
  all_goals
    cases h
    exact ⟨_, rfl, .inl (congrArg Place.holdsLock hp).symm⟩

/-- A thread in none of the calls starts one. -/
theorem moves_of_call {w : ℕ} (hp : s.place p = .user) (hl : l.holdsLock = false)
    (h : s' = (s.setLock p w).goto p l) : Moves s p s' l := by
  refine ⟨congrArg Process.place h, .inl ?_⟩
  rw [hl, hp]
  rfl

/-- What a shared lock would see to. -/
theorem held_of_step {flag : ℕ} {owner : Option τ}
    (h : SpinFlag.Held Place.holdsLock s.place flag owner) (hturn : s.InTurn a)
    (hstep : s.step a = some s') :
    ∃ flag' owner', SpinFlag.Held Place.holdsLock s'.place flag' owner' := by
  have hmoves : ∃ p l, Moves s p s' l ∧
      ((s.place p).atAcquire = true → ∀ q, (s.place q).holdsLock = false) := by
    cases a with
    | create p w =>
      simp only [Process.step] at hstep
      split at hstep <;> cases hstep
      next hp =>
        refine ⟨p, _, moves_of_call hp rfl rfl, fun hacq ↦ ?_⟩
        rw [hp] at hacq
        cases hacq
    | join p w =>
      simp only [Process.step] at hstep
      split at hstep <;> cases hstep
      next hp =>
        refine ⟨p, _, moves_of_call hp rfl rfl, fun hacq ↦ ?_⟩
        rw [hp] at hacq
        cases hacq
    | advance p r stack =>
      obtain ⟨l, hl⟩ := moves_of_advance hstep
      exact ⟨p, l, hl, hturn⟩
  obtain ⟨p, l, ⟨hplace, hkind⟩, hfree⟩ := hmoves
  rw [hplace]
  rcases hkind with hsame | ⟨hacq, hl⟩ | ⟨hhold, hl⟩
  · exact ⟨_, _, h.stay hsame⟩
  · have hnone : SpinFlag.Held Place.holdsLock s.place 0 none := SpinFlag.held_none (hfree hacq)
    exact ⟨_, _, hnone.take rfl hl⟩
  · exact ⟨_, _, h.give hhold hl⟩

/-- Where the locks are taken in turn the calls of the allocator are, too. -/
theorem serialised_of_inTurn (h : ((system τ).restrict InTurn).Reachable s) : s.Serialised := by
  have hheld : ∃ flag owner, SpinFlag.Held Place.holdsLock s.place flag owner := by
    refine h.invariant (I := fun s ↦ ∃ flag owner, SpinFlag.Held Place.holdsLock s.place flag owner)
      (fun s hs ↦ ⟨0, none, SpinFlag.held_none fun p ↦ ?_⟩) ?_
    · rw [hs p]
      rfl
    · rintro s a s' ⟨flag, owner, hheld⟩ ⟨hturn, hstep⟩
      exact held_of_step hheld hturn hstep
  obtain ⟨flag, owner, hheld⟩ := hheld
  exact fun p q hp hq ↦
    hheld.unique (Place.holdsLock_of_inside hp) (Place.holdsLock_of_inside hq)

/-- **When the lock of the library keeps the threads apart**: for a single thread, and otherwise in
the runs in which they take turns of their own accord. -/
theorem serialised_iff (τ : Type) [DecidableEq τ] :
    ((∀ s, (system τ).Reachable s → s.Serialised) ↔ Subsingleton τ) ∧
      ∀ s, ((system τ).restrict InTurn).Reachable s → s.Serialised := by
  refine ⟨⟨fun h ↦ ⟨fun p q ↦ ?_⟩, fun h s _ p q _ _ ↦ h.elim p q⟩, fun s ↦ serialised_of_inTurn⟩
  by_contra hpq
  obtain ⟨s, hs, hno⟩ := exists_not_serialised hpq
  exact hno (h s hs)

/-- Two threads. -/
theorem twoThreads_not_serialised : ¬ ∀ s, (system Bool).Reachable s → s.Serialised := by
  intro h
  obtain ⟨s, hs, hno⟩ := exists_not_serialised Bool.false_ne_true
  exact hno (h s hs)

end Threads.HeapLock
