import Cs537OS.Foundation.GuardedLoop
import Cs537OS.SharedMemory.Slots

/-!
# Signals to the clients

`exit_handler` is installed for `SIGINT` and then for `SIGTERM`, when the slot has been claimed and
the mutex given back. Until then a signal has its default action and ends the process, wherever it
is. Here a signal can come at any statement, and a client that it ends leaves the page as it is.

`newact` is a local of which only `sa_handler` is set. The mask and the flags are what the stack
held: they say whether a signal is blocked while the handler runs, and whether the default action
comes back when the handler is called.

* `Signalled.inv_of_reachable` — the clients and the page fit together, as long as no client is
  ended that has the mutex or a slot;
* `cleanedUp_of_spared` — so the clients leave the page as they found it; and the last client that
  is alive does so only then.
-/

open GuardedLoop (bind_eq_ok_iff)

namespace SharedMemory

/-- The signals with a handler. -/
inductive Signal
  | int
  | term
deriving DecidableEq

/-- What `newact` holds besides the handler. -/
structure Newact where
  /-- `sa_mask`. -/
  mask : Signal → Bool
  /-- `SA_NODEFER`. -/
  nodefer : Bool
  /-- `SA_RESETHAND`. -/
  resethand : Bool

namespace Place

/-- Where a client is when `exit_handler` is called: with the mutex it waits for itself. -/
def handler (l : Place) : Place := if l.inside then stuck else hlock

theorem inside_handler (l : Place) : l.handler.inside = l.inside := by
  cases hin : l.inside <;> rw [handler, hin] <;> rfl

theorem live_handler (l : Place) : l.handler.live = true := by
  cases hin : l.inside <;> rw [handler, hin] <;> rfl

theorem own_handler {l : Place} {owned : Set ℕ} (h : owned.Subsingleton) :
    l.handler.Own owned := by
  cases hin : l.inside <;> rw [handler, hin] <;> exact h

theorem free_handler {l : Place} {free : Set ℕ} : l.handler.Free free := by
  cases hin : l.inside <;> rw [handler, hin] <;> trivial

/-- Behind the first `sigaction` it is the place at which the handler begins. -/
theorem handler_of_handled {l l' : Place} (h : l.handled = some l') : l.handler = l' := by
  cases l <;> first | exact Option.some.inj h | cases h

theorem live_of_handled {l l' : Place} (h : l.handled = some l') : l.live = true := by
  cases l <;> first | rfl | cases h

theorem live_of_inside {l : Place} (h : l.inside = true) : l.live = true := by
  cases l <;> first | rfl | cases h

end Place

/-- The clients with their signals. -/
structure Signalled (κ : Type*) where
  clients : Clients κ
  newact : κ → Newact
  /-- The action of the signal is `exit_handler` and not the default one. -/
  caught : κ → Signal → Bool
  blocked : κ → Signal → Bool

/-- What can happen next. -/
inductive Event (κ : Type*)
  /-- A client starts, or executes a statement. -/
  | own (a : Act κ)
  | deliver (c : κ) (sig : Signal)

/-- Nothing is left in the page by clients that are gone. -/
def Clients.CleanedUp {κ : Type*} (s : Clients κ) (pagesize : ℕ) : Prop :=
  (∀ c, (s.place c).live = false) →
    s.mutex.owner = none ∧ ∀ i ∈ Clients.slots pagesize, pidAt s.mem i = -1

namespace Signalled

variable {κ : Type*}

section

variable (pagesize : ℕ) (s : Signalled κ)

/-- When the server has initialised the page. -/
def Starts : Prop :=
  s.clients.Starts pagesize ∧ ∀ c sig, s.caught c sig = false ∧ s.blocked c sig = false

/-- The process ids of the clients are different. -/
def DistinctPids : Event κ → Prop
  | .own a => s.clients.DistinctPids a
  | .deliver _ _ => True

instance [Fintype κ] (e : Event κ) : Decidable (s.DistinctPids e) :=
  match e with
  | .own a => inferInstanceAs (Decidable (s.clients.DistinctPids a))
  | .deliver _ _ => isTrue trivial

/-- A signal with the default action comes only to a client without the mutex and without a
slot. -/
def Spares : Event κ → Prop
  | .own _ => True
  | .deliver c sig =>
    s.caught c sig = true ∨
      (s.clients.place c).inside = false ∧ ∀ i ≤ maxClient pagesize, 1 ≤ i →
        pidAt s.clients.mem i ≠ s.clients.pid c

instance (e : Event κ) : Decidable (s.Spares pagesize e) :=
  match e with
  | .own _ => isTrue trivial
  | .deliver _ _ => inferInstanceAs (Decidable (_ ∨ _ ∧ ∀ i ≤ maxClient pagesize, _))

end

variable [DecidableEq κ] (pagesize : ℕ) (s : Signalled κ)

/-- The action of a signal changes for one client. -/
def setCaught (c : κ) (sig : Signal) (b : Bool) : κ → Signal → Bool :=
  Function.update s.caught c (Function.update (s.caught c) sig b)

/-- The actions after a step of a client: `sigaction` installs the handler. -/
def caughtAfter : Act κ → κ → Signal → Bool
  | .run c =>
    match s.clients.place c with
    | .sigint => s.setCaught c .int true
    | .sigterm => s.setCaught c .term true
    | _ => s.caught
  | _ => s.caught

/-- The signals that are blocked when the handler has been called. -/
def mask (c : κ) (sig : Signal) : κ → Signal → Bool :=
  Function.update s.blocked c fun sig' ↦
    s.blocked c sig' || (s.newact c).mask sig' || (decide (sig' = sig) && !(s.newact c).nodefer)

/-- What a signal does that is not blocked. -/
def deliver (c : κ) (sig : Signal) : Signalled κ :=
  if s.caught c sig then
    { s with
      clients := s.clients.goto c (s.clients.place c).handler
      caught := if (s.newact c).resethand then s.setCaught c sig false else s.caught
      blocked := s.mask c sig }
  else { s with clients := s.clients.goto c .gone }

/-- A step; an error means that the step is not possible here. -/
def step : Event κ → Except Unit (Signalled κ)
  | .own (.signal _) => .error ()
  | .own a => do
    let clients ← s.clients.step pagesize a
    .ok { s with clients := clients, caught := s.caughtAfter a }
  | .deliver c sig =>
    if (s.clients.place c).live = true ∧ s.blocked c sig = false then .ok (s.deliver c sig)
    else .error ()

end Signalled

/-- The clients of a page of `pagesize` bytes, with signals at every statement. -/
def signalSystem (κ : Type*) [DecidableEq κ] (pagesize : ℕ) :
    System (Signalled κ) (Event κ) where
  init := Signalled.Starts pagesize
  next s e t := s.step pagesize e = .ok t

section

variable {κ : Type*} {s t : Signalled κ} {pagesize : ℕ} {c : κ} {sig : Signal} {a : Act κ}

/-- Without clients that are alive the invariant says that the page is free. -/
theorem Clients.Inv.cleanedUp {s : Clients κ} (h : s.Inv pagesize) : s.CleanedUp pagesize := by
  intro hgone
  constructor
  · cases howner : s.mutex.owner with
    | none => rfl
    | some c =>
      have hlive := Place.live_of_inside ((h.obeys.inside_iff c).2 howner)
      rw [hgone c] at hlive
      cases hlive
  · intro i hi
    rcases h.held i hi with hfree | ⟨c, hlive, -⟩
    · exact hfree
    · rw [hgone c] at hlive
      cases hlive

variable [DecidableEq κ]

/-- A client that has neither the mutex nor a slot ends. -/
theorem Clients.Inv.kill {s : Clients κ} (h : s.Inv pagesize) (hlive : (s.place c).live = true)
    (hout : (s.place c).inside = false)
    (hnone : ∀ i ≤ maxClient pagesize, 1 ≤ i → pidAt s.mem i ≠ s.pid c) :
    (s.goto c .gone).Inv pagesize := by
  have howned : s.owned pagesize c = ∅ :=
    Set.eq_empty_of_forall_notMem fun i ⟨hi, hmine⟩ ↦ hnone i hi.2 hi.1 hmine
  exact h.goto rfl hlive hout.symm (.inr howned) trivial trivial

/-- The handler is called. -/
theorem Clients.Inv.handle {s : Clients κ} (h : s.Inv pagesize)
    (hlive : (s.place c).live = true) : (s.goto c (s.place c).handler).Inv pagesize :=
  h.goto rfl hlive (Place.inside_handler _) (.inl (Place.live_handler _))
    (Place.own_handler (h.subsingleton hlive)) Place.free_handler

namespace Signalled

theorem step_own (hstep : s.step pagesize (.own a) = .ok t) :
    s.clients.step pagesize a = .ok t.clients := by
  cases a with
  | signal c => cases hstep
  | start | run | stamp =>
    obtain ⟨clients, hclients, hok⟩ := bind_eq_ok_iff.1 hstep
    obtain rfl := Except.ok.inj hok
    exact hclients

/-- A signal is taken by the handler, or ends the client. -/
theorem step_deliver (hstep : s.step pagesize (.deliver c sig) = .ok t) :
    (s.clients.place c).live = true ∧
      (s.caught c sig = true ∧ t.clients = s.clients.goto c (s.clients.place c).handler ∨
        s.caught c sig = false ∧ t.clients = s.clients.goto c .gone) := by
  rw [step] at hstep
  split_ifs at hstep with hc
  obtain rfl := Except.ok.inj hstep
  refine ⟨hc.1, ?_⟩
  by_cases hcaught : s.caught c sig = true
  · rw [deliver, if_pos hcaught]
    exact .inl ⟨hcaught, rfl⟩
  · rw [deliver, if_neg hcaught]
    exact .inr ⟨Bool.eq_false_of_not_eq_true hcaught, rfl⟩

/-- A signal that the clients without default actions can take is taken here as it is there. -/
theorem step_deliver_of_signal {clients : Clients κ}
    (hstep : s.clients.step pagesize (.signal c) = .ok clients) (hcaught : s.caught c sig = true)
    (hopen : s.blocked c sig = false) :
    ∃ t, s.step pagesize (.deliver c sig) = .ok t ∧ t.clients = clients := by
  rw [Clients.step] at hstep
  cases hhandled : (s.clients.place c).handled with
  | none =>
    rw [hhandled] at hstep
    cases hstep
  | some l =>
    rw [hhandled] at hstep
    obtain rfl := Except.ok.inj hstep
    refine ⟨s.deliver c sig, if_pos ⟨Place.live_of_handled hhandled, hopen⟩, ?_⟩
    rw [deliver, if_pos hcaught, Place.handler_of_handled hhandled]

/-- One step. -/
theorem inv_step {e : Event κ} (h : s.clients.Inv pagesize) (hd : s.DistinctPids e)
    (hspares : s.Spares pagesize e) (hstep : s.step pagesize e = .ok t) :
    t.clients.Inv pagesize := by
  cases e with
  | own a => exact h.step hd (step_own hstep)
  | deliver c sig =>
    obtain ⟨hlive, ⟨-, hclients⟩ | ⟨hdefault, hclients⟩⟩ := step_deliver hstep
    · rw [hclients]
      exact h.handle hlive
    · rw [hclients]
      rcases hspares with hcaught | ⟨hout, hnone⟩
      · cases hdefault.symm.trans hcaught
      · exact h.kill hlive hout hnone

theorem inv_of_reachable
    (hs : (((signalSystem κ pagesize).restrict DistinctPids).restrict (Spares pagesize)).Reachable
      s) : s.clients.Inv pagesize := by
  refine hs.invariant (I := fun s ↦ s.clients.Inv pagesize) (fun s h ↦ ?_) fun s e t h hnext ↦ ?_
  · exact Clients.inv_of_starts h.1
  · exact inv_step h hnext.2.1 hnext.1 hnext.2.2

/-- The page that the last client leaves. -/
theorem cleanedUp_iff_of_deliver (h : s.clients.Inv pagesize)
    (hstep : s.step pagesize (.deliver c sig) = .ok t)
    (hlast : ∀ d ≠ c, (s.clients.place d).live = false) :
    t.clients.CleanedUp pagesize ↔ s.Spares pagesize (.deliver c sig) := by
  have hd : s.DistinctPids (.deliver c sig) := trivial
  refine ⟨fun hclean ↦ ?_, fun hspares ↦ (inv_step h hd hspares hstep).cleanedUp⟩
  obtain ⟨hlive, ⟨hcaught, -⟩ | ⟨-, hclients⟩⟩ := step_deliver hstep
  · exact .inl hcaught
  -- nobody is left
  have hgone : ∀ d, (t.clients.place d).live = false := by
    intro d
    rw [hclients, Clients.goto]
    rcases eq_or_ne d c with rfl | hne
    · dsimp only
      rw [Function.update_self]
      rfl
    · dsimp only
      rw [Function.update_of_ne hne]
      exact hlast d hne
  obtain ⟨hunlocked, hfree⟩ := hclean hgone
  rw [hclients] at hunlocked hfree
  refine .inr ⟨?_, fun i hle hpos hmine ↦ ?_⟩
  · exact h.obeys.not_inside hunlocked c
  · have hnone : pidAt s.clients.mem i = -1 := hfree i ⟨hpos, hle⟩
    have hpid := h.pid_pos c hlive
    omega

end Signalled

/-- **The clients clean up after themselves** in every run in which no signal with the default
action ends a client that has the mutex or a slot: once no client is alive, the mutex is unlocked
and every slot free. Where such a signal ends the last client, they are not. -/
theorem cleanedUp_of_spared
    (hs : (((signalSystem κ pagesize).restrict Signalled.DistinctPids).restrict
      (Signalled.Spares pagesize)).Reachable s) :
    s.clients.CleanedUp pagesize ∧
      ∀ c sig t, s.step pagesize (.deliver c sig) = .ok t →
        (∀ d ≠ c, (s.clients.place d).live = false) →
          (t.clients.CleanedUp pagesize ↔ s.Spares pagesize (.deliver c sig)) :=
  ⟨(Signalled.inv_of_reachable hs).cleanedUp, fun _ _ _ hstep hlast ↦
    Signalled.cleanedUp_iff_of_deliver (Signalled.inv_of_reachable hs) hstep hlast⟩

end

namespace Signalled

/-- One client and a page with one slot. The stack held zeros. -/
def oneClient : Signalled Unit where
  clients :=
    { mem := initSlots 128 fun _ ↦ 0
      mutex := .idle
      place _ := .absent
      pid _ := 0
      name _ := [] }
  newact _ := ⟨fun _ ↦ false, false, false⟩
  caught _ _ := false
  blocked _ _ := false

theorem oneClient_starts : oneClient.Starts 128 :=
  ⟨⟨⟨_, rfl⟩, rfl, fun _ ↦ rfl⟩, fun _ _ ↦ ⟨rfl, rfl⟩⟩

/-- The client claims the slot and gives the mutex back. -/
def claim : List (Event Unit) :=
  [.own (.start () 500 [[97]] 3), .own (.run ()), .own (.run ()), .own (.run ()), .own (.run ()),
    .own (.stamp () [84, 104, 117, 0]), .own (.run ())]

/-- The client installs the handlers and is ended by `SIGTERM`. -/
theorem terminated_cleanedUp : ∃ s : Signalled Unit, s.clients.place () = .gone ∧
    s.clients.mutex.owner = none ∧ ∀ i ∈ Clients.slots 128, pidAt s.clients.mem i = -1 := by
  obtain ⟨s, hs, hplace⟩ := System.Reachable.exists_of_run
    (S := ((signalSystem Unit 128).restrict DistinctPids).restrict (Spares 128))
    (f := System.checked (Spares 128) (System.checked DistinctPids (Signalled.step 128) ()) ())
    (System.next_of_checked (System.next_of_checked fun _ _ _ h ↦ h))
    (l := claim ++ [.own (.run ()), .own (.run ()), .deliver () .term] ++
      List.replicate 9 (.own (.run ())))
    (p := fun s ↦ decide (s.clients.place () = .gone)) (.init oneClient_starts)
    (by decide +kernel)
  have hgone : s.clients.place () = .gone := of_decide_eq_true hplace
  refine ⟨s, hgone, (cleanedUp_of_spared hs).1 fun c ↦ ?_⟩
  obtain rfl : c = () := Subsingleton.elim _ _
  rw [hgone]
  rfl

/-- `SIGINT` ends the client while it claims the slot, and the mutex stays locked; or between the
claim and the first `sigaction`, and the slot stays taken. -/
theorem interrupted_not_cleanedUp :
    (∃ s, ((signalSystem Unit 128).restrict DistinctPids).Reachable s ∧
        s.clients.mutex.owner ≠ none ∧ ¬ s.clients.CleanedUp 128) ∧
      ∃ s, ((signalSystem Unit 128).restrict DistinctPids).Reachable s ∧
        pidAt s.clients.mem 1 = 500 ∧ ¬ s.clients.CleanedUp 128 := by
  have hgone : ∀ s : Signalled Unit, s.clients.place () = .gone →
      ∀ c, (s.clients.place c).live = false := by
    intro s hplace c
    obtain rfl : c = () := Subsingleton.elim _ _
    rw [hplace]
    rfl
  constructor
  · obtain ⟨s, hs, hcheck⟩ := System.Reachable.exists_of_run
      (S := (signalSystem Unit 128).restrict DistinctPids)
      (f := System.checked DistinctPids (Signalled.step 128) ())
      (System.next_of_checked fun _ _ _ h ↦ h)
      (l := claim.take 2 ++ [.deliver () .int])
      (p := fun s ↦ decide (s.clients.place () = .gone ∧ s.clients.mutex.owner ≠ none))
      (.init oneClient_starts) (by decide +kernel)
    obtain ⟨hplace, howner⟩ := of_decide_eq_true hcheck
    exact ⟨s, hs, howner, fun hclean ↦ howner (hclean (hgone s hplace)).1⟩
  · obtain ⟨s, hs, hcheck⟩ := System.Reachable.exists_of_run
      (S := (signalSystem Unit 128).restrict DistinctPids)
      (f := System.checked DistinctPids (Signalled.step 128) ())
      (System.next_of_checked fun _ _ _ h ↦ h)
      (l := claim ++ [.deliver () .int])
      (p := fun s ↦ decide (s.clients.place () = .gone ∧ pidAt s.clients.mem 1 = 500))
      (.init oneClient_starts) (by decide +kernel)
    obtain ⟨hplace, hpid⟩ := of_decide_eq_true hcheck
    refine ⟨s, hs, hpid, fun hclean ↦ ?_⟩
    have hfree := (hclean (hgone s hplace)).2 1 ⟨by decide, by decide⟩
    rw [hpid] at hfree
    exact absurd hfree (by decide)

end Signalled

end SharedMemory
