import Cs537OS.Pipes.Stream

/-!
# Nobody sleeps at a pipe without a reason

A reader sleeps while the pipe is empty and somebody could still write, a writer while it is full
and somebody could still read. Whoever makes one of this false wakes the sleepers before it gives
the lock back (`Pipe.pends`), with one exception: a `pipewrite` that finds the pipe full and its
process killed returns at once, also when it has filled the pipe itself. The readers that were
asleep stay asleep then, with a full pipe before them.

* `wakeful_iff_spares` — as long as that does not happen, nobody sleeps without a reason while the
  lock is free; and the step at which it happens is one after which somebody does.
-/

namespace Pipes

/-- Why a process may sleep. -/
def Pipe.Reason (p : Pipe) : Chan → Prop
  | .nread => p.isEmpty = true ∧ p.writeopen = true
  | .nwrite => p.isFull = true ∧ p.readopen = true

/-- The process is going to wake those who sleep on the channel. -/
def Place.Pends : Place → Chan → Prop
  | .write l _ _ _ _, .nread => l ≠ .sleep ∧ l ≠ .release
  | .read l _ _, .nwrite => l = .test ∨ l = .drained ∨ l = .get ∨ l = .wakeup
  | .close .wakeup w, c => c = if w then .nread else .nwrite
  | _, _ => False

/-- The process is about to give up a `pipewrite`. -/
def Place.givesUp : Place → Bool
  | .write .fail _ _ _ _ => true
  | _ => false

section

variable {p p' : Pipe} {l l' : Place} {killed : Bool} {op : Monitor.Op Chan} {c : Chan}
  {queue : List UInt8}

/-- A statement of `pipewrite` leaves the sleepers a reason, or somebody who will wake them. -/
theorem keeps_write {at_ : WritePlace} {addr : ℕ → UInt8} {n : ℤ} {start i : ℕ}
    (hguard : (Place.write at_ addr n start i).Guard p)
    (h : p.next killed (.write at_ addr n start i) = some (p', l', op)) (hfail : at_ ≠ .fail)
    (hop : op ≠ .wakeup c)
    (hc : p.Reason c ∨ at_.inside = true ∧ (Place.write at_ addr n start i).Pends c) :
    p'.Reason c ∨ l'.inside = true ∧ l'.Pends c := by
  cases at_ with
  | fail => exact absurd rfl hfail
  | acquire =>
    obtain ⟨rfl, rfl, rfl⟩ := Option.some.inj h
    exact .inl (hc.resolve_right nofun)
  | sleeping =>
    obtain ⟨rfl, rfl, rfl⟩ := Option.some.inj h
    exact .inl (hc.resolve_right nofun)
  | put =>
    obtain ⟨rfl, rfl, rfl⟩ := Option.some.inj h
    cases c with
    | nread => exact .inr ⟨rfl, nofun, nofun⟩
    | nwrite =>
      rcases hc with ⟨hfull, -⟩ | ⟨-, hno⟩
      · cases hfull.symm.trans hguard
      · cases hno
  | sleep =>
    obtain ⟨rfl, rfl, rfl⟩ := Option.some.inj h
    rcases hc with hreason | ⟨-, hpends⟩
    · exact .inl hreason
    · cases c with
      | nread => exact absurd rfl hpends.1
      | nwrite => cases hpends
  | release =>
    obtain ⟨rfl, rfl, rfl⟩ := Option.some.inj h
    rcases hc with hreason | ⟨-, hpends⟩
    · exact .inl hreason
    · cases c with
      | nread => exact absurd rfl hpends.2
      | nwrite => cases hpends
  | wakeup | wakeupFull =>
    obtain ⟨rfl, rfl, rfl⟩ := Option.some.inj h
    rcases hc with hreason | ⟨-, hpends⟩
    · exact .inl hreason
    · cases c with
      | nread => exact absurd rfl hop
      | nwrite => cases hpends
  | test | full | check =>
    obtain ⟨rfl, rfl, rfl⟩ := Option.some.inj h
    rcases hc with hreason | ⟨-, hpends⟩
    · exact .inl hreason
    · cases c with
      | nread => exact .inr ⟨by split_ifs <;> rfl, by split_ifs <;> exact ⟨nofun, nofun⟩⟩
      | nwrite => cases hpends

/-- A statement of `piperead` does. -/
theorem keeps_read {at_ : ReadPlace} {n : ℤ} {got : List UInt8}
    (hguard : (Place.read at_ n got).Guard p)
    (h : p.next killed (.read at_ n got) = some (p', l', op)) (hop : op ≠ .wakeup c)
    (hc : p.Reason c ∨ at_.inside = true ∧ (Place.read at_ n got).Pends c) :
    p'.Reason c ∨ l'.inside = true ∧ l'.Pends c := by
  cases at_ with
  | get =>
    obtain ⟨rfl, rfl, rfl⟩ := Option.some.inj h
    cases c with
    | nwrite => exact .inr ⟨rfl, .inl rfl⟩
    | nread =>
      rcases hc with ⟨hempty, -⟩ | ⟨-, hno⟩
      · cases hempty.symm.trans hguard.2.2
      · cases hno
  | wakeup =>
    obtain ⟨rfl, rfl, rfl⟩ := Option.some.inj h
    rcases hc with hreason | ⟨-, hpends⟩
    · exact .inl hreason
    · cases c with
      | nwrite => exact absurd rfl hop
      | nread => cases hpends
  | test =>
    obtain ⟨rfl, rfl, rfl⟩ := Option.some.inj h
    rcases hc with hreason | ⟨-, hpends⟩
    · exact .inl hreason
    · cases c with
      | nread => cases hpends
      | nwrite =>
        split_ifs
        · exact .inr ⟨rfl, .inr (.inl rfl)⟩
        · exact .inr ⟨rfl, .inr (.inr (.inr rfl))⟩
  | drained =>
    obtain ⟨rfl, rfl, rfl⟩ := Option.some.inj h
    rcases hc with hreason | ⟨-, hpends⟩
    · exact .inl hreason
    · cases c with
      | nread => cases hpends
      | nwrite =>
        split_ifs
        · exact .inr ⟨rfl, .inr (.inr (.inr rfl))⟩
        · exact .inr ⟨rfl, .inr (.inr (.inl rfl))⟩
  | acquire | sleeping | empty | check | fail | sleep | release =>
    obtain ⟨rfl, rfl, rfl⟩ := Option.some.inj h
    rcases hc with hreason | ⟨-, hpends⟩
    · exact .inl hreason
    · cases c with
      | nread => cases hpends
      | nwrite => rcases hpends with h | h | h | h <;> cases h

/-- A statement of `pipeclose` does. -/
theorem keeps_close {at_ : ClosePlace} {w : Bool}
    (h : p.next killed (.close at_ w) = some (p', l', op)) (hop : op ≠ .wakeup c)
    (hc : p.Reason c ∨ at_.inside = true ∧ (Place.close at_ w).Pends c) :
    p'.Reason c ∨ l'.inside = true ∧ l'.Pends c := by
  cases at_ with
  | clear =>
    obtain ⟨rfl, rfl, rfl⟩ := Option.some.inj h
    have hreason : p.Reason c := hc.resolve_right (by cases c <;> nofun)
    cases c <;> cases w
    · exact .inl hreason
    · exact .inr ⟨rfl, rfl⟩
    · exact .inr ⟨rfl, rfl⟩
    · exact .inl hreason
  | wakeup =>
    obtain ⟨rfl, rfl, rfl⟩ := Option.some.inj h
    rcases hc with hreason | ⟨-, hpends⟩
    · exact .inl hreason
    · have hpends : c = if w then .nread else .nwrite := by cases c <;> exact hpends
      exact absurd (congrArg _ hpends.symm) hop
  | free =>
    obtain ⟨rfl, rfl, rfl⟩ := Option.some.inj h
    have hreason : p.Reason c := hc.resolve_right (by cases c <;> nofun)
    cases c <;> exact .inl hreason
  | acquire | test | release | releaseFree =>
    obtain ⟨rfl, rfl, rfl⟩ := Option.some.inj h
    exact .inl (hc.resolve_right (by cases c <;> nofun))

/-- **A statement leaves the sleepers a reason, or somebody who will wake them**, unless it gives up
a `pipewrite`. -/
theorem keeps_of_next (hguard : l.Guard p) (h : p.next killed l = some (p', l', op))
    (hfail : l.givesUp = false) (hop : op ≠ .wakeup c)
    (hc : p.Reason c ∨ l.inside = true ∧ l.Pends c) :
    p'.Reason c ∨ l'.inside = true ∧ l'.Pends c := by
  cases l with
  | user => cases h
  | write l addr n start i =>
    refine keeps_write hguard h ?_ hop hc
    rintro rfl
    cases hfail
  | read l n got => exact keeps_read hguard h hop hc
  | close l w => exact keeps_close h hop hc

/-- Who goes to sleep has a reason. -/
theorem reason_of_sleep (hguard : l.Guard p) (h : p.next killed l = some (p', l', .sleep c)) :
    p'.Reason c := by
  cases l with
  | user => cases h
  | write l addr n start i =>
    cases l <;> cases Option.some.inj h
    exact hguard
  | read l n got =>
    cases l <;> cases Option.some.inj h
    exact hguard.2
  | close l w => cases l <;> cases Option.some.inj h

end

namespace State

variable {τ : Type*} [DecidableEq τ] {s s' : State τ} {t : τ} {a : Act τ} {queue : List UInt8}

/-- Nobody sleeps without a reason while the lock is free. -/
structure Wakeful (s : State τ) : Prop where
  reason : s.monitor.owner = none → ∀ t c, s.monitor.asleep t = some c → s.pipe.Reason c
  /-- So readers and writers never wait for each other. -/
  notBoth : s.monitor.owner = none → ∀ t u, s.monitor.asleep t = some .nread →
    s.monitor.asleep u ≠ some .nwrite

/-- The step does not give up a `pipewrite` while a reader sleeps. -/
def Spares (s : State τ) : Act τ → Prop
  | .run t => (s.place t).givesUp = true → ∀ u, s.monitor.asleep u ≠ some .nread
  | _ => True

instance [Fintype τ] (s : State τ) (a : Act τ) : Decidable (s.Spares a) :=
  match a with
  | .run _ => inferInstanceAs (Decidable (_ → _))
  | .write .. | .read .. | .dup .. | .fork .. | .close .. | .kill _ => .isTrue trivial

/-- Whoever sleeps has a reason, or is about to be woken. -/
def Attended (s : State τ) : Prop := Attentive s.pipe.Reason Place.Pends s.place s.monitor

omit [DecidableEq τ] in
theorem Attended.wakeful (h : s.Attended) (hinv : s.Inv queue) : s.Wakeful := by
  have hreason : s.monitor.owner = none → ∀ t c, s.monitor.asleep t = some c → s.pipe.Reason c :=
    fun hfree _ _ ht ↦ Attentive.reason_of_free h hfree ht
  refine ⟨hreason, fun hfree t u ht hu ↦ ?_⟩
  have hempty := hinv.holds.isEmpty_iff.1 (hreason hfree t _ ht).1
  have hfull := hinv.holds.isFull_iff.1 (hreason hfree u _ hu).1
  rw [hempty] at hfull
  cases hfull

theorem Attended.run (h : s.Attended) (hinv : s.Inv queue) (hspares : s.Spares (.run t))
    (hrun : s.run t = .ok s') : s'.Attended := by
  obtain ⟨pipe, l, op, monitor, hnext, hop, rfl⟩ := run_cases hrun
  refine Attentive.perform h hinv.obeys (Place.fits_of_next hnext) hop
    (fun c hsleeps hne hc ↦ ?_) fun c hsleep ↦ ?_
  · by_cases hfail : (s.place t).givesUp = true
    · -- nobody sleeps who would not be woken
      obtain ⟨u, hu⟩ := hsleeps
      have hspares : (s.place t).givesUp = true → ∀ u, s.monitor.asleep u ≠ some .nread := hspares
      generalize s.place t = l₀ at hspares hnext hc hfail
      cases l₀ with
      | write l₀ addr n start i =>
        cases l₀ with
        | fail =>
          obtain ⟨rfl, rfl, rfl⟩ := Option.some.inj hnext
          cases c with
          | nread => exact absurd hu (hspares rfl u)
          | nwrite => exact .inl (hc.resolve_right nofun)
        | _ => cases hfail
      | _ => cases hfail
    · exact keeps_of_next (hinv.guard t) hnext (Bool.eq_false_of_not_eq_true hfail) hne hc
  · rw [hsleep] at hnext
    exact reason_of_sleep (hinv.guard t) hnext

theorem Attended.step (h : s.Attended) (hinv : s.Inv queue) (hspares : s.Spares a)
    (hstep : s.step a = .ok s') : s'.Attended := by
  rcases step_cases hstep with ⟨t, rfl, hrun⟩ | ⟨hpipe, hmonitor, -, hplace⟩
  · exact h.run hinv hspares hrun
  · have hsame : Attentive s.pipe.Reason Place.Pends s'.place s.monitor := by
      rcases hplace with hplace | ⟨t, l, ht, -, hplace⟩
      · rw [hplace]
        exact h
      · rw [hplace]
        exact Attentive.outside h hinv.obeys (by rw [ht]; rfl)
    rw [Attended, hpipe]
    rcases hmonitor with hmonitor | ⟨t, hmonitor⟩
    · rw [hmonitor]
      exact hsame
    · rw [hmonitor]
      exact hsame.wake [t]

theorem attended_of_reachable (h : ((system τ).restrict Spares).Reachable s) :
    s.Attended ∧ ∃ queue, s.Inv queue := by
  refine h.invariant (I := fun s ↦ s.Attended ∧ ∃ queue, s.Inv queue) (fun s h ↦ ⟨?_, ?_⟩) ?_
  · obtain ⟨-, -, -, -, -, -, -, hmonitor, -⟩ := h
    intro t c ht
    rw [hmonitor] at ht
    cases ht
  · exact ⟨[], inv_of_starts h⟩
  · rintro s a s' ⟨h, _, hinv⟩ ⟨hspares, hstep⟩
    exact ⟨h.step hinv hspares hstep, hinv.step hstep⟩

/-- The step at which a killed process gives up leaves a reader asleep before a full pipe. -/
theorem spares_of_wakeful (hinv : s.Inv queue) (hstep : s.step a = .ok s') (hw : s'.Wakeful) :
    s.Spares a := by
  cases a with
  | run t =>
    intro hgives u hu
    obtain ⟨pipe, l, op, monitor, hnext, hop, rfl⟩ := run_cases hstep
    have hguard := hinv.guard t
    generalize s.place t = l₀ at hgives hnext hguard
    cases l₀ with
    | write l₀ addr n start i =>
      cases l₀ with
      | fail =>
        obtain ⟨rfl, rfl, rfl⟩ := Option.some.inj hnext
        obtain rfl := Option.some.inj hop
        have hempty := hinv.holds.isEmpty_iff.1 (hw.reason rfl u .nread hu).1
        have hfull := hinv.holds.isFull_iff.1 hguard
        rw [hempty] at hfull
        cases hfull
      | _ => cases hgives
    | _ => cases hgives
  | _ => trivial

/-- **Nobody sleeps at a pipe without a reason**, in every run in which no killed process gives up a
`pipewrite` while a reader sleeps; and a first step at which one does ends that. -/
theorem wakeful_iff_spares (h : ((system τ).restrict Spares).Reachable s)
    (hstep : s.step a = .ok s') : s'.Wakeful ↔ s.Spares a := by
  obtain ⟨hattended, queue, hinv⟩ := attended_of_reachable h
  refine ⟨spares_of_wakeful hinv hstep, fun hspares ↦ ?_⟩
  obtain ⟨queue', hinv'⟩ := hinv.step hstep
  exact (hattended.step hinv hspares hstep).wakeful hinv'

/-- A reader falls asleep, and a writer is killed when it has filled the pipe. -/
def killedWriter : List (Act Bool) :=
  [.fork false true, .read true 5, .run true, .run true, .run true, .run true,
    .write false (fun _ ↦ 7) 513] ++ List.replicate (1 + 3 * 512 + 2) (.run false) ++
    [.kill false, .run false]

set_option maxRecDepth 20000 in
/-- The writer gives up, and the reader sleeps on. -/
theorem killedWriter_not_wakeful : ∃ s s' : State Bool,
    ((system Bool).restrict Spares).Reachable s ∧ s.step (.run false) = .ok s' ∧ ¬ s'.Wakeful := by
  obtain ⟨s, hs, hlost⟩ := System.Reachable.exists_of_run
    (S := (system Bool).restrict Spares) (f := System.checked Spares State.step ())
    (System.next_of_checked fun _ _ _ h ↦ h) (l := killedWriter)
    (p := fun s ↦ (s.place false).givesUp && s.monitor.asleep true == some .nread &&
      (s.step (.run false)).isOk) (.init fresh_starts) (by decide +kernel)
  rw [Bool.and_eq_true, Bool.and_eq_true, beq_iff_eq] at hlost
  obtain ⟨⟨hgives, hasleep⟩, hok⟩ := hlost
  cases hstep : s.step (.run false) with
  | error e =>
    rw [hstep] at hok
    cases hok
  | ok s' =>
    exact ⟨s, s', hs, hstep, fun hw ↦ (wakeful_iff_spares hs hstep).1 hw hgives true hasleep⟩

end State

end Pipes
