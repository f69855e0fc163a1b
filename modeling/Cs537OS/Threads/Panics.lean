import Cs537OS.Threads.Signals

/-!
# When the calls panic

`sched` panics when the lock of the process table is not held or the process is RUNNING, and
`release` when the lock is not held. `Switches` is what keeps them from it: a process has the lock
from `acquire` to `sched`, is not RUNNING at `sched`, and has the lock again when it runs after
`sched`. It is so in every run (`Switches.step`), also when a signal has made the process RUNNABLE
in the meantime.

What is left are the checks of `cond_wait` and an empty place at the head of the queue
(`Switches.panic`).
-/

open GuardedLoop (bind_eq_ok_iff)
open Xv6

namespace Threads

namespace CondVar

namespace Place

/-- Between `acquire` and `sched`. -/
def locksTable : Place → Bool
  | .waitFree | .waitUnlock | .waitState | .waitSched => true
  | _ => false

end Place

/-- A process that has come to `sched`, or come back from it, has the lock of the process table when
it needs it. -/
structure Switches (m : Machine) : Prop where
  locked : ∀ p, (m.place p).locksTable = true → m.holder = some p
  down : ∀ p, m.place p = .waitSched → ¬ m.kernel.Running p
  back : ∀ p, m.place p = .waitRelease → m.kernel.Running p → m.holder = some p

open Kernel Machine

variable {m m' : Machine} {p q t : Slot} {l l' : Place} {k k' : Kernel} {a : Action}
    {queue : List Slot}

/-- What a step in one of the calls does to the lock of the process table. -/
theorem holder_of_advance (h : m.advance p = .ok m') : m'.holder = m.holder ∨
    m.place p = .waitAcquire ∧ m.holder = none ∧ m'.holder = some p ∨
    (m.place p = .waitSched ∨ m.place p = .waitRelease) ∧ m.holder = some p := by
  rw [Machine.advance] at h
  cases hp : m.place p <;> simp only [hp, reduceCtorEq] at h
  case waitAcquire =>
    split_ifs at h with hfree
    cases h
    exact .inr (.inl ⟨rfl, not_not.1 hfree, rfl⟩)
  case waitSched =>
    split_ifs at h with hbad
    exact .inr (.inr ⟨.inl rfl, not_not.1 (not_or.1 hbad).1⟩)
  case waitRelease =>
    split_ifs at h with hbad
    exact .inr (.inr ⟨.inr rfl, not_not.1 hbad⟩)
  case signalState =>
    split at h <;> cases h
    exact .inl rfl
  all_goals
    try split_ifs at h
    all_goals
      cases h
      exact .inl rfl

/-- Nobody begins to run in a step of one of the calls. -/
theorem Turn.running (h : Turn m p m') (ht : m'.kernel.Running t) : m.kernel.Running t := by
  have hset : ∀ {q : Slot} {s : ProcState}, s ≠ .running →
      (m.kernel.setState q s).Running t → m.kernel.Running t := by
    intro q s hs hrun
    rcases eq_or_ne t q with rfl | hne
    · rw [Running, setState, modify_ptable_self] at hrun
      exact absurd hrun hs
    · rwa [Running, setState, modify_ptable_of_ne hne] at hrun
  rcases h.kernel with hk | ⟨-, -, hk⟩ | ⟨-, x, -, hk⟩ <;> rw [hk] at ht
  · exact ht
  · exact hset (by decide) ht
  · exact hset (by decide) ht

/-- The lock of the table is taken at `acquire`, and kept up to `sched`. -/
theorem Place.locksTable_next (h : l' ∈ l.next) (hl' : l'.locksTable = true) :
    l = .waitAcquire ∨ l.locksTable = true ∧ l ≠ .waitSched := by
  revert l'
  cases l <;> decide

/-- A step of another process leaves the lock with who has it. -/
theorem holder_of_advance_of_ne (hadv : m.advance p = .ok m') (hq : q ≠ p)
    (hhold : m.holder = some q) : m'.holder = some q := by
  rcases holder_of_advance hadv with hsame | ⟨-, hnone, -⟩ | ⟨-, hself⟩
  · exact hsame.trans hhold
  · rw [hhold] at hnone
    cases hnone
  · exact absurd (Option.some.inj (hhold.symm.trans hself)) hq

/-- A turn keeps the lock with who needs it. -/
theorem Switches.advance (h : Switches m) (hadv : m.advance p = .ok m') : Switches m' := by
  have hturn := turn_of_advance hadv
  refine ⟨fun q hq ↦ ?_, fun q hq hrun ↦ ?_, fun q hq hrun ↦ ?_⟩
  · rcases eq_or_ne q p with rfl | hne
    · rcases Place.locksTable_next hturn.next hq with hplace | ⟨hplace, hsched⟩
      · simp only [Machine.advance, hplace] at hadv
        split_ifs at hadv
        rw [← Except.ok.inj hadv]
        rfl
      · have hhold := h.locked q hplace
        rcases holder_of_advance hadv with hsame | ⟨hacq, -⟩ | ⟨hl | hl, -⟩
        · exact hsame.trans hhold
        · rw [hacq] at hplace
          cases hplace
        · exact absurd hl hsched
        · rw [hl] at hplace
          cases hplace
    · rw [hturn.place_of_ne hne] at hq
      exact holder_of_advance_of_ne hadv hne (h.locked q hq)
  · rcases eq_or_ne q p with rfl | hne
    · have hplace : m.place q = .waitState := by
        have hnext := hturn.next
        rw [hq] at hnext
        revert hnext
        cases m.place q <;> decide
      rw [advance_waitState hplace hadv, goto_kernel, Running, setState, modify_ptable_self] at hrun
      cases hrun
    · rw [hturn.place_of_ne hne] at hq
      exact h.down q hq (hturn.running hrun)
  · rcases eq_or_ne q p with rfl | hne
    · have hplace : m.place q = .waitSched := by
        have hnext := hturn.next
        rw [hq] at hnext
        revert hnext
        cases m.place q <;> decide
      exact absurd (hturn.running hrun) (h.down q hplace)
    · rw [hturn.place_of_ne hne] at hq
      exact holder_of_advance_of_ne hadv hne (h.back q hq (hturn.running hrun))

/-- While a process has the lock of the table nobody is given a processor, and it keeps the lock. -/
theorem holderAfter_of_holder (hlocks : a.Locks → m.holder = none) (hhold : m.holder = some q) :
    m.holderAfter a = some q ∧ ∀ t, a ≠ .dispatch t := by
  have hne : ∀ t, a ≠ .dispatch t := by
    rintro t rfl
    have hnone := hlocks trivial
    rw [hhold] at hnone
    cases hnone
  refine ⟨?_, hne⟩
  cases a with
  | dispatch t => exact absurd rfl (hne t)
  | _ => exact hhold

/-- A step of the kernel keeps the lock with who needs it. -/
theorem Switches.kernel (h : Switches m) (htidy : Tidy m.kernel)
    (hlocks : a.Locks → m.holder = none)
    (hstep : Unmonitored.step m.kernel a = .ok k) :
    Switches { m with kernel := k, holder := m.holderAfter a } := by
  refine ⟨fun q hq ↦ (holderAfter_of_holder hlocks (h.locked q hq)).1, fun q hq hrun ↦ ?_,
    fun q hq hrun ↦ ?_⟩
  · have hhold := h.locked q (by rw [show m.place q = .waitSched from hq]; rfl)
    rcases (fate_of_step htidy hstep q).dispatched_of_running hrun with hold | ha
    · exact h.down q hq hold
    · exact (holderAfter_of_holder hlocks hhold).2 q ha
  · rcases (fate_of_step htidy hstep q).dispatched_of_running hrun with hold | rfl
    · exact (holderAfter_of_holder hlocks (h.back q hq hold)).1
    · exact if_pos hq

/-- A process enters one of the calls. -/
theorem Switches.enter (h : Switches m) (hl : l = .waitLock ∨ l = .signalFlag) :
    Switches (m.goto p l) := by
  have hplace : ∀ q, (m.goto p l).place q = m.place q ∨ (m.goto p l).place q = l := fun q ↦ by
    rcases eq_or_ne q p with rfl | hne
    · exact .inr goto_place_self
    · exact .inl (goto_place_of_ne hne)
  have hself : l.locksTable = false ∧ l ≠ .waitSched ∧ l ≠ .waitRelease := by
    rcases hl with rfl | rfl <;> decide
  refine ⟨fun q hq ↦ ?_, fun q hq ↦ ?_, fun q hq ↦ ?_⟩ <;> rcases hplace q with heq | heq <;>
    rw [heq] at hq
  · exact h.locked q hq
  · rw [hself.1] at hq
    cases hq
  · exact h.down q hq
  · exact absurd hq hself.2.1
  · exact h.back q hq
  · exact absurd hq hself.2.2

/-- Every step keeps the lock with who needs it. -/
theorem Switches.step {a : Act} (h : Switches m) (htidy : Tidy m.kernel)
    (hstep : m.step a = .ok m') :
    Switches m' := by
  cases stepped_of_step hstep with
  | kernel hcaller hfree hk => exact h.kernel htidy hfree hk
  | lockAcquire hp huser hlock => exact ⟨h.locked, h.down, h.back⟩
  | lockRelease hp huser => exact ⟨h.locked, h.down, h.back⟩
  | condWait hp => exact h.enter (.inl rfl)
  | condSignal hp => exact h.enter (.inr rfl)
  | advance hp hadv => exact h.advance hadv

/-- At boot nobody needs it. -/
theorem switches_boot (d : ℕ) (c : Cond) : Switches (.boot d c) := by
  refine ⟨fun _ hp ↦ ?_, fun _ hp ↦ ?_, fun _ hp ↦ ?_⟩ <;> cases hp

/-- **Where the calls can panic.** -/
theorem Switches.panic (h : Switches m) (hpanic : m.step (.advance p) = .error .panic) :
    m.place p = .waitLock ∧ m.lock = 0 ∨ m.place p = .waitCount ∧ m.cond.count = 8 ∨
      m.place p = .signalState ∧ m.cond.thqueue m.cond.head = none := by
  simp only [Machine.step] at hpanic
  split_ifs at hpanic with hexec
  rw [Machine.advance] at hpanic
  cases hp : m.place p <;> simp only [hp, reduceCtorEq] at hpanic
  case waitLock =>
    split_ifs at hpanic with hfree
    exact .inl ⟨rfl, hfree⟩
  case waitCount =>
    split_ifs at hpanic with hfull
    exact .inr (.inl ⟨rfl, hfull⟩)
  case waitSched =>
    have hhold := h.locked p (by rw [hp]; rfl)
    rw [if_neg (not_or.2 ⟨not_not.2 hhold, h.down p hp⟩)] at hpanic
    cases hpanic
  case waitRelease =>
    have hhold : m.holder = some p := hexec.elim id (h.back p hp)
    rw [if_neg (not_not.2 hhold)] at hpanic
    cases hpanic
  case signalState =>
    split at hpanic
    · exact .inr (.inr ⟨rfl, ‹_›⟩)
    · cases hpanic
  all_goals
    first | cases hpanic | (split_ifs at hpanic; cases hpanic)

end CondVar

end Threads
