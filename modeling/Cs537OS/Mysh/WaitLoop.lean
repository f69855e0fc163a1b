import Cs537OS.Mysh.Jobs
import Mathlib.Tactic.SplitIfs

/-!
# The wait loop of a pipeline

The loop calls `waitpid(-1,..)`, which returns any child that has terminated, and ends when this is
the second child and it has exited. So it counts on the order in which the children terminate.

* `waitLoop` — the rounds of the loop between the terminations of the children, over the steps of
  the shell, with the manner in which each child terminates;
* `waits_ok` — in every run in which no background child terminates while the loop waits, and the
  second child exits after the first has been waited for (`Orderly`), the loop is right (`Ok`);
  after any other step it may go wrong;
* `secondFirst_not_ok` — the second child exits first, and the first is left behind.
-/

namespace Mysh

/-- How a child terminates. -/
inductive Manner
  | exit
  | signal
deriving DecidableEq

/-- The shell in the wait loop. -/
structure Wait where
  shell : Shell
  /-- What `waitpid` says about a child that has terminated. -/
  status : ℤ → Option Manner
  /-- The error messages of the loop. -/
  errors : ℕ

/-- What can happen next. -/
inductive WaitAct
  /-- A child terminates. -/
  | terminate (pid : ℤ) (manner : Manner)
  /-- `waitpid(-1,..)` returns this child. -/
  | reap (reid : ℤ)
  /-- `waitpid(-1,..)` finds no child. -/
  | noChild

/-- The loop does it. -/
def WaitAct.IsRound : WaitAct → Prop
  | terminate _ _ => False
  | reap _ | noChild => True

namespace Wait

variable (s : Wait)

/-- The step of the shell. -/
def act : WaitAct → JobAct
  | .terminate pid _ => .terminate pid
  | .reap reid => .reap reid (s.status reid = some .exit)
  | .noChild => .noChild

/-- What the wait loop adds to it. -/
def after (shell : Shell) : WaitAct → Wait
  | .terminate pid manner => ⟨shell, Function.update s.status pid (some manner), s.errors⟩
  | .reap _ => ⟨shell, s.status, s.errors⟩
  | .noChild => ⟨shell, s.status, s.errors + 1⟩

def step (a : WaitAct) : Except Unit Wait := (s.shell.step (s.act a)).map (s.after · a)

/-- Both children have just been forked, and all other children run in the background. -/
structure Starts (s₀ : Shell) (firstson secondson : ℤ) : Prop where
  running : ∀ c ∈ s₀.children, c.background = true ∧ c.running = true
  forked : firstson ≠ -1 ∧ secondson ≠ -1
  shell : s₀.step (.pipeline firstson secondson) = .ok s.shell
  status : ∀ pid, s.status pid = none
  errors : s.errors = 0

/-- The loop ends, whatever `waitpid` returns, and does not wait for another child to terminate. -/
inductive Ending : Wait → Prop
  | finished {s : Wait} : s.shell.phase = .prompt → Ending s
  | round {s : Wait} : (∃ a t, a.IsRound ∧ s.step a = .ok t) →
      (∀ a t, a.IsRound → s.step a = .ok t → Ending t) → Ending s

/-- What is expected of the loop. -/
structure Ok (s₀ : Shell) (firstson secondson : ℤ) : Prop where
  /-- It ends when both children have terminated. -/
  ending : s.status firstson ≠ none → s.status secondson ≠ none → s.Ending
  /-- It leaves neither of them. -/
  reaped : s.shell.phase = .prompt → ¬ s.shell.IsChild firstson ∧ ¬ s.shell.IsChild secondson
  errors : s.errors = 0
  /-- The background children have not been waited for. -/
  background : ∀ c ∈ s₀.children, s.shell.IsChild c.pid

/-- The children terminate in an order that the loop can stand. -/
def Orderly (firstson secondson : ℤ) (s : Wait) : WaitAct → Prop
  | .terminate pid manner => s.shell.phase = .prompt ∨ pid = firstson ∨
      pid = secondson ∧ manner = .exit ∧ ¬ s.shell.IsChild firstson
  | .reap _ | .noChild => True

end Wait

/-- The wait loop. -/
def waitLoop (s₀ : Shell) (firstson secondson : ℤ) : System Wait WaitAct where
  init s := s.Starts s₀ firstson secondson
  next s a t := s.step a = .ok t

namespace Wait

variable {s t : Wait} {s₀ : Shell} {a : WaitAct} {firstson secondson pid reid : ℤ} {manner : Manner}

/-! ### The steps -/

/-- The child with this id does not run any more. -/
def stop (pid : ℤ) (c : Child) : Child := if c.pid = pid then { c with running := false } else c

theorem stop_pid (c : Child) : (stop pid c).pid = c.pid := by
  rw [stop]
  split_ifs <;> rfl

theorem stop_of_eq {c : Child} (h : c.pid = pid) : (stop pid c).running = false := by
  rw [stop, if_pos h]

theorem stop_of_ne {c : Child} (h : c.pid ≠ pid) : stop pid c = c := if_neg h

/-- The state after a child has terminated. -/
def terminated (s : Wait) (pid : ℤ) (manner : Manner) : Wait where
  shell := { s.shell with children := s.shell.children.map (stop pid) }
  status := Function.update s.status pid (some manner)
  errors := s.errors

theorem status_terminated_self : (s.terminated pid manner).status pid = some manner :=
  Function.update_self ..

theorem status_terminated_of_ne {p : ℤ} (h : p ≠ pid) :
    (s.terminated pid manner).status p = s.status p :=
  Function.update_of_ne h ..

theorem isChild_terminated {p : ℤ} :
    (s.terminated pid manner).shell.IsChild p ↔ s.shell.IsChild p := by
  constructor
  · rintro ⟨c', hc', hpid⟩
    obtain ⟨c, hc, rfl⟩ := List.mem_map.1 hc'
    exact ⟨c, hc, (stop_pid c).symm.trans hpid⟩
  · rintro ⟨c, hc, hpid⟩
    exact ⟨stop pid c, List.mem_map_of_mem hc, (stop_pid c).trans hpid⟩

/-- A child that terminates was running. -/
theorem step_terminate (h : s.step (.terminate pid manner) = .ok t) :
    (∃ c ∈ s.shell.children, c.pid = pid ∧ c.running = true) ∧ t = s.terminated pid manner := by
  simp only [step, act, Shell.step] at h
  split_ifs at h with hcan
  · exact ⟨hcan.2, (Except.ok.inj h).symm⟩
  · cases h

theorem step_terminate_of (hphase : s.shell.phase ≠ .exited)
    (hrunning : ∃ c ∈ s.shell.children, c.pid = pid ∧ c.running = true) :
    s.step (.terminate pid manner) = .ok (s.terminated pid manner) := by
  simp only [step, act, Shell.step, if_pos (And.intro hphase hrunning)]
  rfl

/-- The state after `waitpid` has returned a child to a loop that waits for `secondson`. -/
def returned (s : Wait) (secondson reid : ℤ) : Wait where
  shell :=
    { s.shell with
      children := s.shell.children.filter (·.pid ≠ reid)
      phase := if reid = secondson ∧ s.status reid = some .exit then .prompt
        else .waiting secondson }
  status := s.status
  errors := s.errors

/-- The child that `waitpid` returns is gone, and the others are not. -/
theorem isChild_returned {p : ℤ} :
    (s.returned secondson reid).shell.IsChild p ↔ s.shell.IsChild p ∧ p ≠ reid := by
  constructor
  · rintro ⟨c, hc, rfl⟩
    obtain ⟨hc, hne⟩ := List.mem_filter.1 hc
    exact ⟨⟨c, hc, rfl⟩, of_decide_eq_true hne⟩
  · rintro ⟨⟨c, hc, rfl⟩, hne⟩
    exact ⟨c, List.mem_filter.2 ⟨hc, decide_eq_true hne⟩, rfl⟩

/-- The loop ends when `waitpid` returns the second child after its `exit`, -/
theorem phase_returned_of_exit (h : s.status secondson = some .exit) :
    (s.returned secondson secondson).shell.phase = .prompt :=
  if_pos ⟨rfl, h⟩

/-- and goes on after any other child, or when a signal has killed it. -/
theorem phase_returned (h : ¬ (reid = secondson ∧ s.status reid = some .exit)) :
    (s.returned secondson reid).shell.phase = .waiting secondson :=
  if_neg h

/-- `waitpid` can return any child that has terminated. -/
theorem step_reap (hphase : s.shell.phase = .waiting secondson)
    (hzombie : ∃ c ∈ s.shell.children, c.pid = reid ∧ c.running = false) :
    s.step (.reap reid) = .ok (s.returned secondson reid) := by
  simp only [step, act, Shell.step, hphase, if_pos hzombie, decide_eq_true_iff]
  rfl

/-- When `waitpid` returns a child, it has terminated and the loop is waiting. -/
theorem exists_of_reap (h : s.step (.reap reid) = .ok t) :
    (∃ secondson, s.shell.phase = .waiting secondson) ∧
      ∃ c ∈ s.shell.children, c.pid = reid ∧ c.running = false := by
  simp only [step, act, Shell.step] at h
  split at h
  next secondson hphase =>
    by_cases hzombie : ∃ c ∈ s.shell.children, c.pid = reid ∧ c.running = false
    · exact ⟨⟨secondson, hphase⟩, hzombie⟩
    · rw [if_neg hzombie] at h
      cases h
  next => cases h

/-- When `waitpid` finds no child there is none, and the loop writes an error message. -/
theorem step_noChild (h : s.step .noChild = .ok t) :
    (∃ secondson, s.shell.phase = .waiting secondson) ∧ s.shell.children = [] ∧
      t.errors = s.errors + 1 := by
  simp only [step, act, Shell.step] at h
  split at h
  next secondson hphase =>
    split_ifs at h with hnil
    · obtain rfl := Except.ok.inj h
      exact ⟨⟨secondson, hphase⟩, hnil, rfl⟩
    · cases h
  next => cases h

/-! ### The invariant -/

/-- Which children there are, and what has become of the two. -/
structure Inv (s : Wait) (s₀ : Shell) (firstson secondson : ℤ) : Prop where
  errors : s.errors = 0
  ne : firstson ≠ secondson
  known : ∀ c ∈ s.shell.children, c.pid = firstson ∨ c.pid = secondson ∨
    ∃ b ∈ s₀.children, b.pid = c.pid
  background : ∀ b ∈ s₀.children, s.shell.IsChild b.pid ∧ b.pid ≠ firstson ∧ b.pid ≠ secondson
  phase : s.shell.phase = .waiting secondson ∨ s.shell.phase = .prompt
  /-- The first child runs or has terminated. -/
  first : (∃ c ∈ s.shell.children, c.pid = firstson ∧ c.running = true) ∨
    s.status firstson ≠ none
  /-- As long as the loop waits, the second child is there. -/
  second : s.shell.phase = .waiting secondson → s.shell.IsChild secondson
  /-- When it has terminated, the loop will end with it. -/
  exited : s.shell.phase = .waiting secondson → s.status secondson ≠ none →
    s.status secondson = some .exit ∧ ¬ s.shell.IsChild firstson ∧
      ∃ c ∈ s.shell.children, c.pid = secondson ∧ c.running = false
  /-- No other child waits to be waited for. -/
  zombies : s.shell.phase = .waiting secondson → ∀ c ∈ s.shell.children, c.running = false →
    (c.pid = firstson ∨ c.pid = secondson) ∧ s.status c.pid ≠ none
  reaped : s.shell.phase = .prompt → ¬ s.shell.IsChild firstson ∧ ¬ s.shell.IsChild secondson

/-- The two forks. -/
theorem Starts.pipe (h : s.Starts s₀ firstson secondson) :
    s₀.Fresh firstson ∧ s₀.Fresh secondson ∧ secondson ≠ firstson ∧
      s.shell.children = ⟨secondson, false, true⟩ :: ⟨firstson, false, true⟩ :: s₀.children ∧
        s.shell.phase = .waiting secondson := by
  obtain ⟨hfirst, hsecond⟩ := h.forked
  have hstep := h.shell
  simp only [Shell.step] at hstep
  split_ifs at hstep with hcan
  obtain ⟨-, hfresh, hfresh'⟩ := hcan
  obtain ⟨hfresh', hne⟩ := hfresh'.resolve_left hsecond
  have hshell : s.shell = s₀.pipe firstson secondson := (Except.ok.inj hstep).symm
  refine ⟨hfresh.resolve_left hfirst, hfresh', hne, ?_⟩
  rw [hshell, Shell.pipe, if_neg hfirst, if_neg hsecond]
  exact ⟨rfl, rfl⟩

/-- The invariant holds when both children have been forked. -/
theorem Starts.inv (h : s.Starts s₀ firstson secondson) : s.Inv s₀ firstson secondson := by
  obtain ⟨⟨-, hfirst⟩, ⟨-, hsecond⟩, hne, hchildren, hphase⟩ := h.pipe
  have hback : ∀ b ∈ s₀.children, b.pid ≠ firstson ∧ b.pid ≠ secondson := fun b hb ↦
    ⟨fun heq ↦ hfirst ⟨b, hb, heq⟩, fun heq ↦ hsecond ⟨b, hb, heq⟩⟩
  constructor
  case errors => exact h.errors
  case ne => exact hne.symm
  case known =>
    rw [hchildren]
    intro c hc
    rcases List.mem_cons.1 hc with rfl | hc
    · exact .inr (.inl rfl)
    rcases List.mem_cons.1 hc with rfl | hc
    · exact .inl rfl
    · exact .inr (.inr ⟨c, hc, rfl⟩)
  case background =>
    intro b hb
    refine ⟨⟨b, ?_, rfl⟩, hback b hb⟩
    rw [hchildren]
    exact List.mem_cons_of_mem _ (List.mem_cons_of_mem _ hb)
  case phase => exact .inl hphase
  case first =>
    refine .inl ⟨⟨firstson, false, true⟩, ?_, rfl, rfl⟩
    rw [hchildren]
    exact List.mem_cons_of_mem _ List.mem_cons_self
  case second =>
    intro _
    refine ⟨⟨secondson, false, true⟩, ?_, rfl⟩
    rw [hchildren]
    exact List.mem_cons_self
  case exited => exact fun _ hstatus ↦ absurd (h.status secondson) hstatus
  case zombies =>
    intro _ c hc hzombie
    have hrunning : c.running = true := by
      rw [hchildren] at hc
      rcases List.mem_cons.1 hc with rfl | hc
      · rfl
      rcases List.mem_cons.1 hc with rfl | hc
      · rfl
      · exact (h.running c hc).2
    rw [hrunning] at hzombie
    cases hzombie
  case reaped =>
    intro hprompt
    cases hphase.symm.trans hprompt

/-- A child terminates in order. -/
theorem Inv.terminate (h : s.Inv s₀ firstson secondson)
    (horder : s.Orderly firstson secondson (.terminate pid manner))
    (hrunning : ∃ c ∈ s.shell.children, c.pid = pid ∧ c.running = true) :
    (s.terminated pid manner).Inv s₀ firstson secondson := by
  have hwaits : s.shell.phase = .waiting secondson → pid = firstson ∨
      pid = secondson ∧ manner = .exit ∧ ¬ s.shell.IsChild firstson := by
    intro hphase
    refine horder.resolve_left fun hprompt ↦ ?_
    cases hphase.symm.trans hprompt
  constructor
  case errors => exact h.errors
  case ne => exact h.ne
  case known =>
    intro c' hc'
    obtain ⟨c, hc, rfl⟩ := List.mem_map.1 hc'
    rw [stop_pid]
    exact h.known c hc
  case background =>
    intro b hb
    obtain ⟨hchild, hne⟩ := h.background b hb
    exact ⟨isChild_terminated.2 hchild, hne⟩
  case phase => exact h.phase
  case first =>
    rcases eq_or_ne firstson pid with rfl | hne
    · exact .inr (by simp [status_terminated_self])
    rw [status_terminated_of_ne hne]
    refine h.first.imp_left ?_
    rintro ⟨c, hc, hpid, hrun⟩
    exact ⟨c, List.mem_map.2 ⟨c, hc, stop_of_ne (hpid ▸ hne)⟩, hpid, hrun⟩
  case second => exact fun hphase ↦ isChild_terminated.2 (h.second hphase)
  case exited =>
    intro hphase hstatus
    rw [isChild_terminated]
    rcases eq_or_ne secondson pid with rfl | hne
    · obtain ⟨-, rfl, hfirst⟩ := (hwaits hphase).resolve_left h.ne.symm
      obtain ⟨c, hc, hpid, -⟩ := hrunning
      exact ⟨status_terminated_self, hfirst, stop secondson c, List.mem_map_of_mem hc,
        (stop_pid c).trans hpid, stop_of_eq hpid⟩
    · rw [status_terminated_of_ne hne] at hstatus ⊢
      obtain ⟨hexit, hfirst, c, hc, hpid, hzombie⟩ := h.exited hphase hstatus
      exact ⟨hexit, hfirst, c, List.mem_map.2 ⟨c, hc, stop_of_ne (hpid ▸ hne)⟩, hpid, hzombie⟩
  case zombies =>
    intro hphase c' hc' hzombie
    obtain ⟨c, hc, rfl⟩ := List.mem_map.1 hc'
    rw [stop_pid]
    rcases eq_or_ne c.pid pid with rfl | hne
    · -- the child that has just terminated
      rw [status_terminated_self]
      exact ⟨(hwaits hphase).imp_right And.left, Option.some_ne_none _⟩
    · rw [stop_of_ne hne] at hzombie
      rw [status_terminated_of_ne hne]
      exact h.zombies hphase c hc hzombie
  case reaped =>
    intro hprompt
    rw [isChild_terminated, isChild_terminated]
    exact h.reaped hprompt

/-- The loop is at work. -/
theorem Inv.waiting (h : s.Inv s₀ firstson secondson)
    (hphase : ∃ p, s.shell.phase = .waiting p) : s.shell.phase = .waiting secondson := by
  obtain ⟨p, hp⟩ := hphase
  refine h.phase.resolve_right fun hprompt ↦ ?_
  cases hp.symm.trans hprompt

/-- The loop waits for the first child. -/
theorem Inv.returned_first (h : s.Inv s₀ firstson secondson)
    (hphase : s.shell.phase = .waiting secondson) (hchild : s.shell.IsChild firstson)
    (hstatus : s.status firstson ≠ none) :
    (s.returned secondson firstson).Inv s₀ firstson secondson := by
  have hwaiting := phase_returned (s := s) fun hsecond ↦ h.ne hsecond.1
  have hrun : s.status secondson = none := by
    by_contra hsome
    exact (h.exited hphase hsome).2.1 hchild
  constructor
  case errors => exact h.errors
  case ne => exact h.ne
  case known => exact fun c hc ↦ h.known c (List.mem_of_mem_filter hc)
  case background =>
    intro b hb
    obtain ⟨hback, hne, hne'⟩ := h.background b hb
    exact ⟨isChild_returned.2 ⟨hback, hne⟩, hne, hne'⟩
  case phase => exact .inl hwaiting
  case first => exact .inr hstatus
  case second => exact fun _ ↦ isChild_returned.2 ⟨h.second hphase, h.ne.symm⟩
  case exited => exact fun _ hsome ↦ absurd hrun hsome
  case zombies => exact fun _ c hc ↦ h.zombies hphase c (List.mem_of_mem_filter hc)
  case reaped =>
    intro hprompt
    cases hwaiting.symm.trans hprompt

/-- The loop waits for the second child, and ends. -/
theorem Inv.returned_second (h : s.Inv s₀ firstson secondson)
    (hphase : s.shell.phase = .waiting secondson) (hstatus : s.status secondson ≠ none) :
    (s.returned secondson secondson).Inv s₀ firstson secondson := by
  obtain ⟨hexit, hfirst, -⟩ := h.exited hphase hstatus
  have hprompt := phase_returned_of_exit hexit
  have hover : (s.returned secondson secondson).shell.phase ≠ .waiting secondson := by
    rw [hprompt]
    exact fun hwaiting ↦ by cases hwaiting
  constructor
  case errors => exact h.errors
  case ne => exact h.ne
  case known => exact fun c hc ↦ h.known c (List.mem_of_mem_filter hc)
  case background =>
    intro b hb
    obtain ⟨hback, hne, hne'⟩ := h.background b hb
    exact ⟨isChild_returned.2 ⟨hback, hne'⟩, hne, hne'⟩
  case phase => exact .inr hprompt
  case first =>
    refine h.first.imp_left ?_
    rintro ⟨c, hc, hpid, -⟩
    exact absurd ⟨c, hc, hpid⟩ hfirst
  case second => exact fun hwaiting ↦ absurd hwaiting hover
  case exited => exact fun hwaiting ↦ absurd hwaiting hover
  case zombies => exact fun hwaiting ↦ absurd hwaiting hover
  case reaped =>
    intro _
    rw [isChild_returned, isChild_returned]
    exact ⟨fun hchild ↦ hfirst hchild.1, fun hchild ↦ hchild.2 rfl⟩

/-- **An orderly step** keeps the invariant. -/
theorem Inv.step (h : s.Inv s₀ firstson secondson) (horder : s.Orderly firstson secondson a)
    (hstep : s.step a = .ok t) : t.Inv s₀ firstson secondson := by
  cases a with
  | terminate pid manner =>
    obtain ⟨hrunning, rfl⟩ := step_terminate hstep
    exact h.terminate horder hrunning
  | reap reid =>
    obtain ⟨hwaiting, hzombie⟩ := exists_of_reap hstep
    have hphase := h.waiting hwaiting
    obtain rfl := Except.ok.inj ((step_reap hphase hzombie).symm.trans hstep)
    obtain ⟨c, hc, rfl, hstopped⟩ := hzombie
    obtain ⟨hfirst | hsecond, hstatus⟩ := h.zombies hphase c hc hstopped
    · rw [hfirst] at hstatus ⊢
      exact h.returned_first hphase ⟨c, hc, hfirst⟩ hstatus
    · rw [hsecond] at hstatus ⊢
      exact h.returned_second hphase hstatus
  | noChild =>
    obtain ⟨hwaiting, hnil, -⟩ := step_noChild hstep
    obtain ⟨c, hc, -⟩ := h.second (h.waiting hwaiting)
    rw [hnil] at hc
    cases hc

/-- The invariant holds in every run in which the children terminate in order. -/
theorem inv_of_reachable
    (h : ((waitLoop s₀ firstson secondson).restrict (Orderly firstson secondson)).Reachable s) :
    s.Inv s₀ firstson secondson :=
  h.invariant (fun _ ↦ Starts.inv) fun _ _ _ hinv hstep ↦ hinv.step hstep.1 hstep.2

/-- The loop ends with the next child that `waitpid` returns. -/
theorem Inv.ending (h : s.Inv s₀ firstson secondson) (hstatus : s.status secondson ≠ none) :
    s.Ending := by
  rcases h.phase with hphase | hprompt
  · obtain ⟨hexit, hfirst, hzombie⟩ := h.exited hphase hstatus
    have hend : (s.returned secondson secondson).Ending := .finished (phase_returned_of_exit hexit)
    refine .round ⟨.reap secondson, _, trivial, step_reap hphase hzombie⟩ fun a t hround hstep ↦ ?_
    cases a with
    | terminate pid manner => cases hround
    | noChild =>
      obtain ⟨-, hnil, -⟩ := step_noChild hstep
      obtain ⟨c, hc, -⟩ := hzombie
      rw [hnil] at hc
      cases hc
    | reap reid =>
      obtain ⟨-, hzombie'⟩ := exists_of_reap hstep
      obtain rfl := Except.ok.inj ((step_reap hphase hzombie').symm.trans hstep)
      obtain ⟨c, hc, rfl, hstopped⟩ := hzombie'
      obtain ⟨hpid, -⟩ := h.zombies hphase c hc hstopped
      rwa [hpid.resolve_left fun hpid ↦ hfirst ⟨c, hc, hpid⟩]
  · exact .finished hprompt

/-- The invariant says that the loop is right. -/
theorem Inv.ok (h : s.Inv s₀ firstson secondson) : s.Ok s₀ firstson secondson where
  ending := fun _ ↦ h.ending
  reaped := h.reaped
  errors := h.errors
  background := fun c hc ↦ (h.background c hc).1

/-! ### The other steps -/

/-- What can come after the state is not always right. -/
def GoesWrong (s₀ : Shell) (firstson secondson : ℤ) (s : Wait) : Prop :=
  ∃ (acts : List WaitAct) (t : Wait), acts.foldlM step s = .ok t ∧ ¬ t.Ok s₀ firstson secondson

theorem GoesWrong.of_not_ok (h : ¬ s.Ok s₀ firstson secondson) :
    GoesWrong s₀ firstson secondson s :=
  ⟨[], s, rfl, h⟩

theorem GoesWrong.of_step (hstep : s.step a = .ok t) (h : GoesWrong s₀ firstson secondson t) :
    GoesWrong s₀ firstson secondson s := by
  obtain ⟨acts, u, hrun, hnot⟩ := h
  refine ⟨a :: acts, u, ?_, hnot⟩
  rw [List.foldlM_cons, hstep]
  exact hrun

/-- When the second child is gone, the loop ends with an error only. -/
theorem Ending.goesWrong (h : s.Ending) (hphase : s.shell.phase = .waiting secondson)
    (hgone : ¬ s.shell.IsChild secondson) : GoesWrong s₀ firstson secondson s := by
  induction h with
  | finished hprompt => cases hphase.symm.trans hprompt
  | @round s hround _ ih =>
    obtain ⟨a, t, ha, hstep⟩ := hround
    refine .of_step hstep ?_
    cases a with
    | terminate pid manner => cases ha
    | noChild =>
      obtain ⟨-, -, herrors⟩ := step_noChild hstep
      refine .of_not_ok fun hok ↦ ?_
      rw [hok.errors] at herrors
      omega
    | reap reid =>
      obtain ⟨-, hzombie⟩ := exists_of_reap hstep
      obtain rfl := Except.ok.inj ((step_reap hphase hzombie).symm.trans hstep)
      obtain ⟨c, hc, rfl, -⟩ := hzombie
      have hne : c.pid ≠ secondson := fun hpid ↦ hgone ⟨c, hc, hpid⟩
      refine ih _ _ ha hstep (phase_returned fun hsecond ↦ hne hsecond.1) fun hchild ↦ ?_
      exact hgone (isChild_returned.1 hchild).1

/-- When the second child is gone and the loop still waits, it does not end with the first. -/
theorem goesWrong_of_gone (hphase : s.shell.phase = .waiting secondson)
    (hgone : ¬ s.shell.IsChild secondson) (hsecond : s.status secondson ≠ none)
    (hne : firstson ≠ secondson)
    (hfirst : (∃ c ∈ s.shell.children, c.pid = firstson ∧ c.running = true) ∨
      s.status firstson ≠ none) : GoesWrong s₀ firstson secondson s := by
  have hdone : ∀ u : Wait, u.shell.phase = .waiting secondson → ¬ u.shell.IsChild secondson →
      u.status secondson ≠ none → u.status firstson ≠ none →
        GoesWrong s₀ firstson secondson u := by
    intro u hphase hgone hsecond hfirst
    by_cases hok : u.Ok s₀ firstson secondson
    · exact (hok.ending hfirst hsecond).goesWrong hphase hgone
    · exact .of_not_ok hok
  rcases hfirst with hrunning | hstatus
  · have hexited : s.shell.phase ≠ .exited := fun h ↦ by cases hphase.symm.trans h
    have hstep : s.step (.terminate firstson .exit) = .ok (s.terminated firstson .exit) :=
      step_terminate_of hexited hrunning
    refine .of_step hstep (hdone _ hphase ?_ ?_ ?_)
    · rwa [isChild_terminated]
    · rwa [status_terminated_of_ne hne.symm]
    · rw [status_terminated_self]
      exact Option.some_ne_none _
  · exact hdone s hphase hgone hsecond hstatus

/-- A child that runs in the background terminates. -/
theorem Inv.goesWrong_of_background (h : s.Inv s₀ firstson secondson)
    (hphase : s.shell.phase = .waiting secondson)
    (hrunning : ∃ c ∈ s.shell.children, c.pid = pid ∧ c.running = true)
    (hfirst : pid ≠ firstson) (hsecond : pid ≠ secondson) :
    GoesWrong s₀ firstson secondson (s.terminated pid manner) := by
  obtain ⟨c, hc, rfl, -⟩ := hrunning
  obtain ⟨b, hb, hpid⟩ := ((h.known c hc).resolve_left hfirst).resolve_left hsecond
  have hzombie : ∃ c' ∈ (s.terminated c.pid manner).shell.children,
      c'.pid = c.pid ∧ c'.running = false :=
    ⟨stop c.pid c, List.mem_map_of_mem hc, stop_pid c, stop_of_eq rfl⟩
  refine .of_step (step_reap hphase hzombie) (.of_not_ok fun hok ↦ ?_)
  exact (isChild_returned.1 (hok.background b hb)).2 hpid

/-- The second child terminates, by a signal or before the first has been waited for. -/
theorem Inv.goesWrong_of_second (h : s.Inv s₀ firstson secondson)
    (hphase : s.shell.phase = .waiting secondson)
    (hrunning : ∃ c ∈ s.shell.children, c.pid = secondson ∧ c.running = true)
    (hearly : manner = .exit → s.shell.IsChild firstson) :
    GoesWrong s₀ firstson secondson (s.terminated secondson manner) := by
  obtain ⟨c, hc, hpid, -⟩ := hrunning
  have hzombie : ∃ c' ∈ (s.terminated secondson manner).shell.children,
      c'.pid = secondson ∧ c'.running = false :=
    ⟨stop secondson c, List.mem_map_of_mem hc, (stop_pid c).trans hpid, stop_of_eq hpid⟩
  refine .of_step (step_reap hphase hzombie) ?_
  have hstatus : (s.terminated secondson manner).status secondson = some manner :=
    status_terminated_self
  cases manner with
  | exit =>
    -- the loop ends without the first child
    refine .of_not_ok fun hok ↦ (hok.reaped (phase_returned_of_exit hstatus)).1 ?_
    exact isChild_returned.2 ⟨isChild_terminated.2 (hearly rfl), h.ne⟩
  | signal =>
    have hfirst : (∃ c ∈ ((s.terminated secondson .signal).returned secondson
        secondson).shell.children, c.pid = firstson ∧ c.running = true) ∨
        (s.terminated secondson .signal).status firstson ≠ none := by
      rw [status_terminated_of_ne h.ne]
      refine h.first.imp_left ?_
      rintro ⟨c, hc, hpid, hrun⟩
      refine ⟨c, List.mem_filter.2 ⟨List.mem_map.2 ⟨c, hc, stop_of_ne ?_⟩, decide_eq_true ?_⟩,
        hpid, hrun⟩ <;> exact hpid ▸ h.ne
    refine goesWrong_of_gone (phase_returned fun hexit ↦ ?_)
      (fun hchild ↦ (isChild_returned.1 hchild).2 rfl) ?_ h.ne hfirst
    · cases hstatus.symm.trans hexit.2
    · show (s.terminated secondson .signal).status secondson ≠ none
      rw [hstatus]
      exact Option.some_ne_none _

/-- After a child has terminated in any other order, the loop can go wrong. -/
theorem Inv.goesWrong_of_not_orderly (h : s.Inv s₀ firstson secondson)
    (hstep : s.step a = .ok t) (hnot : ¬ s.Orderly firstson secondson a) :
    GoesWrong s₀ firstson secondson t := by
  cases a with
  | reap reid => exact absurd trivial hnot
  | noChild => exact absurd trivial hnot
  | terminate pid manner =>
    obtain ⟨hrunning, rfl⟩ := step_terminate hstep
    have hphase := h.phase.resolve_right fun hprompt ↦ hnot (.inl hprompt)
    have hfirst : pid ≠ firstson := fun heq ↦ hnot (.inr (.inl heq))
    rcases eq_or_ne pid secondson with rfl | hsecond
    · refine h.goesWrong_of_second hphase hrunning fun hexit ↦ ?_
      by_contra hgone
      exact hnot (.inr (.inr ⟨rfl, hexit, hgone⟩))
    · exact h.goesWrong_of_background hphase hrunning hfirst hsecond

/-- **When the wait loop is right.** In every run of orderly steps; and any other step can be
followed by others so that it is wrong. -/
theorem waits_ok :
    (∀ s, ((waitLoop s₀ firstson secondson).restrict (Orderly firstson secondson)).Reachable s →
      s.Ok s₀ firstson secondson) ∧
    ∀ s a t, ((waitLoop s₀ firstson secondson).restrict (Orderly firstson secondson)).Reachable s →
      s.step a = .ok t → ¬ s.Orderly firstson secondson a → GoesWrong s₀ firstson secondson t :=
  ⟨fun _ hs ↦ (inv_of_reachable hs).ok,
    fun _ _ _ hs ↦ (inv_of_reachable hs).goesWrong_of_not_orderly⟩

/-- One job in the background. -/
def oneJob : Shell where
  processtable := Function.update (fun _ ↦ 1) 0 10
  processnum := 1
  children := [⟨10, true, true⟩]
  phase := .line
  started := [10]
  signalled := []

/-- The wait loop after the two forks. -/
def forked : Wait := ⟨oneJob.pipe 11 12, fun _ ↦ none, 0⟩

theorem forked_starts : forked.Starts oneJob 11 12 where
  running := by decide
  forked := by decide
  shell := by
    rw [Shell.step, if_pos (by decide)]
    rfl
  status := fun _ ↦ rfl
  errors := rfl

instance : Decidable (s.Orderly firstson secondson a) :=
  match a with
  | .terminate _ _ => inferInstanceAs (Decidable (_ ∨ _ ∨ _ ∧ _ ∧ _))
  | .reap _ | .noChild => isTrue trivial

/-- The first child, then the second. -/
theorem inOrder_ok : ∃ s : Wait, s.shell.phase = .prompt ∧ s.Ok oneJob 11 12 := by
  obtain ⟨s, hs, hend⟩ := System.Reachable.exists_of_run
    (S := (waitLoop oneJob 11 12).restrict (Orderly 11 12))
    (f := System.checked (Orderly 11 12) step ()) (System.next_of_checked fun _ _ _ h ↦ h)
    (l := [.terminate 11 .signal, .reap 11, .terminate 12 .exit, .reap 12, .terminate 10 .exit])
    (p := fun s ↦ decide (s.shell.phase = .prompt)) (.init forked_starts) (by decide +kernel)
  exact ⟨s, of_decide_eq_true hend, waits_ok.1 s hs⟩

/-- **The second child first.** -/
theorem secondFirst_not_ok : ¬ ∀ (s₀ : Shell) (firstson secondson : ℤ) (s : Wait),
    (waitLoop s₀ firstson secondson).Reachable s → s.Ok s₀ firstson secondson := by
  intro hall
  obtain ⟨s, hs, hend⟩ := System.Reachable.exists_of_run (S := waitLoop oneJob 11 12) (f := step)
    (fun _ _ _ h ↦ h) (l := [.terminate 12 .exit, .reap 12])
    (p := fun s ↦ decide (s.shell.phase = .prompt ∧ s.shell.IsChild 11)) (.init forked_starts)
    (by decide +kernel)
  obtain ⟨hphase, hchild⟩ := of_decide_eq_true hend
  exact ((hall _ _ _ s hs).reaped hphase).1 hchild

end Wait

end Mysh
