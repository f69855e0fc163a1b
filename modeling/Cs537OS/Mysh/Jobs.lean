import Cs537OS.Foundation.Compaction
import Cs537OS.Foundation.Transitions
import Mathlib.Data.Int.Notation

/-!
# The background jobs of `mysh`

The shell keeps the ids of its background children in a table of twenty entries, the first
`processnum` of which are meant to be those still there. Before each prompt the table is compacted
in place, by whether `kill(pid,0)` succeeds; `exit` sends `SIGTERM` to the processes of all twenty
entries for which it does.

There are four branches for a command in the background, by the redirections it has (`Branch`). The
one for an output file alone does not put its child into the table, and the one for both files does
not test whether `fork` has failed.

A child that has terminated stays until it is waited for, and `kill` succeeds for it. The scan waits
only for processes that `kill` does not find any more, so it never has a child to wait for. The
foreground commands wait for their own child. The wait loop of a pipeline takes children of any
kind, and so does a foreground command with both redirections whose `fork` has failed, which then
waits for the process `-1`.

The steps are the scan, the commands, the terminations of children, and the single rounds of the
wait loop. What `kill` answers for an entry that is not the id of a child is up to other processes
and part of the label.
-/

namespace Mysh

/-- A child that has not been waited for. -/
structure Child where
  pid : ℤ
  background : Bool
  running : Bool
deriving DecidableEq

/-- Where the shell stands. -/
inductive Phase
  /-- Before the scan and the prompt. -/
  | prompt
  /-- A line has been read. -/
  | line
  /-- The wait loop of a pipeline, with the id `secondson`. -/
  | waiting (secondson : ℤ)
  /-- After `exit`. -/
  | exited
  /-- The shell has ended without it. -/
  | ended
deriving DecidableEq

/-- The branches for what is executed, by the redirections. -/
inductive Branch
  | plain
  | input
  | output
  | both
deriving DecidableEq

/-- The shell and its children. -/
structure Shell where
  processtable : ℕ → ℤ
  processnum : ℕ
  children : List Child
  phase : Phase
  /-- The ids that were put into the table. -/
  started : List ℤ
  /-- The processes to which `exit` has sent `SIGTERM`. -/
  signalled : List ℤ

/-- What can happen next. -/
inductive JobAct
  /-- The scan, and the line is read. `kill` has these answers for the entries. -/
  | prompt (kill : ℕ → Bool)
  /-- A command that leaves no child behind: built in, refused, or in the foreground. -/
  | command
  /-- A command with both redirections in the foreground, whose `fork` fails: `waitpid(-1,..)`
  returns this child. -/
  | waitAny (reid : ℤ)
  /-- The end of the input, or a command with both redirections that is refused in the
  background. -/
  | quit
  /-- A command in the background; `fork` returns `childid`. -/
  | background (branch : Branch) (childid : ℤ)
  /-- The two forks of a pipeline. -/
  | pipeline (firstson secondson : ℤ)
  /-- `waitpid(-1,..)` of a pipeline returns this child. -/
  | reap (reid : ℤ) (exited : Bool)
  /-- There it finds no child. -/
  | noChild
  /-- A child terminates. -/
  | terminate (pid : ℤ)
  /-- `exit`. `kill` has these answers for the entries. -/
  | exit (kill : ℕ → Bool)

namespace Shell

variable (s : Shell)

/-- Before the first prompt. -/
def Starts : Prop :=
  (∀ i, s.processtable i = 1) ∧ s.processnum = 0 ∧ s.children = [] ∧ s.phase = .prompt ∧
    s.started = [] ∧ s.signalled = []

/-- The id of a child that has not been waited for. -/
def IsChild (pid : ℤ) : Prop := ∃ c ∈ s.children, c.pid = pid

instance (pid : ℤ) : Decidable (s.IsChild pid) := inferInstanceAs (Decidable (∃ c ∈ _, _))

/-- `kill(pid,0)` succeeds for every child that has not been waited for. For `-1` it asks for any
process at all. -/
def Finds (kill : ℕ → Bool) : Prop :=
  ∀ i < 20, s.IsChild (s.processtable i) ∨ s.processtable i = -1 ∧ s.children ≠ [] →
    kill i = true

instance (kill : ℕ → Bool) : Decidable (s.Finds kill) :=
  inferInstanceAs (Decidable (∀ i < 20, _))

/-- The id of a new process. -/
def Fresh (pid : ℤ) : Prop := 1 < pid ∧ ¬ s.IsChild pid

instance (pid : ℤ) : Decidable (s.Fresh pid) := inferInstanceAs (Decidable (_ ∧ _))

/-- The scan before the prompt. -/
def scan (kill : ℕ → Bool) : Shell :=
  { s with
    processtable := (Compaction.compact kill s.processtable 20).1
    processnum := (Compaction.compact kill s.processtable 20).2
    phase := .line }

/-- `if(processnum<20) processtable[processnum++]=childid;`. -/
def record (childid : ℤ) : Shell :=
  if s.processnum < 20 then
    { s with
      processtable := Function.update s.processtable s.processnum childid
      processnum := s.processnum + 1
      started := childid :: s.started }
  else s

/-- What the branches do with `childid`. The one for both redirections does not test for a failed
`fork`, the one for output does not record the child. -/
def recordIn (branch : Branch) (childid : ℤ) : Shell :=
  match branch with
  | .plain | .input => if childid = -1 then s else s.record childid
  | .output => s
  | .both => s.record childid

/-- The background branches. -/
def launch (branch : Branch) (childid : ℤ) : Shell :=
  { s.recordIn branch childid with
    children := if childid = -1 then s.children else ⟨childid, true, true⟩ :: s.children
    phase := .prompt }

/-- The two forks of a pipeline. -/
def pipe (firstson secondson : ℤ) : Shell :=
  if firstson = -1 then { s with phase := .prompt }
  else if secondson = -1 then
    { s with children := ⟨firstson, false, true⟩ :: s.children, phase := .prompt }
  else
    { s with
      children := ⟨secondson, false, true⟩ :: ⟨firstson, false, true⟩ :: s.children
      phase := .waiting secondson }

/-- A step; an error means that the step is not possible here. -/
def step : JobAct → Except Unit Shell
  | .prompt kill =>
    if s.phase = .prompt ∧ s.Finds kill then .ok (s.scan kill) else .error ()
  | .command => if s.phase = .line then .ok { s with phase := .prompt } else .error ()
  | .waitAny reid =>
    if s.phase = .line ∧ ∃ c ∈ s.children, c.pid = reid ∧ c.running = false then
      .ok { s with children := s.children.filter (·.pid ≠ reid), phase := .prompt }
    else .error ()
  | .quit => if s.phase = .line then .ok { s with phase := .ended } else .error ()
  | .background branch childid =>
    if s.phase = .line ∧ (childid = -1 ∨ s.Fresh childid) then .ok (s.launch branch childid)
    else .error ()
  | .pipeline firstson secondson =>
    if s.phase = .line ∧ (firstson = -1 ∨ s.Fresh firstson) ∧
        (secondson = -1 ∨ s.Fresh secondson ∧ secondson ≠ firstson) then
      .ok (s.pipe firstson secondson)
    else .error ()
  | .reap reid exited =>
    match s.phase with
    | .waiting secondson =>
      if ∃ c ∈ s.children, c.pid = reid ∧ c.running = false then
        .ok { s with
          children := s.children.filter (·.pid ≠ reid)
          phase := if reid = secondson ∧ exited = true then .prompt else .waiting secondson }
      else .error ()
    | _ => .error ()
  | .noChild =>
    match s.phase with
    | .waiting _ => if s.children = [] then .ok { s with phase := .prompt } else .error ()
    | _ => .error ()
  | .terminate pid =>
    if s.phase ≠ .exited ∧ ∃ c ∈ s.children, c.pid = pid ∧ c.running = true then
      .ok { s with
        children := s.children.map fun c ↦ if c.pid = pid then { c with running := false } else c }
    else .error ()
  | .exit kill =>
    if s.phase = .line ∧ s.Finds kill then
      .ok { s with
        signalled := ((List.range 20).filter kill).map s.processtable, phase := .exited }
    else .error ()

end Shell

/-- The shell. -/
def jobs : System Shell JobAct where
  init := Shell.Starts
  next s a t := s.step a = .ok t

end Mysh
