import Mathlib.Data.Nat.Notation

/-!
# The command line of `mysh`

A line of at most 128 bytes is cut into tokens at blanks and tabs. What is not a built-in command
is scanned for operators, up to the first `|` or `&`. For every `>` the scan counts the tokens
behind it up to the next `<`, for every `<` those up to the next `>`; the counts add up, and of
several operators of one kind the last one wins.

The branch taken then depends on which operators there are. The source has a copy of each branch
for the foreground and one for the background; the two differ in whether the shell waits, and in
one of them the failed check ends the shell.
-/

namespace Mysh

/-- A C string, without the NUL. -/
abbrev Token := List UInt8

/-- `"<"`. -/
def less : Token := [60]

/-- `">"`. -/
def greater : Token := [62]

/-- `"&"`. -/
def ampersand : Token := [38]

/-- `"|"`. -/
def bar : Token := [124]

def isBlank (c : UInt8) : Bool := c == 32 || c == 9

/-- `strtok_r` until it returns `NULL`. -/
def tokens (line : List UInt8) : List Token := (line.splitOnP isBlank).filter (!·.isEmpty)

/-- The tokens of what `fgets` has read, without its last byte; none if the line is too long or
empty. -/
def command (input : List UInt8) : Option (List Token) :=
  if 128 < input.length then none
  else if tokens input.dropLast = [] then none
  else some (tokens input.dropLast)

/-- `cd`, `pwd` and `exit`. -/
def builtins : List Token := [[99, 100], [112, 119, 100], [101, 120, 105, 116]]

/-- `strcmp(command[0],..)==0` for one of them. -/
def isBuiltin (ts : List Token) : Bool :=
  match ts with
  | [] => false
  | t :: _ => builtins.contains t

/-! ### The operator scan -/

/-- The inner loop: the tokens up to `&` or `stop`. -/
def fileCount (stop : Token) : List Token → ℕ
  | [] => 0
  | t :: ts => if t = ampersand then 0 else if t = stop then 0 else fileCount stop ts + 1

/-- What the scan leaves in the locals; `none` stands for `-1`. -/
structure Scan where
  reout : Option ℕ
  rein : Option ℕ
  pipepos : Option ℕ
  back : Option ℕ
  outfilenum : ℕ
  infilenum : ℕ
deriving DecidableEq

namespace Scan

def init : Scan := ⟨none, none, none, none, 0, 0⟩

/-- `if(strcmp(command[i],">")==0)`. -/
def seeOut (s : Scan) (i : ℕ) (t : Token) (rest : List Token) : Scan :=
  if t = greater then
    { s with reout := some i, outfilenum := s.outfilenum + fileCount less rest }
  else s

/-- `if(strcmp(command[i],"<")==0)`. -/
def seeIn (s : Scan) (i : ℕ) (t : Token) (rest : List Token) : Scan :=
  if t = less then { s with rein := some i, infilenum := s.infilenum + fileCount greater rest }
  else s

/-- The loop, at the token with number `i`. -/
def run (s : Scan) (i : ℕ) : List Token → Scan
  | [] => s
  | t :: rest =>
    let s := (s.seeOut i t rest).seeIn i t rest
    if t = bar then { s with pipepos := some i }
    else if t = ampersand then { s with back := some i }
    else s.run (i + 1) rest

end Scan

/-! ### What is executed -/

/-- An `open` in the child, with its path; `none` stands for `NULL`. -/
inductive Redirect
  /-- `O_WRONLY|O_CREAT|O_TRUNC`, made the standard output. -/
  | out (path : Option Token)
  /-- `O_RDONLY`, made the standard input. -/
  | inp (path : Option Token)
deriving DecidableEq

namespace Redirect

/-- The operator that asks for it. -/
def operator : Redirect → Token
  | out _ => greater
  | inp _ => less

def path : Redirect → Option Token
  | out path | inp path => path

end Redirect

/-- What the shell does with a line. -/
inductive Outcome
  /-- One of the built-in commands. -/
  | builtin (ts : List Token)
  /-- `linehist--;continue;`. -/
  | ignored
  /-- An error message, and the next prompt. -/
  | refused
  /-- An error message, and `exit(0)` of the shell. -/
  | quits
  /-- A child is forked that opens the files and then calls `execvp` with these arguments. -/
  | executes (argv : List Token) (opens : List Redirect) (background : Bool)
  /-- Two children are forked that call `execvp` with these arguments. -/
  | pipeline (argv₁ argv₂ : List Token)
deriving DecidableEq

/-- The execution of a command that is not built in, from the result of the scan. -/
def execute (ts : List Token) : Outcome :=
  let s := Scan.init.run 0 ts
  let argu := ts.length
  if s.reout = some 0 ∨ s.rein = some 0 then .ignored
  else
    match s.pipepos with
    | some pipepos =>
      if pipepos = 0 ∨ pipepos = argu - 1 then .refused
      else .pipeline (ts.take pipepos) (ts.drop (pipepos + 1))
    | none =>
      match s.reout, s.rein with
      | none, none =>
        -- in the background `command[argu-1]`, whatever it is, becomes `NULL`
        if s.back = none then .executes ts [] false else .executes (ts.take (argu - 1)) [] true
      | none, some rein =>
        if rein = argu - 1 ∨ s.infilenum ≠ 1 then .refused
        else .executes (ts.take (min 100 rein)) [.inp ts[rein + 1]?] s.back.isSome
      | some reout, none =>
        if reout = argu - 1 ∨ s.outfilenum ≠ 1 then .refused
        else .executes (ts.take reout) [.out ts[reout + 1]?] s.back.isSome
      | some reout, some rein =>
        if reout = argu - 1 ∨ rein = argu - 1 ∨ 1 < s.outfilenum ∨ 1 < s.infilenum then
          if s.back = none then .refused else .quits
        else
          .executes (ts.take (min reout rein)) [.out ts[reout + 1]?, .inp ts[rein + 1]?]
            s.back.isSome

/-- One turn of the loop of `main`, for the line that was read. -/
def respond (input : List UInt8) : Outcome :=
  match command input with
  | none => if 128 < input.length then .refused else .ignored
  | some ts => if isBuiltin ts then .builtin ts else execute ts

/-! ### The length of a command -/

/-- The pieces between the blanks: all but the first have a blank in front of them. -/
private theorem splitOnP_bound (line : List UInt8) :
    ∃ piece pieces, line.splitOnP isBlank = piece :: pieces ∧
      2 * (pieces.filter (!·.isEmpty)).length + (if piece.isEmpty then 0 else 1) ≤
        line.length := by
  induction line with
  | nil => exact ⟨[], [], rfl, Nat.le_refl _⟩
  | cons c line ih =>
    obtain ⟨piece, pieces, heq, hle⟩ := ih
    rw [List.splitOnP_cons_eq_if_modifyHead, heq]
    split
    · refine ⟨[], piece :: pieces, rfl, ?_⟩
      cases piece with
      | nil => exact Nat.le_succ_of_le hle
      | cons b piece =>
        have hle : 2 * (pieces.filter (!·.isEmpty)).length + 1 ≤ line.length := hle
        show 2 * ((pieces.filter (!·.isEmpty)).length + 1) + 0 ≤ line.length + 1
        omega
    · refine ⟨c :: piece, pieces, rfl, ?_⟩
      show 2 * (pieces.filter (!·.isEmpty)).length + 1 ≤ line.length + 1
      omega

/-- Tokens are separated by blanks. -/
theorem two_mul_length_tokens_le (line : List UInt8) :
    2 * (tokens line).length ≤ line.length + 1 := by
  obtain ⟨piece, pieces, heq, hle⟩ := splitOnP_bound line
  rw [tokens, heq]
  cases piece with
  | nil => exact Nat.le_succ_of_le hle
  | cons b piece =>
    have hle : 2 * (pieces.filter (!·.isEmpty)).length + 1 ≤ line.length := hle
    show 2 * ((pieces.filter (!·.isEmpty)).length + 1) ≤ line.length + 1
    omega

theorem ne_nil_of_command {input : List UInt8} {ts : List Token}
    (h : command input = some ts) : ts ≠ [] := by
  rw [command] at h
  split at h
  next => cases h
  next =>
    split at h
    next => cases h
    next hne =>
      obtain rfl := Option.some.inj h
      exact hne

/-- The arrays of the shell are large enough. -/
theorem length_le_of_command {input : List UInt8} {ts : List Token}
    (h : command input = some ts) : ts.length ≤ 64 := by
  rw [command] at h
  split at h
  next => cases h
  next hlen =>
    split at h
    next => cases h
    next =>
      obtain rfl := Option.some.inj h
      have hle := two_mul_length_tokens_le input.dropLast
      rw [List.length_dropLast] at hle
      omega

end Mysh
