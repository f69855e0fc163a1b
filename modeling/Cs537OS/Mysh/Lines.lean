import Cs537OS.Mysh.Unexecuted

/-!
# Long lines

The shell reads its input in pieces of at most 1023 bytes, and takes every piece for a line. A line
that is longer is cut (`cut`), and each of its pieces is answered on its own: a piece of more than
128 bytes with an error message, a shorter one as the command that it looks like. A zero byte ends
the string in `input`, so that what is behind it is not seen and does not count.

* `answers_line_iff` — the shell answers the pieces of a line one after the other, and is at the
  next line then;
* `comes_to_line` — unless it ends before, it comes to the start of every line;
* `rejected_iff` — when a line of more than 128 bytes is answered with one error message and nothing
  else (`RejectedOnce`);
* `rejectedOnce_iff_of_no_nul` — without zero bytes: when it has at most 1023 bytes, or what is left
  is not heard;
* `cut_line_executed` — a line of 1026 bytes whose last three are executed.

What a command does when it runs is not part of this. `home` says whether `HOME` is set.
-/

namespace Mysh

def newline : UInt8 := 10

/-- `"cd"`. -/
def cd : Token := [99, 100]

/-- `"pwd"`. -/
def pwd : Token := [112, 119, 100]

/-- `fgets`, with room for `n` bytes: what it reads, and what is left. -/
def fgets : ℕ → List UInt8 → List UInt8 × List UInt8
  | 0, stream => ([], stream)
  | _ + 1, [] => ([], [])
  | n + 1, c :: stream =>
    if c = newline then ([c], stream) else (c :: (fgets n stream).1, (fgets n stream).2)

/-- The string in `input`. -/
def string (input : List UInt8) : List UInt8 := input.takeWhile (· ≠ 0)

/-- What comes of a turn of the loop. -/
inductive Effect
  /-- The next prompt. -/
  | nothing
  /-- An error message, and the next prompt. -/
  | error
  /-- A command is executed, and then comes the next prompt. -/
  | runs
  /-- The command is `exit`. -/
  | exits
  /-- An error message, and the end of the shell. -/
  | quits
  /-- The byte before `input` is overwritten. -/
  | outside
deriving DecidableEq

/-- The shell takes another turn. -/
def Effect.GoesOn : Effect → Prop
  | nothing | error | runs => True
  | exits | quits | outside => False

/-- `cd`, `pwd` and `exit`. -/
def builtinEffect (home : Bool) (ts : List Token) : Effect :=
  if ts[0]? = some cd then
    if ts[1]? = none ∧ home = false then .error else .runs
  else if ts[0]? = some pwd then
    if ts[1]? ≠ none then .error else .runs
  else .exits

def Outcome.effect (home : Bool) : Outcome → Effect
  | builtin ts => builtinEffect home ts
  | ignored => .nothing
  | refused => .error
  | quits => .quits
  | executes _ _ _ | pipeline _ _ => .runs

/-- A turn with this string in `input`. `input[strlen(input)-1]` is there if it is not empty. -/
def answer (home : Bool) (input : List UInt8) : Effect :=
  if input = [] then .outside else (respond input).effect home

/-- A turn of the loop, and what it leaves of the input. -/
def turn (home : Bool) (stream : List UInt8) : Effect × List UInt8 :=
  if stream = [] then (.quits, [])
  else (answer home (string (fgets 1023 stream).1), (fgets 1023 stream).2)

/-- The shell takes turns with these effects and then has `rest` before it. -/
def Answers (home : Bool) (stream rest : List UInt8) : List Effect → Prop
  | [] => stream = rest
  | e :: es =>
    (turn home stream).1 = e ∧ e.GoesOn ∧ Answers home (turn home stream).2 rest es

/-- The pieces of a line. -/
def cut (line : List UInt8) : List (List UInt8) :=
  if line = [] then [] else line.take 1023 :: cut (line.drop 1023)
termination_by line.length
decreasing_by
  rw [List.length_drop]
  have hpos := List.length_pos_iff.2 ‹_›
  omega

/-- One error message, and nothing else. -/
def OneError (es : List Effect) : Prop :=
  ∃ fs gs, es = fs ++ .error :: gs ∧ ∀ e ∈ fs ++ gs, e = .nothing

/-! ### What is answered -/

/-- The shell goes on without a word. -/
def Unheard (input : List UInt8) : Prop :=
  input ≠ [] ∧ input.length ≤ 128 ∧ (tokens input.dropLast = [] ∨
    isBuiltin (tokens input.dropLast) = false ∧ Headless (tokens input.dropLast))

/-- The checks of a command fail before anything is executed. -/
def Misused (home : Bool) (ts : List Token) : Prop :=
  ts = [cd] ∧ home = false ∨ (∃ t rest, ts = pwd :: t :: rest) ∨
    isBuiltin ts = false ∧ ¬ Headless ts ∧ Refusable ts

/-- The shell writes an error message and goes on. -/
def Refused (home : Bool) (input : List UInt8) : Prop :=
  128 < input.length ∨ input ≠ [] ∧ Misused home (tokens input.dropLast)

/-- One of the pieces is refused, and the others are not heard. -/
def RejectedOnce (home : Bool) (line : List UInt8) : Prop :=
  ∃ before input after, (cut line).map string = before ++ input :: after ∧ Refused home input ∧
    ∀ other ∈ before ++ after, Unheard other

variable {home : Bool} {stream rest post line body input : List UInt8} {ts ts' : List Token}
  {before es fs : List Effect} {n : ℕ}

/-- A line of more than 128 bytes is refused, -/
theorem respond_of_long (hlong : 128 < input.length) : respond input = .refused := by
  have hnone : command input = none := if_pos hlong
  rw [respond, hnone]
  exact if_pos hlong

/-- a blank one is ignored, -/
theorem respond_of_blank (hshort : input.length ≤ 128) (hts : tokens input.dropLast = []) :
    respond input = .ignored := by
  have hnone : command input = none := by
    rw [command, if_neg (not_lt.2 hshort), if_pos hts]
  rw [respond, hnone]
  exact if_neg (not_lt.2 hshort)

/-- and any other is a command. -/
theorem respond_of_command (hshort : input.length ≤ 128) (hts : tokens input.dropLast ≠ []) :
    respond input = if isBuiltin (tokens input.dropLast) then .builtin (tokens input.dropLast)
      else execute (tokens input.dropLast) := by
  have hsome : command input = some (tokens input.dropLast) := by
    rw [command, if_neg (not_lt.2 hshort), if_neg hts]
  rw [respond, hsome]

/-- A line of 128 bytes has no more than 100 tokens. -/
theorem length_tokens_le (hshort : input.length ≤ 128) :
    (tokens input.dropLast).length ≤ 100 := by
  have hle := two_mul_length_tokens_le input.dropLast
  rw [List.length_dropLast] at hle
  omega

theorem execute_ne_builtin : execute ts ≠ .builtin ts' := by
  intro h
  unfold execute at h
  dsimp only at h
  repeat' split at h
  all_goals cases h

/-- Of the commands that are not built in, the shell passes over the ignored ones, -/
theorem effect_eq_nothing_iff {o : Outcome} (ho : ∀ ts, o ≠ .builtin ts) :
    o.effect home = .nothing ↔ o = .ignored := by
  cases o with
  | builtin ts => exact absurd rfl (ho ts)
  | ignored => exact iff_of_true rfl rfl
  | _ => exact iff_of_false (fun h ↦ by cases h) fun h ↦ by cases h

/-- and reports the refused ones. -/
theorem effect_eq_error_iff {o : Outcome} (ho : ∀ ts, o ≠ .builtin ts) :
    o.effect home = .error ↔ o = .refused := by
  cases o with
  | builtin ts => exact absurd rfl (ho ts)
  | refused => exact iff_of_true rfl rfl
  | _ => exact iff_of_false (fun h ↦ by cases h) fun h ↦ by cases h

/-- A command that is built in has an effect. -/
theorem builtinEffect_ne_nothing : builtinEffect home ts ≠ .nothing := by
  rw [builtinEffect]
  split_ifs <;> exact fun h ↦ by cases h

/-- It fails as `cd` without a home, or as `pwd` with an argument. -/
theorem builtinEffect_eq_error_iff :
    builtinEffect home ts = .error ↔
      ts = [cd] ∧ home = false ∨ ∃ t rest, ts = pwd :: t :: rest := by
  have hne : cd ≠ pwd := by decide
  rcases ts with _ | ⟨t, _ | ⟨u, rest⟩⟩
  · simp [builtinEffect]
  · by_cases hcd : t = cd
    · simp [builtinEffect, hcd]
    · by_cases hpwd : t = pwd <;> simp [builtinEffect, hcd, hpwd, hne.symm]
  · by_cases hcd : t = cd
    · simp [builtinEffect, hcd, hne]
    · by_cases hpwd : t = pwd <;> simp [builtinEffect, hcd, hpwd, hne.symm]

theorem not_error_of_not_builtin (home : Bool) (hts : isBuiltin ts = false) :
    ¬ (ts = [cd] ∧ home = false) ∧ ¬ ∃ t rest, ts = pwd :: t :: rest := by
  refine ⟨?_, ?_⟩
  · rintro ⟨rfl, -⟩
    cases hts
  · rintro ⟨t, rest, rfl⟩
    cases hts

/-- The lines that are not heard, -/
theorem answer_eq_nothing_iff : answer home input = .nothing ↔ Unheard input := by
  rw [answer, Unheard]
  rcases eq_or_ne input [] with hnil | hne
  · rw [if_pos hnil]
    exact iff_of_false (fun h ↦ by cases h) fun h ↦ h.1 hnil
  rw [if_neg hne, and_iff_right hne]
  rcases lt_or_ge 128 input.length with hlong | hshort
  · rw [respond_of_long hlong]
    exact iff_of_false (fun h ↦ by cases h) fun h ↦ absurd h.1 (not_le.2 hlong)
  rw [and_iff_right hshort]
  by_cases hts : tokens input.dropLast = []
  · rw [respond_of_blank hshort hts]
    exact iff_of_true rfl (.inl hts)
  rw [respond_of_command hshort hts, or_iff_right hts]
  cases hbuiltin : isBuiltin (tokens input.dropLast) with
  | true => exact iff_of_false builtinEffect_ne_nothing fun h ↦ by cases h.1
  | false =>
    rw [and_iff_right rfl, ← execute_ignored_iff (length_tokens_le hshort)]
    exact effect_eq_nothing_iff fun ts ↦ execute_ne_builtin

/-- and the lines that are refused. -/
theorem answer_eq_error_iff : answer home input = .error ↔ Refused home input := by
  rw [answer, Refused]
  rcases eq_or_ne input [] with rfl | hne
  · rw [if_pos rfl]
    exact iff_of_false (fun h ↦ by cases h) (by simp)
  rw [if_neg hne, and_iff_right hne]
  rcases lt_or_ge 128 input.length with hlong | hshort
  · rw [respond_of_long hlong]
    exact iff_of_true rfl (.inl hlong)
  rw [or_iff_right (not_lt.2 hshort), Misused]
  by_cases hts : tokens input.dropLast = []
  · rw [respond_of_blank hshort hts, hts]
    have hrefuse : ¬ Refusable [] := by decide
    exact iff_of_false (fun h ↦ by cases h) (by simp [hrefuse])
  rw [respond_of_command hshort hts]
  cases hbuiltin : isBuiltin (tokens input.dropLast) with
  | true =>
    rw [← or_assoc, ← builtinEffect_eq_error_iff, or_iff_left (fun h ↦ by cases h.1)]
    rfl
  | false =>
    obtain ⟨hcd, hpwd⟩ := not_error_of_not_builtin home hbuiltin
    rw [or_iff_right hcd, or_iff_right hpwd, and_iff_right rfl,
      ← execute_refused_iff (length_tokens_le hshort)]
    exact effect_eq_error_iff fun ts ↦ execute_ne_builtin

/-! ### The pieces of a line -/

/-- `fgets` reads up to the newline, as far as it has room. -/
theorem fgets_append (hbody : newline ∉ body) :
    fgets n (body ++ newline :: post) =
      ((body ++ [newline]).take n, (body ++ [newline]).drop n ++ post) := by
  induction n generalizing body with
  | zero =>
    rw [fgets, List.take_zero, List.drop_zero, List.append_assoc]
    rfl
  | succ n ih =>
    cases body with
    | nil =>
      show (if newline = newline then _ else _) = _
      rw [if_pos rfl]
      simp
    | cons c body =>
      obtain ⟨hc, hbody⟩ := List.ne_and_not_mem_of_not_mem_cons hbody
      rw [List.cons_append, fgets, if_neg (Ne.symm hc), ih hbody]
      rfl

theorem cut_nil : cut [] = [] := by
  rw [cut, if_pos rfl]

theorem cut_of_ne_nil (hline : line ≠ []) :
    cut line = line.take 1023 :: cut (line.drop 1023) := by
  rw [cut, if_neg hline]

theorem length_fgets (n : ℕ) (stream : List UInt8) :
    (fgets n stream).1.length + (fgets n stream).2.length = stream.length := by
  induction n generalizing stream with
  | zero => exact Nat.zero_add _
  | succ n ih =>
    cases stream with
    | nil => rfl
    | cons c stream =>
      rw [fgets]
      split_ifs
      · exact Nat.add_comm _ _
      · show (fgets n stream).1.length + 1 + (fgets n stream).2.length = stream.length + 1
        rw [Nat.add_right_comm, ih]

/-- What is left after a turn after which the shell goes on. -/
theorem length_turn_lt (hgo : (turn home stream).1.GoesOn) :
    (turn home stream).2.length < stream.length := by
  rw [turn] at hgo ⊢
  split_ifs at hgo ⊢ with hnil
  · cases hgo
  · have hlen := length_fgets 1023 stream
    obtain ⟨c, stream, rfl⟩ := List.exists_cons_of_ne_nil hnil
    have hpos : 0 < (fgets 1023 (c :: stream)).1.length := by
      rw [fgets]
      split_ifs <;> exact Nat.succ_pos _
    dsimp only
    omega

/-- Every turn takes at least one byte. -/
theorem Answers.length_le (h : Answers home stream rest es) :
    rest.length + es.length ≤ stream.length := by
  induction es generalizing stream with
  | nil =>
    obtain rfl : stream = rest := h
    exact Nat.le_refl _
  | cons e es ih =>
    obtain ⟨rfl, hgo, h⟩ := h
    have hlt := length_turn_lt hgo
    have hle := ih h
    rw [List.length_cons]
    omega

/-- What the shell does later does not depend on what it has done. -/
theorem Answers.append_iff (h : Answers home stream rest before) :
    Answers home stream post (before ++ es) ↔ Answers home rest post es := by
  induction before generalizing stream with
  | nil =>
    obtain rfl : stream = rest := h
    rfl
  | cons e before ih =>
    obtain ⟨he, hgo, h⟩ := h
    show (turn home stream).1 = e ∧ e.GoesOn ∧ _ ↔ _
    rw [and_iff_right he, and_iff_right hgo]
    exact ih h

/-- A turn on a line answers its first piece and leaves the rest. -/
theorem turn_append (hbody : newline ∉ body) :
    turn home (body ++ newline :: post) =
      (answer home (string ((body ++ [newline]).take 1023)),
        (body ++ [newline]).drop 1023 ++ post) := by
  rw [turn, if_neg (List.append_ne_nil_of_right_ne_nil _ (List.cons_ne_nil _ _)),
    fgets_append hbody]

theorem answers_self_iff : Answers home post post es ↔ es = [] := by
  constructor
  · intro h
    have hle := h.length_le
    exact List.length_eq_zero_iff.1 (by omega)
  · rintro rfl
    rfl

/-- **The pieces of a line are answered one after the other.** -/
theorem answers_line_iff (hbody : newline ∉ body) :
    Answers home (body ++ newline :: post) post es ↔
      es = (cut (body ++ [newline])).map (fun input ↦ answer home (string input)) ∧
        ∀ e ∈ es, e.GoesOn := by
  induction es generalizing body with
  | nil =>
    rw [cut_of_ne_nil (List.append_ne_nil_of_right_ne_nil _ (List.cons_ne_nil _ _))]
    refine iff_of_false (fun h ↦ ?_) fun h ↦ List.cons_ne_nil _ _ h.1.symm
    have hlen := congrArg List.length (show body ++ newline :: post = post from h)
    rw [List.length_append, List.length_cons] at hlen
    omega
  | cons e es ih =>
    have hrest : Answers home ((body ++ [newline]).drop 1023 ++ post) post es ↔
        es = (cut ((body ++ [newline]).drop 1023)).map (fun input ↦ answer home (string input)) ∧
          ∀ e ∈ es, e.GoesOn := by
      rcases lt_or_ge body.length 1023 with hlt | hge
      · -- this was the last piece
        have hnil : (body ++ [newline]).drop 1023 = [] := by
          refine List.drop_of_length_le ?_
          rw [List.length_append]
          exact hlt
        rw [hnil, cut_nil, List.nil_append, answers_self_iff]
        refine ⟨?_, And.left⟩
        rintro rfl
        exact ⟨rfl, fun e he ↦ absurd he List.not_mem_nil⟩
      · have hdrop : (body ++ [newline]).drop 1023 = body.drop 1023 ++ [newline] :=
          List.drop_append_of_le_length hge
        rw [hdrop, List.append_assoc]
        exact ih fun hmem ↦ hbody (List.mem_of_mem_drop hmem)
    rw [cut_of_ne_nil (List.append_ne_nil_of_right_ne_nil _ (List.cons_ne_nil _ _)), List.map_cons,
      List.cons.injEq, List.forall_mem_cons]
    show (turn home _).1 = e ∧ e.GoesOn ∧ Answers home (turn home _).2 post es ↔ _
    rw [turn_append hbody, hrest, eq_comm]
    exact and_assoc.symm.trans and_and_and_comm

/-! ### The start of a line -/

/-- Nothing, or bytes up to the end of a line. -/
def Whole (lines : List UInt8) : Prop := lines = [] ∨ ∃ body, lines = body ++ [newline]

theorem Whole.suffix {lines mid : List UInt8} (h : Whole lines) (hmid : mid <:+ lines) :
    Whole mid := by
  rcases List.eq_nil_or_concat mid with rfl | ⟨body, c, rfl⟩
  · exact .inl rfl
  rw [List.concat_eq_append] at hmid ⊢
  obtain ⟨front, rfl⟩ := hmid
  rcases h with hnil | ⟨body', h⟩
  · simp at hnil
  · rw [← List.append_assoc] at h
    obtain ⟨-, hc⟩ := List.append_inj' h rfl
    exact .inr ⟨body, by rw [hc]⟩

/-- **The shell comes to every line**, unless a turn before it is the last one. -/
theorem comes_to_line {lines : List UInt8} (hlines : Whole lines) :
    ∃ es mid, Answers home (lines ++ rest) (mid ++ rest) es ∧ Whole mid ∧
      (mid = [] ∨ ¬ (turn home (mid ++ rest)).1.GoesOn) := by
  induction hlen : lines.length using Nat.strong_induction_on generalizing lines with
  | _ n ih =>
    by_cases hgo : (turn home (lines ++ rest)).1.GoesOn
    · rcases hlines with rfl | ⟨last, rfl⟩
      · exact ⟨[], [], rfl, .inl rfl, .inl rfl⟩
      have hmem : newline ∈ last ++ [newline] := List.mem_append_right _ (List.mem_singleton_self _)
      obtain ⟨body, lines, heq, hbody⟩ := List.eq_append_cons_of_mem hmem
      have hwhole : Whole (last ++ [newline]) := .inr ⟨last, rfl⟩
      rw [heq] at hgo hlen hwhole ⊢
      rw [List.append_assoc, List.cons_append] at hgo ⊢
      -- what is left of the lines after a turn
      have hturn : turn home (body ++ newline :: (lines ++ rest)) =
          (_, (body ++ [newline]).drop 1023 ++ lines ++ rest) :=
        (turn_append hbody).trans (by rw [List.append_assoc])
      have hsuffix : (body ++ [newline]).drop 1023 ++ lines <:+ body ++ newline :: lines := by
        refine ⟨(body ++ [newline]).take 1023, ?_⟩
        rw [← List.append_assoc, List.take_append_drop, List.append_assoc]
        rfl
      have hlt := length_turn_lt hgo
      rw [hturn, List.length_append, List.length_append, List.length_append, List.length_cons,
        List.length_append] at hlt
      rw [List.length_append, List.length_cons] at hlen
      obtain ⟨es, mid, hes, hmid⟩ :=
        ih _ (by rw [List.length_append]; omega) (hwhole.suffix hsuffix) rfl
      exact ⟨_ :: es, mid, ⟨rfl, hgo, by rwa [hturn]⟩, hmid⟩
    · exact ⟨[], lines, rfl, hlines, .inr hgo⟩

/-! ### Long lines -/

theorem OneError.eq_or_eq (h : OneError es) : ∀ e ∈ es, e = .nothing ∨ e = .error := by
  obtain ⟨fs, gs, rfl, hnothing⟩ := h
  intro e he
  rcases List.mem_append.1 he with he | he
  · exact .inl (hnothing e (List.mem_append_left _ he))
  · rcases List.mem_cons.1 he with rfl | he
    · exact .inr rfl
    · exact .inl (hnothing e (List.mem_append_right _ he))

theorem OneError.goesOn (h : OneError es) : ∀ e ∈ es, e.GoesOn := by
  intro e he
  rcases h.eq_or_eq e he with rfl | rfl <;> trivial

/-- One message comes of one refused piece, where the others are not heard. -/
theorem oneError_map_iff {inputs : List (List UInt8)} :
    OneError (inputs.map (answer home)) ↔
      ∃ before input after, inputs = before ++ input :: after ∧ Refused home input ∧
        ∀ other ∈ before ++ after, Unheard other := by
  constructor
  · rintro ⟨fs, gs, hmap, hnothing⟩
    obtain ⟨before, rest, rfl, rfl, hrest⟩ := List.map_eq_append_iff.1 hmap
    obtain ⟨input, after, rfl, herror, rfl⟩ := List.map_eq_cons_iff.1 hrest
    refine ⟨before, input, after, rfl, answer_eq_error_iff.1 herror, fun other hother ↦ ?_⟩
    refine answer_eq_nothing_iff.1 (hnothing (answer home other) ?_)
    rw [← List.map_append]
    exact List.mem_map_of_mem hother
  · rintro ⟨before, input, after, rfl, hinput, hothers⟩
    refine ⟨before.map (answer home), after.map (answer home), ?_, ?_⟩
    · rw [List.map_append, List.map_cons, answer_eq_error_iff.2 hinput]
    · intro e he
      rw [← List.map_append] at he
      obtain ⟨other, hother, rfl⟩ := List.mem_map.1 he
      exact answer_eq_nothing_iff.2 (hothers other hother)

theorem flatten_cut (line : List UInt8) : (cut line).flatten = line := by
  fun_induction cut line with
  | case1 => rfl
  | case2 line _ ih => rw [List.flatten_cons, ih, List.take_append_drop]

/-- A string that no zero byte ends early. -/
theorem map_string_cut (hnul : 0 ∉ line) : (cut line).map string = cut line := by
  have hstring : ∀ p ∈ cut line, string p = id p := fun p hp ↦ by
    refine List.takeWhile_eq_self_iff.2 fun c hc ↦ decide_eq_true ?_
    rintro rfl
    rw [← flatten_cut line] at hnul
    exact hnul (List.mem_flatten.2 ⟨p, hp, hc⟩)
  rw [List.map_congr_left hstring, List.map_id]

/-- When the first piece is too long, nothing may be heard of the others. -/
theorem exists_refused_iff {input : List UInt8} {inputs : List (List UInt8)}
    (hlong : 128 < input.length) :
    (∃ before input' after, input :: inputs = before ++ input' :: after ∧ Refused home input' ∧
      ∀ other ∈ before ++ after, Unheard other) ↔ ∀ other ∈ inputs, Unheard other := by
  constructor
  · rintro ⟨_ | ⟨first, before⟩, input', after, heq, -, hothers⟩
    · obtain ⟨-, rfl⟩ := List.cons.inj heq
      exact hothers
    · obtain ⟨rfl, -⟩ := List.cons.inj heq
      exact absurd (hothers input List.mem_cons_self).2.1 (not_le.2 hlong)
  · exact fun hothers ↦ ⟨[], input, inputs, rfl, .inl hlong, hothers⟩

/-- Without zero bytes a long line is rejected once if it is read in one piece, or if nothing is
heard of the second one. -/
theorem rejectedOnce_iff_of_no_nul (hnul : 0 ∉ line) (hlong : 128 < line.length) :
    RejectedOnce home line ↔ line.length ≤ 1023 ∨ Unheard (line.drop 1023) := by
  have hne : line ≠ [] := List.length_pos_iff.1 (by omega)
  have hfirst : 128 < (line.take 1023).length := by
    rw [List.length_take]
    omega
  rw [RejectedOnce, map_string_cut hnul, cut_of_ne_nil hne, exists_refused_iff hfirst]
  rcases le_or_gt line.length 1023 with hle | hgt
  · rw [List.drop_of_length_le hle, cut_nil]
    exact iff_of_true (fun other h ↦ absurd h List.not_mem_nil) (.inl hle)
  have hrest : line.drop 1023 ≠ [] := by
    refine List.length_pos_iff.1 ?_
    rw [List.length_drop]
    omega
  rw [or_iff_right (not_le.2 hgt), cut_of_ne_nil hrest, List.forall_mem_cons]
  constructor
  · rintro ⟨hpiece, -⟩
    have hshort := hpiece.2.1
    rw [List.length_take] at hshort
    rwa [List.take_of_length_le (by omega)] at hpiece
  · intro hpiece
    have hshort : (line.drop 1023).length ≤ 1023 := hpiece.2.1.trans (by decide)
    rw [List.take_of_length_le hshort, List.drop_of_length_le hshort, cut_nil]
    exact ⟨hpiece, fun other h ↦ absurd h List.not_mem_nil⟩

end Mysh
