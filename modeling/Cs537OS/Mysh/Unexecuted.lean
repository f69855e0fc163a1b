import Cs537OS.Mysh.Parse

/-!
# Commands that are not executed

A command with operators may come to nothing in two ways. The shell goes on to the next prompt
without a word when a redirection is the first token (`Headless`), and with an error message when
there is something wrong with the operands (`Refusable`).

* `execute_ignored_iff`, `execute_refused_iff` — there are no others.

The operands are looked at where the scan has been. It ends at the first `|` or `&`, and only the
last operator of each kind counts. A command with both redirections and an `&` is never refused: the
shell quits instead.
-/

namespace Mysh

open Operands

/-- The tokens before the first `|` or `&`. -/
def scanned (ts : List Token) : List Token := (front ts).takeWhile (· ≠ bar)

/-- The last `<` or the last `>` is the first token. -/
def Headless (ts : List Token) : Prop :=
  ∃ op rest, (op = less ∨ op = greater) ∧ scanned ts = op :: rest ∧ op ∉ rest

/-- No command before the `|` or behind it. -/
def HalfPipe (ts : List Token) : Prop :=
  bar ∈ front ts ∧ (scanned ts = [] ∨ ts = scanned ts ++ [bar])

/-- The command ends with the operator. -/
def Dangling (op : Token) (ts : List Token) : Prop := ampersand ∉ ts ∧ ts.getLast? = some op

/-- Redirections of one kind, which do not take one token altogether. -/
def NotOneFile (op other : Token) (ts : List Token) : Prop :=
  op ∈ front ts ∧ other ∉ front ts ∧ (Dangling op ts ∨ operands op other (front ts) ≠ 1)

/-- Redirections of both kinds, which take more than one token each, in the foreground. -/
def NotTwoFiles (ts : List Token) : Prop :=
  less ∈ front ts ∧ greater ∈ front ts ∧ ampersand ∉ ts ∧
    (Dangling greater ts ∨ Dangling less ts ∨ Crowded greater less (front ts) ∨
      Crowded less greater (front ts))

/-- Something is wrong with the operands. -/
def Refusable (ts : List Token) : Prop :=
  HalfPipe ts ∨ bar ∉ front ts ∧
    (NotOneFile less greater ts ∨ NotOneFile greater less ts ∨ NotTwoFiles ts)

variable {ts pre rest : List Token} {op other : Token} {i : ℕ}

/-- The last place of an operator is the first when the operator comes first and not again. -/
theorem lastPlace_eq_zero_iff {l : List Token} :
    lastPlace op l = some 0 ↔ ∃ rest, l = op :: rest ∧ op ∉ rest := by
  rw [lastPlace_eq_some_iff]
  constructor
  · rintro ⟨pre, post, hl, hpost, hlen⟩
    obtain rfl := List.length_eq_zero_iff.1 hlen
    exact ⟨post, hl, hpost⟩
  · rintro ⟨rest, hl, hrest⟩
    exact ⟨[], rest, hl, hrest, rfl⟩

instance : DecidablePred (Dangling op) := fun _ ↦ inferInstanceAs (Decidable (_ ∧ _))

instance {l : List Token} : Decidable (Crowded op other l) := decidable_of_iff' _ crowded_iff

instance : DecidablePred (NotOneFile op other) := fun _ ↦ inferInstanceAs (Decidable (_ ∧ _))

instance : DecidablePred NotTwoFiles := fun _ ↦ inferInstanceAs (Decidable (_ ∧ _))

instance : DecidablePred HalfPipe := fun _ ↦ inferInstanceAs (Decidable (_ ∧ _))

instance : DecidablePred Refusable := fun _ ↦ inferInstanceAs (Decidable (_ ∨ _))

/-- `if(reout==0||rein==0)`. -/
theorem headless_iff :
    Headless ts ↔
      lastPlace greater (scanned ts) = some 0 ∨ lastPlace less (scanned ts) = some 0 := by
  rw [lastPlace_eq_zero_iff, lastPlace_eq_zero_iff]
  constructor
  · rintro ⟨op, rest, rfl | rfl, h⟩
    · exact .inr ⟨rest, h⟩
    · exact .inl ⟨rest, h⟩
  · rintro (⟨rest, h⟩ | ⟨rest, h⟩)
    · exact ⟨greater, rest, .inr rfl, h⟩
    · exact ⟨less, rest, .inl rfl, h⟩

instance : DecidablePred Headless := fun _ ↦ decidable_of_iff' _ headless_iff

/-! ### Pipelines -/

/-- The first `|`. -/
theorem exists_eq_scanned_append (h : bar ∈ front ts) :
    ∃ rest, ts = scanned ts ++ bar :: rest ∧ bar ∉ scanned ts ∧ ampersand ∉ scanned ts := by
  obtain ⟨pre, post, heq, hpre⟩ := List.eq_append_cons_of_mem h
  have hscanned : scanned ts = pre := by
    rw [scanned, heq, List.takeWhile_append_of_pos fun t ht ↦
      decide_eq_true (ne_of_mem_of_not_mem ht hpre)]
    simp
  obtain ⟨tail, htail⟩ := front_isPrefix ts
  refine ⟨post ++ tail, ?_, hscanned ▸ hpre, fun hmem ↦ ?_⟩
  · rw [hscanned, ← List.cons_append, ← List.append_assoc, ← heq, htail]
  · rw [hscanned] at hmem
    exact ampersand_notMem_front (heq ▸ List.mem_append_left _ hmem)

/-- What the shell makes of a command with a `|`. -/
theorem execute_of_bar (hbar : bar ∉ pre) (hamp : ampersand ∉ pre) :
    execute (pre ++ bar :: rest) =
      if lastPlace greater pre = some 0 ∨ lastPlace less pre = some 0 then .ignored
      else if pre = [] ∨ rest = [] then .refused
      else .pipeline pre rest := by
  obtain ⟨outfilenum, infilenum, hrun⟩ := Scan.init.run_bar (i := 0) rest hbar hamp
  have hplace (op : Token) : ((lastPlace op pre).map (0 + ·)).or none = lastPlace op pre := by
    cases lastPlace op pre <;> simp
  have hscan : Scan.init.run 0 (pre ++ bar :: rest) =
      ⟨lastPlace greater pre, lastPlace less pre, some pre.length, none, outfilenum,
        infilenum⟩ := by
    rw [hrun, Nat.zero_add]
    exact congrArg₂ (Scan.mk · · (some pre.length) none outfilenum infilenum) (hplace greater)
      (hplace less)
  have hends : pre.length = 0 ∨ pre.length = (pre ++ bar :: rest).length - 1 ↔
      pre = [] ∨ rest = [] := by
    rw [← List.length_eq_zero_iff (l := pre), ← List.length_eq_zero_iff (l := rest),
      List.length_append, List.length_cons]
    exact or_congr_right (by omega)
  have htake : (pre ++ bar :: rest).take pre.length = pre := List.take_left
  have hdrop : (pre ++ bar :: rest).drop (pre.length + 1) = rest := by simp
  simp only [execute, hscan, hends, htake, hdrop]

/-! ### All commands -/

theorem scanned_eq_front (h : bar ∉ front ts) : scanned ts = front ts := takeWhile_of_notMem h

/-- A headless command, with the operators in either order. -/
theorem Kinds.headless_iff (h : Kinds op other) :
    Headless ts ↔ lastPlace op (scanned ts) = some 0 ∨ lastPlace other (scanned ts) = some 0 := by
  rw [Mysh.headless_iff]
  rcases h with ⟨rfl, rfl⟩ | ⟨rfl, rfl⟩
  · exact or_comm
  · rfl

/-- A refusable command without a `|`, with the operators in either order. -/
theorem Kinds.refusable_iff (h : Kinds op other) (hbar : bar ∉ front ts) :
    Refusable ts ↔ NotOneFile op other ts ∨ NotOneFile other op ts ∨ NotTwoFiles ts := by
  rw [Refusable, or_iff_right fun hhalf ↦ hbar hhalf.1, and_iff_right hbar]
  rcases h with ⟨rfl, rfl⟩ | ⟨rfl, rfl⟩
  · rfl
  · exact or_left_comm

/-- What the shell makes of a command with redirections of one kind. -/
theorem execute_of_one (hkinds : Kinds op other) (hbar : bar ∉ front ts) (hlen : ts.length ≤ 100)
    (hi : lastPlace op (front ts) = some i) (hother : other ∉ front ts) :
    ∃ opens, execute ts = if i = 0 then .ignored
      else if i = ts.length - 1 ∨ operands op other (front ts) ≠ 1 then .refused
      else .executes (ts.take i) opens (decide (ampersand ∈ ts)) := by
  rcases hkinds with ⟨rfl, rfl⟩ | ⟨rfl, rfl⟩
  · exact ⟨_, execute_of_in hbar hlen hi hother⟩
  · exact ⟨_, execute_of_out hbar hother hi⟩

/-- A command that is not run. -/
def Outcome.Idle : Outcome → Prop
  | .ignored | .refused => True
  | _ => False

/-- The shell ignores the headless commands and refuses the refusable ones. -/
def Sorted (ts : List Token) : Prop :=
  ∃ o : Outcome, ¬ o.Idle ∧
    execute ts = if Headless ts then .ignored else if Refusable ts then .refused else o

/-- Commands with a `|`, -/
theorem sorted_of_bar (hbar : bar ∈ front ts) : Sorted ts := by
  obtain ⟨rest, hts, hscanned, hamp⟩ := exists_eq_scanned_append hbar
  have hhalf : scanned ts = [] ∨ rest = [] ↔ Refusable ts := by
    have hone : ¬ (bar ∉ front ts ∧
        (NotOneFile less greater ts ∨ NotOneFile greater less ts ∨ NotTwoFiles ts)) :=
      fun h ↦ h.1 hbar
    rw [Refusable, or_iff_left hone, HalfPipe, and_iff_right hbar]
    refine or_congr_right ⟨fun h ↦ ?_, fun h ↦ ?_⟩
    · rw [h] at hts
      exact hts
    · exact (List.cons.inj (List.append_cancel_left (hts.symm.trans h))).2
  refine ⟨.pipeline (scanned ts) rest, id, ?_⟩
  have hex : execute (scanned ts ++ bar :: rest) = _ := execute_of_bar hscanned hamp
  rw [← hts] at hex
  rw [hex]
  exact if_congr headless_iff.symm rfl (if_congr hhalf rfl rfl)

/-- with redirections of one kind, -/
theorem sorted_of_one (hkinds : Kinds op other) (hbar : bar ∉ front ts) (hlen : ts.length ≤ 100)
    (hop : op ∈ front ts) (hother : other ∉ front ts) : Sorted ts := by
  obtain ⟨i, hi⟩ := exists_lastPlace hop
  obtain ⟨opens, hex⟩ := execute_of_one hkinds hbar hlen hi hother
  have hhead : i = 0 ↔ Headless ts := by
    rw [hkinds.headless_iff, scanned_eq_front hbar, hi, lastPlace_eq_none_iff.2 hother,
      or_iff_left (by simp), Option.some_inj]
  have hfile : i = ts.length - 1 ∨ operands op other (front ts) ≠ 1 ↔ Refusable ts := by
    have hnot : NotOneFile other op ts ∨ NotTwoFiles ts → False := by
      rintro (h | ⟨hless, hgreater, -⟩)
      · exact hother h.1
      · rcases hkinds with ⟨rfl, rfl⟩ | ⟨rfl, rfl⟩
        · exact hother hgreater
        · exact hother hless
    rw [hkinds.refusable_iff hbar, or_iff_left hnot, NotOneFile, and_iff_right hop,
      and_iff_right hother, Dangling, lastPlace_eq_last_iff hi]
  refine ⟨.executes (ts.take i) opens (decide (ampersand ∈ ts)), id, ?_⟩
  rw [hex]
  exact if_congr hhead rfl (if_congr hfile rfl rfl)

/-- with redirections of both kinds, -/
theorem sorted_of_both (hbar : bar ∉ front ts) (hin : less ∈ front ts)
    (hout : greater ∈ front ts) : Sorted ts := by
  obtain ⟨i, hi⟩ := exists_lastPlace hin
  obtain ⟨o, ho⟩ := exists_lastPlace hout
  have hhead : o = 0 ∨ i = 0 ↔ Headless ts := by
    rw [headless_iff, scanned_eq_front hbar, hi, ho, Option.some_inj, Option.some_inj]
  have hfiles : Refusable ts ↔ ampersand ∉ ts ∧ (o = ts.length - 1 ∨ i = ts.length - 1 ∨
      1 < operands greater less (front ts) ∨ 1 < operands less greater (front ts)) := by
    have hkinds : Kinds less greater := .inl ⟨rfl, rfl⟩
    rw [hkinds.refusable_iff hbar, or_iff_right (fun h ↦ h.2.1 hout),
      or_iff_right (fun h ↦ h.2.1 hin), NotTwoFiles, and_iff_right hin, and_iff_right hout,
      Dangling, Dangling, lastPlace_eq_last_iff hi, lastPlace_eq_last_iff ho, crowded_iff,
      crowded_iff]
    rfl
  have hex := execute_of_both hbar hi ho
  by_cases hamp : ampersand ∈ ts
  · -- with an `&` the shell quits
    have hno : ¬ Refusable ts := fun h ↦ (hfiles.1 h).1 hamp
    rw [if_pos hamp] at hex
    refine ⟨_, ?_, hex.trans (if_congr hhead rfl (if_neg hno).symm)⟩
    split_ifs <;> exact id
  · rw [if_neg hamp] at hex
    rw [and_iff_right hamp] at hfiles
    refine ⟨_, ?_, hex.trans (if_congr hhead rfl (if_congr hfiles.symm rfl rfl))⟩
    exact id

/-- and with none. -/
theorem sorted_of_none (hbar : bar ∉ front ts) (hin : less ∉ front ts)
    (hout : greater ∉ front ts) : Sorted ts := by
  have hhead : ¬ Headless ts := by
    rw [headless_iff, scanned_eq_front hbar, lastPlace_eq_none_iff.2 hin,
      lastPlace_eq_none_iff.2 hout]
    simp
  have hno : ¬ Refusable ts := by
    rintro (h | ⟨-, h | h | h⟩)
    · exact hbar h.1
    · exact hin h.1
    · exact hout h.1
    · exact hin h.1
  refine ⟨execute ts, ?_, by rw [if_neg hhead, if_neg hno]⟩
  rw [execute_of_none hbar hin hout]
  split_ifs <;> exact id

/-- **What becomes of a command.** -/
theorem sorted (hlen : ts.length ≤ 100) : Sorted ts := by
  by_cases hbar : bar ∈ front ts
  · exact sorted_of_bar hbar
  by_cases hin : less ∈ front ts <;> by_cases hout : greater ∈ front ts
  · exact sorted_of_both hbar hin hout
  · exact sorted_of_one (.inl ⟨rfl, rfl⟩) hbar hlen hin hout
  · exact sorted_of_one (.inr ⟨rfl, rfl⟩) hbar hlen hout hin
  · exact sorted_of_none hbar hin hout

/-- The shell does nothing for a headless command, and only for one. -/
theorem execute_ignored_iff (hlen : ts.length ≤ 100) : execute ts = .ignored ↔ Headless ts := by
  obtain ⟨o, ho, hex⟩ := sorted hlen
  rw [hex]
  split_ifs with hhead hrefuse
  · exact iff_of_true rfl hhead
  · exact iff_of_false (fun h ↦ by cases h) hhead
  · refine iff_of_false (fun h ↦ ho ?_) hhead
    rw [h]
    trivial

/-- The shell refuses a command when something is wrong with its operands. -/
theorem execute_refused_iff (hlen : ts.length ≤ 100) :
    execute ts = .refused ↔ ¬ Headless ts ∧ Refusable ts := by
  obtain ⟨o, ho, hex⟩ := sorted hlen
  rw [hex]
  split_ifs with hhead hrefuse
  · exact iff_of_false (fun h ↦ by cases h) fun h ↦ h.1 hhead
  · exact iff_of_true rfl ⟨hhead, hrefuse⟩
  · refine iff_of_false (fun h ↦ ho ?_) fun h ↦ hrefuse h.2
    rw [h]
    trivial

end Mysh
