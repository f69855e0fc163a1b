import Cs537OS.Foundation.Operands
import Cs537OS.Mysh.Command

/-!
# What the operator scan finds

The scan looks at the tokens before the first `&` only (`front`). The places it leaves are those of
the last operators there, the counts are numbers of operands (`run_eq`).
-/

namespace Mysh

open Operands

/-- The tokens before the first `&`. -/
def front (ts : List Token) : List Token := ts.takeWhile (· ≠ ampersand)

variable {ts : List Token} {t stop op : Token} {i : ℕ}

theorem front_cons (h : t ≠ ampersand) : front (t :: ts) = t :: front ts := by
  rw [front, List.takeWhile_cons, if_pos (decide_eq_true h), front]

theorem front_cons_ampersand : front (ampersand :: ts) = [] := rfl

/-- Without an `&` the scan sees all tokens. -/
theorem front_eq_self (h : ampersand ∉ ts) : front ts = ts := takeWhile_of_notMem h

theorem ampersand_notMem_front : ampersand ∉ front ts := by
  intro h
  have hne := List.mem_takeWhile_imp h
  exact of_decide_eq_true hne rfl

/-- Behind them comes the `&`, if there is one. -/
theorem exists_eq_front_append (h : ampersand ∈ ts) :
    ∃ rest, ts = front ts ++ ampersand :: rest := by
  induction ts with
  | nil => cases h
  | cons t ts ih =>
    rcases eq_or_ne t ampersand with rfl | hne
    · exact ⟨ts, rfl⟩
    · obtain ⟨rest, heq⟩ := ih ((List.mem_cons.1 h).resolve_left hne.symm)
      refine ⟨rest, ?_⟩
      rw [front_cons hne, List.cons_append, ← heq]

theorem front_isPrefix (ts : List Token) : front ts <+: ts := List.takeWhile_prefix _

theorem notMem_front (h : t ∉ ts) : t ∉ front ts := fun hmem ↦ h ((front_isPrefix ts).subset hmem)

/-- The tokens behind a redirection, up to the other operator or an `&`. -/
theorem fileCount_eq : fileCount stop ts = ((front ts).takeWhile (· ≠ stop)).length := by
  induction ts with
  | nil => rfl
  | cons t ts ih =>
    rw [fileCount]
    rcases eq_or_ne t ampersand with rfl | hne
    · rw [if_pos rfl, front_cons_ampersand]
      rfl
    · rw [if_neg hne, front_cons hne, List.takeWhile_cons]
      rcases eq_or_ne t stop with rfl | hstop
      · rw [if_pos rfl, if_neg (by simp)]
        rfl
      · rw [if_neg hstop, if_pos (decide_eq_true hstop), ih, List.length_cons]

/-- What the scan makes of one token. -/
theorem Scan.see_eq (s : Scan) (rest : List Token) :
    (s.seeOut i t rest).seeIn i t rest =
      { s with
        reout := if t = greater then some i else s.reout
        rein := if t = less then some i else s.rein
        outfilenum := s.outfilenum + if t = greater then fileCount less rest else 0
        infilenum := s.infilenum + if t = less then fileCount greater rest else 0 } := by
  have hne : greater ≠ less := by decide
  rcases eq_or_ne t greater with rfl | hout
  · simp [seeOut, seeIn, hne]
  · rcases eq_or_ne t less with rfl | hin
    · simp [seeOut, seeIn, hne.symm]
    · simp [seeOut, seeIn, hout, hin]

/-- **The scan**, when it does not come to a `|`. -/
theorem Scan.run_eq (s : Scan) (h : bar ∉ front ts) :
    s.run i ts =
      { reout := ((lastPlace greater (front ts)).map (i + ·)).or s.reout
        rein := ((lastPlace less (front ts)).map (i + ·)).or s.rein
        pipepos := s.pipepos
        back := if ampersand ∈ ts then some (i + (front ts).length) else s.back
        outfilenum := s.outfilenum + operands greater less (front ts)
        infilenum := s.infilenum + operands less greater (front ts) } := by
  induction ts generalizing s i with
  | nil => simp [Scan.run, front, lastPlace, operands]
  | cons t ts ih =>
    rcases eq_or_ne t ampersand with rfl | hne
    · rw [Scan.run, if_neg (by decide), if_pos rfl, front_cons_ampersand]
      simp [Scan.see_eq, lastPlace, operands, show ampersand ≠ greater by decide,
        show ampersand ≠ less by decide]
    · rw [front_cons hne, List.mem_cons, not_or] at h
      rw [Scan.run, if_neg (Ne.symm h.1), if_neg hne, ih _ h.2, front_cons hne, Scan.see_eq,
        lastPlace_cons_or, lastPlace_cons_or, fileCount_eq, fileCount_eq, operands, operands,
        List.length_cons]
      simp only [List.mem_cons, hne.symm, false_or, Nat.add_assoc, Nat.add_comm 1]

/-- The scan that stops at a `|`. -/
theorem Scan.run_bar (s : Scan) {pre : List Token} (rest : List Token) (hbar : bar ∉ pre)
    (hamp : ampersand ∉ pre) :
    ∃ outfilenum infilenum, s.run i (pre ++ bar :: rest) =
      { reout := ((lastPlace greater pre).map (i + ·)).or s.reout
        rein := ((lastPlace less pre).map (i + ·)).or s.rein
        pipepos := some (i + pre.length)
        back := s.back
        outfilenum, infilenum } := by
  induction pre generalizing s i with
  | nil =>
    refine ⟨s.outfilenum, s.infilenum, ?_⟩
    rw [List.nil_append, Scan.run, if_pos rfl, Scan.see_eq]
    simp [lastPlace, show bar ≠ greater by decide, show bar ≠ less by decide]
  | cons t pre ih =>
    rw [List.mem_cons, not_or] at hbar hamp
    obtain ⟨outfilenum, infilenum, hrun⟩ :=
      ih (i := i + 1) ((s.seeOut i t (pre ++ bar :: rest)).seeIn i t (pre ++ bar :: rest))
        hbar.2 hamp.2
    refine ⟨outfilenum, infilenum, ?_⟩
    rw [List.cons_append, Scan.run, if_neg (Ne.symm hbar.1), if_neg (Ne.symm hamp.1), hrun,
      Scan.see_eq, lastPlace_cons_or, lastPlace_cons_or, List.length_cons]
    simp only [Nat.add_assoc, Nat.add_comm 1]

end Mysh
