import Cs537OS.Shuffle.Alternation

/-!
# The blocks of shuffle

`shuffle` reads beyond the end of its blocks unless they hold certain bytes: `strlen` needs a zero
byte in the file, a turn needs a newline, and a line needs a zero byte behind it in `change`.

* `shuffle_inside_iff` — what a file has to look like so that every access is inside (`Inside`);
* `shuffle_outside` — a file of one line with a newline, where `strlen` leaves `readtotal`.

The cursor `j` may stand before the end of the text (`lastIndex`), so only the bytes up to `j` are
lines that must fit. When there is no newline among them the first line alone is written.
-/

namespace Shuffle

/-- The bytes up to the cursor `j`. -/
def seen (text : List UInt8) : List UInt8 := text.take (lastIndex text.length + 1).toNat

/-- The lines of the file that `shuffle` copies fit into `change`. -/
def LinesFit (change text rest : List UInt8) : Prop :=
  if newline ∈ seen text then
    ∀ l ∈ pieces (seen text), Fits change l
  else
    seen text = [] ∨ ∃ body after, text ++ 0 :: rest = body ++ newline :: after ∧
      newline ∉ body ∧ Fits change (body ++ [newline])

/-- The file has a zero byte, and its lines up to the cursor `j` fit into `change`. -/
def Inside (readtotal change : List UInt8) : Prop :=
  ∃ text rest, readtotal = text ++ 0 :: rest ∧ 0 ∉ text ∧ LinesFit change text rest

/-! ### The first turn -/

variable {readtotal after change l body text rest : List UInt8} {s : State}

/-- A string that is ended in the buffer is written inside of it. -/
theorem fwrite_of_nul (hmem : 0 ∈ change) : fwrite change ≠ .error .outside := by
  obtain ⟨line, rest, rfl, hline⟩ := List.eq_append_cons_of_mem hmem
  rw [fwrite, strlen, scan_append hline]
  show (if _ then _ else _) ≠ _
  split_ifs <;> exact fun h ↦ by cases h

/-- A turn stays inside its blocks when the line fits. -/
theorem copyLine_inside_iff : copyLine s l ≠ .error .outside ↔ Fits s.change l := by
  rw [copyLine]
  split_ifs with hle
  · refine ⟨fun h ↦ ?_, fun hfits ↦ fwrite_of_nul hfits.2⟩
    by_contra hfits
    exact h (fwrite_of_not_fits hle hfits)
  · exact iff_of_false (fun h ↦ h rfl) fun hfits ↦ hle hfits.1

/-- What has been written before does not matter for the accesses. -/
theorem bind_ok_inside_iff {r : Except Stop (List UInt8 × List UInt8)} {output : List UInt8} :
    (r.bind fun r ↦ .ok (output ++ r.1)) ≠ Except.error Stop.outside ↔
      r ≠ .error .outside := by
  cases r with
  | error e => exact not_congr ⟨fun h ↦ by rw [Except.error.inj h], fun h ↦ by rw [h]; rfl⟩
  | ok r => exact iff_of_true (fun h ↦ by cases h) fun h ↦ by cases h

/-- Without a newline the first turn leaves the file. -/
theorem loop_of_no_newline (hnewline : newline ∉ readtotal) (hi : s.i = 0) (hj : 0 ≤ s.j)
    (hturn : s.turn = .front) : loop readtotal s = .error .outside := by
  rw [loop, if_pos (by omega), hturn]
  dsimp only
  rw [hi, List.drop_zero, scan_of_not_mem hnewline]
  rfl

/-! ### The cursor at the start -/

/-- The cursor `j` does not start behind the text. -/
theorem lastIndex_lt_length (n : ℕ) : lastIndex n + 1 ≤ n := by
  rcases le_or_gt n (2 ^ 31) with hn | hn
  · rw [lastIndex_eq hn, Int.sub_add_cancel]
  · exact (lastIndex_lt hn).le

theorem length_seen (text : List UInt8) :
    (seen text).length = (lastIndex text.length + 1).toNat := by
  have hle := lastIndex_lt_length text.length
  exact List.length_take_of_le (by omega)

theorem nul_not_mem_seen (htext : 0 ∉ text) : 0 ∉ seen text :=
  fun hmem ↦ htext (List.mem_of_mem_take hmem)

/-- The file is what is before the cursor `j`, and the rest. -/
theorem seen_append (text rest : List UInt8) :
    text ++ rest = seen text ++ (text.drop (lastIndex text.length + 1).toNat ++ rest) := by
  rw [← List.append_assoc, seen, List.take_append_drop]

/-- The first newline of a file lies behind the bytes up to `j` when there is none in them. -/
theorem length_seen_le (hbytes : text ++ 0 :: rest = body ++ newline :: after)
    (hnewline : newline ∉ seen text) : (seen text).length ≤ body.length := by
  by_contra hlt
  have htake : seen text = (body ++ newline :: after).take (seen text).length := by
    rw [← hbytes, seen_append text (0 :: rest), List.take_left]
  refine hnewline ?_
  rw [htake]
  exact newline_mem_take (not_le.1 hlt)

/-- The loop over a text that a zero byte ends. -/
theorem loop_inside_iff (htext : 0 ∉ text) (hi : s.i = 0) (hj : s.j = lastIndex text.length)
    (hturn : s.turn = .front) :
    loop (text ++ 0 :: rest) s ≠ .error .outside ↔ LinesFit s.change text rest := by
  have hlen := length_seen text
  rw [LinesFit]
  split_ifs with hnewline
  · have hpos := List.length_pos_of_mem hnewline
    have hbetween := between_pieces (seen_append text (0 :: rest)) hi (by omega) hturn
      (nul_not_mem_seen htext) hnewline
    refine ⟨fun h ↦ ?_, fun hfits ↦ ?_⟩
    · by_contra hfits
      push Not at hfits
      exact h (hbetween.loop_of_not_fits hfits)
    · obtain ⟨out, hout, -⟩ := hbetween.loop_of_fits hfits
      rw [hout]
      exact fun h ↦ by cases h
  rcases lt_or_ge s.j 0 with hneg | hpos
  · -- the loop is not entered
    have hnil : seen text = [] := List.length_eq_zero_iff.1 (by omega)
    rw [loop, if_neg (by omega)]
    exact iff_of_true (fun h ↦ by cases h) (.inl hnil)
  · have hne : seen text ≠ [] := fun hnil ↦ by
      rw [hnil, List.length_nil] at hlen
      omega
    rw [or_iff_right hne]
    refine ⟨fun h ↦ ?_, ?_⟩
    · by_cases hmem : newline ∈ text ++ 0 :: rest
      · obtain ⟨body, after, hbytes, hbody⟩ := List.eq_append_cons_of_mem hmem
        have hlong := length_seen_le hbytes hnewline
        rw [loop_of_long hbytes hbody hi hpos (by omega) hturn, bind_ok_inside_iff,
          copyLine_inside_iff] at h
        exact ⟨body, after, hbytes, hbody, h⟩
      · exact absurd (loop_of_no_newline hmem hi hpos hturn) h
    · rintro ⟨body, after, hbytes, hbody, hfits⟩
      have hlong := length_seen_le hbytes hnewline
      rw [loop_of_long hbytes hbody hi hpos (by omega) hturn, bind_ok_inside_iff,
        copyLine_inside_iff]
      exact hfits

/-- The program stays inside of its blocks if the lines fit into `change`. -/
theorem shuffle_text_inside_iff (htext : 0 ∉ text) :
    shuffle (text ++ 0 :: rest) change ≠ .error .outside ↔ LinesFit change text rest := by
  rw [shuffle_text htext]
  exact loop_inside_iff htext rfl rfl rfl

/-- **When shuffle stays inside its blocks**, whatever `malloc` has left in `change`. -/
theorem shuffle_inside_iff (readtotal : List UInt8) (change : Fin changeSize → UInt8) :
    shuffle readtotal (List.ofFn change) ≠ .error .outside ↔
      Inside readtotal (List.ofFn change) := by
  refine ⟨fun h ↦ ?_, ?_⟩
  · by_cases hmem : 0 ∈ readtotal
    · obtain ⟨text, rest, rfl, htext⟩ := List.eq_append_cons_of_mem hmem
      exact ⟨text, rest, rfl, htext, (shuffle_text_inside_iff htext).1 h⟩
    · refine absurd ?_ h
      rw [shuffle, strlen, scan_of_not_mem hmem]
      rfl
  · rintro ⟨text, rest, rfl, htext, hfit⟩
    exact (shuffle_text_inside_iff htext).2 hfit

/-- **A file of two bytes.** -/
theorem shuffle_outside : ¬ ∀ (readtotal : List UInt8) (change : Fin changeSize → UInt8),
    shuffle readtotal (List.ofFn change) ≠ .error .outside := by
  intro hall
  refine hall [97, newline] (fun _ ↦ 0) ?_
  rw [shuffle, strlen, scan_of_not_mem (by decide)]
  rfl

end Shuffle
