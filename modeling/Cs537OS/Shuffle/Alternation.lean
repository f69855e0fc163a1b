import Cs537OS.Shuffle.Lines

/-!
# What shuffle writes

The reference of the tests goes through the list of lines with two indices that it swaps after each
line. `reference_eq` says that it takes the lines from the front and from the back by turns, which
is `List.alternate`.

* `shuffle_eq_reference_iff` — on a file of short lines, with a zero byte behind the file and a
  buffer of zeros, `shuffle` writes the lines in this order if and only if the file has no more than
  2 ^ 31 bytes;
* `shuffle_large_file` — beyond this the length of the file does not fit into an `int`: of 4202513
  lines of 511 bytes nothing is written.
-/

namespace Shuffle

/-! ### The reference -/

/-- The loop of the reference. -/
def referenceLoop {α : Type*} (lines : List α) (i j : ℕ) : List α :=
  lines[i]?.toList ++
    if i = j then []
    else if i < j then referenceLoop lines j (i + 1)
    else referenceLoop lines j (i - 1)
termination_by (i - j) + (j - i)

/-- The shuffle of the tests. -/
def reference {α : Type*} (lines : List α) : List α :=
  if lines.length = 0 then [] else referenceLoop lines 0 (lines.length - 1)

variable {α : Type*} {lines : List α}

/-- The lines from index `i` on, `n` of them and one. -/
def segment (lines : List α) (i n : ℕ) : List α := (lines.drop i).take (n + 1)

theorem segment_zero {i : ℕ} (hi : i < lines.length) : segment lines i 0 = [lines[i]] := by
  rw [segment, List.take_one, List.head?_drop, List.getElem?_eq_getElem hi]
  rfl

theorem segment_succ {i n : ℕ} (hi : i < lines.length) :
    segment lines i (n + 1) = lines[i] :: segment lines (i + 1) n := by
  rw [segment, List.drop_eq_getElem_cons hi, List.take_succ_cons, segment]

theorem segment_succ' {i n : ℕ} (hi : i + (n + 1) < lines.length) :
    segment lines i (n + 1) = segment lines i n ++ [lines[i + (n + 1)]] := by
  have hlt : n + 1 < (lines.drop i).length := by
    rw [List.length_drop]
    omega
  rw [segment, segment, List.take_succ_eq_append_getElem hlt, List.getElem_drop]

/-- The loop of the reference takes a segment of the lines by turns, with the turn at the index that
comes first. -/
theorem referenceLoop_eq (n : ℕ) : ∀ i, i + n < lines.length →
    referenceLoop lines i (i + n) = (segment lines i n).alternate ∧
      referenceLoop lines (i + n) i = (segment lines i n).reverse.alternate := by
  induction n with
  | zero =>
    intro i hi
    change i < lines.length at hi
    have hone : referenceLoop lines i i = (segment lines i 0).alternate := by
      rw [referenceLoop, if_pos rfl, segment_zero hi, List.getElem?_eq_getElem hi,
        List.alternate_cons, List.reverse_nil, List.alternate_nil]
      rfl
    refine ⟨hone, ?_⟩
    show referenceLoop lines i i = _
    rw [hone, segment_zero hi, List.reverse_singleton]
  | succ n ih =>
    intro i hi
    constructor
    · -- the front line, then the turn at the back
      have hback := (ih (i + 1) (by omega)).2
      have hlt : i < lines.length := by omega
      rw [referenceLoop, if_neg (by omega), if_pos (by omega), List.getElem?_eq_getElem hlt,
        segment_succ hlt, List.alternate_cons, ← hback, show i + 1 + n = i + (n + 1) by omega]
      rfl
    · have hfront := (ih i (by omega)).1
      rw [referenceLoop, if_neg (by omega), if_neg (by omega), List.getElem?_eq_getElem hi,
        segment_succ' hi, List.alternate_concat_reverse, ← hfront]
      rfl

/-- **The reference takes the lines from both ends by turns.** -/
theorem reference_eq (lines : List α) : reference lines = lines.alternate := by
  rw [reference]
  split_ifs with hlen
  · rw [List.length_eq_zero_iff.1 hlen, List.alternate_nil]
  · have hloop : referenceLoop lines 0 (0 + (lines.length - 1)) = _ :=
      (referenceLoop_eq (lines.length - 1) 0 (by omega)).1
    have hall : segment lines 0 (lines.length - 1) = lines := by
      rw [segment, List.drop_zero, List.take_of_length_le (by omega)]
    rw [Nat.zero_add] at hloop
    rw [hloop, hall]

/-! ### Files of short lines -/

/-- A line of a text file: it has no zero byte, ends with its only newline, and is at most 511 bytes
long. -/
structure Line where
  text : List UInt8
  noNewline : newline ∉ text
  noNul : 0 ∉ text
  short : text.length + 1 ≤ 511

def Line.bytes (l : Line) : List UInt8 := l.text ++ [newline]

/-- The file. -/
def contents (lines : List Line) : List UInt8 := (lines.map Line.bytes).flatten

theorem Line.ended (l : Line) : Ended l.bytes := ⟨l.text, rfl, l.noNewline⟩

theorem Line.nul_not_mem (l : Line) : 0 ∉ l.bytes := by
  rw [Line.bytes, List.mem_append, not_or, List.mem_singleton]
  exact ⟨l.noNul, by decide⟩

theorem Line.length_le (l : Line) : l.bytes.length ≤ 511 := by
  rw [Line.bytes, List.length_append]
  exact l.short

theorem Ended.piece {l : List UInt8} (hl : Ended l) : Piece l := by
  obtain ⟨body, rfl, hbody⟩ := hl
  exact ⟨body, newline, rfl, hbody⟩

/-- A file of lines has no zero byte. -/
theorem nul_not_mem_contents (lines : List Line) : 0 ∉ contents lines := by
  intro hmem
  obtain ⟨l, hl, hzero⟩ := List.mem_flatten.1 hmem
  obtain ⟨line, -, rfl⟩ := List.mem_map.1 hl
  exact line.nul_not_mem hzero

/-- The buffer that `malloc` has given, all zero. -/
def zeros : List UInt8 := List.replicate changeSize 0

theorem zeroed_zeros : Zeroed zeros := fun _ ↦ List.eq_of_mem_replicate

/-- A line of the file fits into the buffer, with a zero byte behind it. -/
theorem fits_zeros {l : List UInt8} (hl : l.length ≤ 511) : Fits zeros l := by
  have hdrop : zeros.drop l.length = List.replicate (changeSize - l.length) 0 :=
    List.drop_replicate
  refine ⟨?_, List.mem_append_right _ ?_⟩
  · rw [zeros, List.length_replicate, changeSize]
    omega
  · rw [hdrop, List.mem_replicate, changeSize]
    exact ⟨by omega, rfl⟩

/-- The cursor `j` at the start. -/
def lastIndex (n : ℕ) : ℤ := ((n : ℤ) - 1).bmod (2 ^ 32)

/-- The loop starts with the cursors at the ends of the text before the first zero byte. -/
theorem shuffle_text {text : List UInt8} (htext : 0 ∉ text) (rest change : List UInt8) :
    shuffle (text ++ 0 :: rest) change =
      loop (text ++ 0 :: rest) ⟨0, lastIndex text.length, .front, change, []⟩ := by
  rw [shuffle, strlen, scan_append htext]
  rfl

/-- As long as the file is not too long, the cursor `j` starts at its last byte. -/
theorem lastIndex_eq {n : ℕ} (hn : n ≤ 2 ^ 31) : lastIndex n = n - 1 := by
  rw [lastIndex]
  exact Int.bmod_eq_of_le (by omega) (by omega)

/-- A length that does not fit into an `int`. -/
theorem lastIndex_lt {n : ℕ} (hn : 2 ^ 31 < n) : lastIndex n + 1 < n := by
  have hlt : lastIndex n < (2 ^ 32 + 1) / 2 := Int.bmod_lt (by decide)
  omega

/-- A file of at most `2 ^ 31` bytes is written with its lines alternating. -/
theorem shuffle_contents {lines : List Line} (hlen : (contents lines).length ≤ 2 ^ 31) :
    shuffle (contents lines ++ [0]) zeros = .ok (contents (lines.alternate)) := by
  have hbetween : Between (contents lines ++ [0])
      ⟨0, lastIndex (contents lines).length, .front, zeros, []⟩ [] (lines.map Line.bytes) [0] := by
    refine ⟨rfl, rfl, ?_, nul_not_mem_contents lines, ?_, ?_, ?_, ?_⟩
    · show lastIndex (contents lines).length + 1 = _
      rw [lastIndex_eq hlen, Int.sub_add_cancel, List.length_nil, Nat.cast_zero, Int.zero_add]
      rfl
    · intro l hl
      obtain ⟨line, -, rfl⟩ := List.mem_map.1 hl
      exact line.ended.piece
    · intro l hl
      obtain ⟨line, -, rfl⟩ := List.mem_map.1 (List.dropLast_subset _ hl)
      exact line.ended
    · intro hback
      cases hback
    · intro _ l hl
      obtain ⟨line, -, rfl⟩ := List.mem_map.1 (hl ▸ List.mem_singleton_self l)
      exact line.ended
  obtain ⟨out, hout, hzeroed⟩ := hbetween.loop_of_fits fun l hl ↦ by
    obtain ⟨line, -, rfl⟩ := List.mem_map.1 hl
    exact fits_zeros line.length_le
  rw [shuffle_text (nul_not_mem_contents lines), hout, hzeroed zeroed_zeros]
  show Except.ok ([] ++ (lines.map Line.bytes).alternate.flatten) = _
  rw [List.nil_append, List.alternate_map]
  rfl

/-- A text that is longer than the cursor `j` can say is not written to its end. -/
theorem length_lt_of_shuffle {lines : List Line} (hlen : 2 ^ 31 < (contents lines).length)
    {out : List UInt8} (hout : shuffle (contents lines ++ [0]) zeros = .ok out) :
    out.length < (contents lines).length := by
  have hlast := lastIndex_lt hlen
  have hnul := nul_not_mem_contents lines
  rw [shuffle_text hnul] at hout
  generalize hs : (⟨0, lastIndex (contents lines).length, .front, zeros, []⟩ : State) = s at hout
  have hi : s.i = 0 := by rw [← hs]
  have hj : s.j = lastIndex (contents lines).length := by rw [← hs]
  have hturn : s.turn = .front := by rw [← hs]
  have hchange : s.change = zeros := by rw [← hs]
  have houtput : s.output = [] := by rw [← hs]
  rcases lt_or_ge s.j 0 with hneg | hpos
  · -- the loop is not entered
    rw [loop, if_neg (by omega), houtput] at hout
    obtain rfl := Except.ok.inj hout
    exact (Nat.zero_le _).trans_lt hlen
  · obtain ⟨k, hk⟩ : ∃ k : ℕ, s.j + 1 = k := ⟨(s.j + 1).toNat, by omega⟩
    have hseen : ((contents lines).take k).length = k := List.length_take_of_le (by omega)
    have hbytes : contents lines ++ [0] =
        (contents lines).take k ++ ((contents lines).drop k ++ [0]) := by
      rw [← List.append_assoc, List.take_append_drop]
    by_cases hnewline : newline ∈ (contents lines).take k
    · have hbetween := between_pieces hbytes hi (hk.trans (by rw [hseen])) hturn
        (fun hmem ↦ hnul (List.mem_of_mem_take hmem)) hnewline
      by_cases hfits : ∀ l ∈ pieces ((contents lines).take k), Fits s.change l
      · obtain ⟨out', hout', hzeroed⟩ := hbetween.loop_of_fits hfits
        obtain rfl := Except.ok.inj (hout.symm.trans hout')
        have hperm := (List.alternate_perm (pieces ((contents lines).take k))).flatten
        rw [hzeroed (hchange ▸ zeroed_zeros), houtput, List.nil_append, hturn]
        show ((pieces ((contents lines).take k)).alternate.flatten).length < _
        rw [hperm.length_eq, flatten_pieces, hseen]
        omega
      · push Not at hfits
        cases hout.symm.trans (hbetween.loop_of_not_fits hfits)
    · -- the cursor is in the first line
      obtain ⟨l, rest, rfl⟩ : ∃ l rest, lines = l :: rest := by
        cases lines with
        | nil => exact absurd hlen (by decide)
        | cons l rest => exact ⟨l, rest, rfl⟩
      have hcontents : contents (l :: rest) = l.text ++ newline :: contents rest := by
        show l.text ++ [newline] ++ _ = _
        rw [List.append_assoc]
        rfl
      have hshort : k ≤ l.text.length := by
        by_contra hlt
        refine hnewline ?_
        rw [hcontents]
        exact newline_mem_take (not_le.1 hlt)
      have hfirst : contents (l :: rest) ++ [0] = l.text ++ newline :: (contents rest ++ [0]) := by
        rw [hcontents, List.append_assoc]
        rfl
      have hfits : Fits s.change l.bytes := hchange ▸ fits_zeros l.length_le
      have hne : l.bytes ≠ [] := List.append_ne_nil_of_right_ne_nil _ (List.cons_ne_nil _ _)
      obtain ⟨written, change', hwrite, -, hzeroed⟩ := fwrite_of_fits hne l.nul_not_mem hfits
      obtain ⟨rfl, -⟩ := hzeroed (hchange ▸ zeroed_zeros)
      rw [loop_of_long hfirst l.noNewline hi hpos (by omega) hturn, ← Line.bytes, copyLine,
        if_pos hfits.1, hwrite, houtput] at hout
      obtain rfl : l.bytes = out := Except.ok.inj hout
      have hle := l.length_le
      omega

/-- **shuffle computes the alternation.** Every line is written once, in the order of the reference,
if and only if the length of the file fits. -/
theorem shuffle_eq_reference_iff (lines : List Line) :
    (∃ order, order.Perm lines ∧ order = lines.alternate ∧ order = reference lines ∧
      shuffle (contents lines ++ [0]) zeros = .ok (contents order)) ↔
        (contents lines).length ≤ 2 ^ 31 := by
  constructor
  · rintro ⟨order, hperm, -, -, hshuffle⟩
    by_contra hlen
    have hlt := length_lt_of_shuffle (not_le.1 hlen) hshuffle
    have hsame : (contents order).length = (contents lines).length :=
      (hperm.map Line.bytes).flatten.length_eq
    exact hlt.ne hsame
  · intro hlen
    refine ⟨lines.alternate, List.alternate_perm lines, rfl, (reference_eq lines).symm, ?_⟩
    exact shuffle_contents hlen

/-- A line of 511 bytes. -/
def longLine : Line where
  text := List.replicate 510 97
  noNewline := fun h ↦ absurd (List.eq_of_mem_replicate h) (by decide)
  noNul := fun h ↦ absurd (List.eq_of_mem_replicate h) (by decide)
  short := by rw [List.length_replicate]

theorem length_longLine : longLine.bytes.length = 511 := by
  rw [Line.bytes, List.length_append, longLine, List.length_replicate]
  rfl

theorem length_contents_replicate (n : ℕ) (l : Line) :
    (contents (List.replicate n l)).length = n * l.bytes.length := by
  induction n with
  | zero => simp [contents]
  | succ n ih =>
    have hstep : contents (List.replicate (n + 1) l) =
        l.bytes ++ contents (List.replicate n l) := by
      simp [contents, List.replicate_succ]
    rw [hstep, List.length_append, ih, Nat.succ_mul, Nat.add_comm]

/-- **A file that is too long.** -/
theorem shuffle_large_file : ¬ ∀ lines : List Line, ∃ order, order.Perm lines ∧
    order = lines.alternate ∧ order = reference lines ∧
      shuffle (contents lines ++ [0]) zeros = .ok (contents order) := by
  intro hall
  obtain ⟨order, hperm, -, -, hshuffle⟩ := hall (List.replicate 4202513 longLine)
  have hlen : (contents (List.replicate 4202513 longLine)).length = 4202513 * 511 := by
    rw [length_contents_replicate, length_longLine]
  have hlt := length_lt_of_shuffle (by rw [hlen]; decide) hshuffle
  exact hlt.ne (hperm.map Line.bytes).flatten.length_eq

end Shuffle
