import Mathlib.Data.List.Induction
import Cs537OS.Shuffle.Program

/-!
# Lines between the cursors

The two cursors of `shuffle` always stand at the ends of a sequence of whole lines, of which only
the last may lack its newline (`Between`). So a turn from the front takes the first of these lines
and a turn from the back the last one, and the loop goes through all of them.

* `loop_of_fits` — the loop comes to its end when every line fits into `change`, and when `change`
  is zero at the start it writes the lines as `List.alternate` orders them;
* `loop_of_not_fits` — it leaves `change` when some line does not fit.

A line fits when there is a zero byte in `change` behind it (`Fits`): `memcpy` has room for the line
then, and `strlen` stops. `change` is set to zero only as far as the string in it went, but that
moves no zero byte away from behind a line (`fwrite_of_fits`).
-/

namespace Shuffle

/-- A line with its newline. -/
def Ended (l : List UInt8) : Prop := ∃ body, l = body ++ [newline] ∧ newline ∉ body

/-- A line, perhaps without its newline. -/
def Piece (l : List UInt8) : Prop := ∃ body x, l = body ++ [x] ∧ newline ∉ body

/-- Copied to `change`, the bytes have room there and are ended by a zero byte. -/
def Fits (change line : List UInt8) : Prop :=
  line.length ≤ change.length ∧ 0 ∈ line ++ change.drop line.length

/-- All bytes of the block are zero. -/
def Zeroed (change : List UInt8) : Prop := ∀ b ∈ change, b = 0

/-- The lines of a text, each with its newline, the last perhaps without. -/
def pieces : List UInt8 → List (List UInt8)
  | [] => []
  | x :: xs =>
    if x = newline then
      [x] :: pieces xs
    else
      match pieces xs with
      | [] => [[x]]
      | p :: ps => (x :: p) :: ps

/-! ### The loops over bytes -/

variable {b : UInt8} {xs ys body : List UInt8}

/-- A scan stops at the first byte that it looks for, -/
theorem scan_append (hb : b ∉ xs) : scan b (xs ++ b :: ys) = .ok xs.length := by
  induction xs with
  | nil =>
    show (if b = b then _ else _) = _
    rw [if_pos rfl]
    rfl
  | cons x xs ih =>
    obtain ⟨hx, hxs⟩ := List.ne_and_not_mem_of_not_mem_cons hb
    rw [List.cons_append, scan, if_neg (Ne.symm hx), ih hxs]
    rfl

/-- and leaves the block when there is none. -/
theorem scan_of_not_mem (hb : b ∉ xs) : scan b xs = .error .outside := by
  induction xs with
  | nil => rfl
  | cons x xs ih =>
    obtain ⟨hx, hxs⟩ := List.ne_and_not_mem_of_not_mem_cons hb
    rw [scan, if_neg (Ne.symm hx), ih hxs]
    rfl

/-- The scan back from the end of `body` stops at the newline before it. -/
theorem scanBack_append (hbody : newline ∉ body) :
    scanBack (xs ++ newline :: (body ++ ys)) (xs.length + 1 + body.length) = .ok body.length := by
  induction body using List.reverseRecOn generalizing ys with
  | nil =>
    show scanBack _ (xs.length + 1) = _
    rw [scanBack, List.getElem?_append_right le_rfl, Nat.sub_self]
    rfl
  | append_singleton body x ih =>
    rw [List.mem_append, not_or] at hbody
    obtain ⟨hbody, hx⟩ := hbody
    have hne : x ≠ newline := fun h ↦ hx (List.mem_singleton.2 h.symm)
    have hget : (xs ++ newline :: (body ++ [x] ++ ys))[xs.length + 1 + body.length]? = some x := by
      rw [List.getElem?_append_right (by omega),
        show xs.length + 1 + body.length - xs.length = body.length + 1 by omega,
        List.getElem?_cons_succ, List.append_assoc, List.getElem?_append_right le_rfl,
        Nat.sub_self]
      rfl
    rw [List.length_append, List.length_singleton, ← Nat.add_assoc, scanBack, hget]
    dsimp only
    rw [if_neg hne, List.append_assoc, ih hbody]
    rfl

/-- A copy of some bytes from the middle of the file, if they have room. -/
theorem memcpy_append {change before line after : List UInt8} :
    memcpy change (before ++ line ++ after) before.length line.length =
      if line.length ≤ change.length then .ok (line ++ change.drop line.length)
      else .error .outside := by
  have hroom : before.length + line.length ≤ (before ++ line ++ after).length := by
    rw [List.length_append, List.length_append]
    exact Nat.le_add_right _ _
  rw [memcpy, List.append_assoc, List.drop_left, List.take_left, ← List.append_assoc]
  exact if_congr (and_iff_right hroom) rfl rfl

/-! ### The buffer -/

/-- A zero byte keeps its place. -/
theorem zero_mem_drop_iff {a c d : List UInt8} (hlen : a.length = c.length) (n : ℕ) :
    0 ∈ (a ++ 0 :: d).drop n ↔ 0 ∈ (c ++ 0 :: d).drop n := by
  rw [List.drop_append, List.drop_append, hlen]
  rcases le_or_gt n c.length with hle | hlt
  · rw [Nat.sub_eq_zero_of_le hle]
    exact iff_of_true (List.mem_append_right _ List.mem_cons_self)
      (List.mem_append_right _ List.mem_cons_self)
  · rw [List.drop_of_length_le (hlen.trans_lt hlt).le, List.drop_of_length_le hlt.le]

variable {change line : List UInt8}

/-- A byte behind index `n` needs a block of that length. -/
theorem length_le_of_mem_drop {n : ℕ} (h : b ∈ change.drop n) : n ≤ change.length := by
  by_contra hlt
  rw [List.drop_of_length_le (not_le.1 hlt).le] at h
  exact List.not_mem_nil h

/-- A line without a zero byte fits if there is a zero byte behind its place. -/
theorem fits_iff (hline : 0 ∉ line) : Fits change line ↔ 0 ∈ change.drop line.length := by
  rw [Fits, List.mem_append, or_iff_right hline]
  exact and_iff_right_of_imp length_le_of_mem_drop

/-- **Writing a line that fits.** Something is written and `change` has its zero bytes behind the
same lines as before. When all of it was zero the line is written and all of it is zero again. -/
theorem fwrite_of_fits (hne : line ≠ []) (hline : 0 ∉ line) (hfits : Fits change line) :
    ∃ written change', fwrite (line ++ change.drop line.length) = .ok (written, change') ∧
      (∀ n, 0 ∈ change'.drop n ↔ 0 ∈ change.drop n) ∧
        (Zeroed change → written = line ∧ Zeroed change') := by
  rw [fits_iff hline] at hfits
  have hle := length_le_of_mem_drop hfits
  obtain ⟨gap, post, hdrop, hgap⟩ := List.eq_append_cons_of_mem hfits
  have hpre : 0 ∉ line ++ gap := by
    rw [List.mem_append, not_or]
    exact ⟨hline, hgap⟩
  have hlen : (line ++ gap).length ≠ 0 := by
    rw [List.length_append]
    have hpos := List.length_pos_iff.2 hne
    omega
  have hwrite : fwrite (line ++ change.drop line.length) =
      .ok (line ++ gap, List.replicate (line ++ gap).length 0 ++ 0 :: post) := by
    rw [hdrop, ← List.append_assoc, fwrite, strlen, scan_append hpre]
    show (if _ then _ else _) = _
    rw [if_neg hlen, List.take_left, List.drop_left]
  refine ⟨_, _, hwrite, fun n ↦ ?_, fun hzero ↦ ?_⟩
  · have hchange : change = change.take line.length ++ gap ++ 0 :: post := by
      rw [List.append_assoc, ← hdrop, List.take_append_drop]
    conv_rhs => rw [hchange]
    refine zero_mem_drop_iff ?_ n
    rw [List.length_replicate, List.length_append, List.length_append, List.length_take_of_le hle]
  · have hrest : ∀ x ∈ gap ++ 0 :: post, x = 0 := by
      rw [← hdrop]
      exact fun x hx ↦ hzero x (List.mem_of_mem_drop hx)
    -- there is nothing between the line and the zero byte
    obtain rfl : gap = [] := by
      refine List.eq_nil_iff_forall_not_mem.2 fun x hx ↦ hgap ?_
      rwa [← hrest x (List.mem_append_left _ hx)]
    refine ⟨List.append_nil line, fun x hx ↦ ?_⟩
    rcases List.mem_append.1 hx with hx | hx
    · exact List.eq_of_mem_replicate hx
    · exact hrest x hx

/-- A line for which there is no zero byte. -/
theorem fwrite_of_not_fits (hle : line.length ≤ change.length)
    (hfits : ¬ Fits change line) : fwrite (line ++ change.drop line.length) = .error .outside := by
  have hnone : 0 ∉ line ++ change.drop line.length := fun hmem ↦ hfits ⟨hle, hmem⟩
  rw [fwrite, strlen, scan_of_not_mem hnone]
  rfl

/-! ### The cursors -/

/-- The lines that are left lie between the cursors. -/
structure Between (readtotal : List UInt8) (s : State) (before : List UInt8)
    (mid : List (List UInt8)) (after : List UInt8) : Prop where
  bytes : readtotal = before ++ mid.flatten ++ after
  i : s.i = before.length
  j : s.j + 1 = before.length + mid.flatten.length
  nul : 0 ∉ mid.flatten
  piece : ∀ l ∈ mid, Piece l
  ended : ∀ l ∈ mid.dropLast, Ended l
  /-- A turn from the back finds a newline before the lines. -/
  back : s.turn = .back → ∃ b, before = b ++ [newline]
  /-- A turn from the front does not find a single line without its newline. -/
  front : s.turn = .front → ∀ l, mid = [l] → Ended l

theorem Piece.length_pos {l : List UInt8} (hl : Piece l) : 0 < l.length := by
  obtain ⟨body, x, rfl, -⟩ := hl
  rw [List.length_append]
  exact Nat.lt_add_left _ Nat.one_pos

variable {readtotal before after l : List UInt8} {mid rest : List (List UInt8)} {s : State}

/-- What a turn does with the line that it has found. -/
def copyLine (s : State) (l : List UInt8) : Except Stop (List UInt8 × List UInt8) :=
  if l.length ≤ s.change.length then fwrite (l ++ s.change.drop l.length) else .error .outside

/-- The two calls of a turn, on the line that it has found. -/
theorem memcpy_bind_fwrite (s : State) (before l after : List UInt8) :
    (memcpy s.change (before ++ l ++ after) before.length l.length).bind fwrite = copyLine s l := by
  rw [memcpy_append, copyLine]
  split_ifs <;> rfl

/-- The front of the lines that are left, as a state of the loop. -/
def State.afterFront (s : State) (l : List UInt8) (r : List UInt8 × List UInt8) : State :=
  { s with i := s.i + l.length, turn := .back, change := r.2, output := s.output ++ r.1 }

def State.afterBack (s : State) (l : List UInt8) (r : List UInt8 × List UInt8) : State :=
  { s with j := s.j - l.length, turn := .front, change := r.2, output := s.output ++ r.1 }

/-- At a turn from the front the next line has its newline. -/
theorem Between.ended_head (h : Between readtotal s before (l :: rest) after)
    (hturn : s.turn = .front) : Ended l := by
  cases rest with
  | nil => exact h.front hturn l rfl
  | cons l' rest => exact h.ended l List.mem_cons_self

/-- While lines are left the cursors have not crossed. -/
theorem Between.le (h : Between readtotal s before mid after) (hmid : mid ≠ []) : s.i ≤ s.j := by
  obtain ⟨l, rest, rfl⟩ := List.exists_cons_of_ne_nil hmid
  have hpos := (h.piece l List.mem_cons_self).length_pos
  have hj := h.j
  rw [List.flatten_cons, List.length_append] at hj
  have hi := h.i
  omega

/-- **A turn from the front** takes the first line. -/
theorem Between.loop_front (h : Between readtotal s before (l :: rest) after)
    (hturn : s.turn = .front) :
    loop readtotal s = (copyLine s l).bind fun r ↦ loop readtotal (s.afterFront l r) := by
  obtain ⟨body, hl, hbody⟩ := h.ended_head hturn
  have hlen : l.length = body.length + 1 := by
    rw [hl, List.length_append]
    rfl
  have hbytes : readtotal = before ++ l ++ (rest.flatten ++ after) := by
    rw [h.bytes, List.flatten_cons, List.append_assoc, List.append_assoc, List.append_assoc]
  have hscan : scan newline (readtotal.drop s.i) = .ok body.length := by
    rw [hbytes, h.i, List.append_assoc, List.drop_left, hl, List.append_assoc]
    exact scan_append hbody
  rw [loop, if_pos (h.le (List.cons_ne_nil _ _)), hturn]
  dsimp only
  rw [hscan]
  show ((memcpy s.change readtotal s.i (body.length + 1)).bind _) = _
  rw [← hlen, hbytes, h.i, ← memcpy_bind_fwrite s before l (rest.flatten ++ after)]
  cases memcpy s.change (before ++ l ++ (rest.flatten ++ after)) before.length l.length with
  | error e => rfl
  | ok change =>
    show (fwrite change).bind _ = (fwrite change).bind _
    refine congrArg _ (funext fun r ↦ ?_)
    rw [State.afterFront, h.i, hlen]
    rfl

/-- A turn from the front takes the first line. -/
theorem Between.afterFront (h : Between readtotal s before (l :: rest) after)
    (hturn : s.turn = .front) (r : List UInt8 × List UInt8) :
    Between readtotal (s.afterFront l r) (before ++ l) rest after where
  bytes := by
    rw [h.bytes, List.flatten_cons, List.append_assoc, List.append_assoc, List.append_assoc,
      List.append_assoc]
  i := by
    show s.i + l.length = _
    rw [h.i, List.length_append]
  j := by
    show s.j + 1 = _
    rw [h.j, List.flatten_cons, List.length_append, List.length_append]
    push_cast
    rw [Int.add_assoc]
  nul := fun hmem ↦ h.nul (List.mem_append_right l hmem)
  piece := fun l' hl' ↦ h.piece l' (List.mem_cons_of_mem l hl')
  ended := fun l' hl' ↦ h.ended l' (by
    cases rest with
    | nil => cases hl'
    | cons l'' rest => exact List.mem_cons_of_mem l hl')
  back := fun _ ↦ by
    obtain ⟨body, hl, -⟩ := h.ended_head hturn
    exact ⟨before ++ body, by rw [hl, List.append_assoc]⟩
  front := fun hfront ↦ by cases hfront

/-- The byte before the last line is a newline. -/
theorem Between.newline_before (h : Between readtotal s before (rest ++ [l]) after)
    (hturn : s.turn = .back) : ∃ b, before ++ rest.flatten = b ++ [newline] := by
  obtain ⟨b, hb⟩ := h.back hturn
  induction rest using List.reverseRecOn with
  | nil => exact ⟨b, by rw [hb, List.flatten_nil, List.append_nil]⟩
  | append_singleton rest l' _ =>
    obtain ⟨body, hl', -⟩ := h.ended l' (by
      rw [List.dropLast_concat]
      exact List.mem_append_right _ List.mem_cons_self)
    refine ⟨before ++ rest.flatten ++ body, ?_⟩
    rw [List.flatten_concat, hl', List.append_assoc, List.append_assoc]

/-- **A turn from the back** takes the last line. -/
theorem Between.loop_back (h : Between readtotal s before (rest ++ [l]) after)
    (hturn : s.turn = .back) :
    loop readtotal s = (copyLine s l).bind fun r ↦ loop readtotal (s.afterBack l r) := by
  obtain ⟨body, x, hl, hbody⟩ := h.piece l (List.mem_append_right _ List.mem_cons_self)
  obtain ⟨b, hb⟩ := h.newline_before hturn
  have hlen : l.length = body.length + 1 := by
    rw [hl, List.length_append]
    rfl
  have hbytes : readtotal = before ++ rest.flatten ++ l ++ after := by
    rw [h.bytes, List.flatten_concat, ← List.append_assoc]
  have hj : s.j.toNat = (before ++ rest.flatten).length + body.length := by
    have hj := h.j
    rw [List.flatten_concat, List.length_append, hlen] at hj
    rw [List.length_append]
    omega
  have hscan : scanBack readtotal s.j.toNat = .ok body.length := by
    rw [hj, hbytes, hb, hl, List.length_append, List.append_assoc, List.append_assoc,
      List.append_assoc]
    exact scanBack_append hbody
  have hne : rest ++ [l] ≠ [] := List.append_ne_nil_of_right_ne_nil _ (List.cons_ne_nil _ _)
  rw [loop, if_pos (h.le hne), hturn]
  dsimp only
  rw [hscan]
  show ((memcpy s.change readtotal (s.j.toNat - body.length) (body.length + 1)).bind _) = _
  rw [hj, Nat.add_sub_cancel, ← hlen, hbytes,
    ← memcpy_bind_fwrite s (before ++ rest.flatten) l after]
  cases memcpy s.change (before ++ rest.flatten ++ l ++ after) (before ++ rest.flatten).length
    l.length with
  | error e => rfl
  | ok change =>
    show (fwrite change).bind _ = (fwrite change).bind _
    refine congrArg _ (funext fun r ↦ ?_)
    rw [State.afterBack, hlen, Nat.cast_succ, Int.sub_sub]

/-- A turn from the back takes the last line. -/
theorem Between.afterBack (h : Between readtotal s before (rest ++ [l]) after)
    (r : List UInt8 × List UInt8) :
    Between readtotal (s.afterBack l r) before rest (l ++ after) where
  bytes := by
    rw [h.bytes, List.flatten_concat, List.append_assoc, List.append_assoc, List.append_assoc]
  i := h.i
  j := by
    have hj := h.j
    rw [List.flatten_concat, List.length_append] at hj
    show s.j - l.length + 1 = _
    omega
  nul := fun hmem ↦ h.nul (by
    rw [List.flatten_concat]
    exact List.mem_append_left l hmem)
  piece := fun l' hl' ↦ h.piece l' (List.mem_append_left _ hl')
  ended := fun l' hl' ↦ h.ended l' (by
    rw [List.dropLast_concat]
    exact List.dropLast_subset _ hl')
  back := fun hback ↦ by cases hback
  front := fun _ l' hrest ↦ h.ended l' (by
    rw [List.dropLast_concat, hrest]
    exact List.mem_cons_self)

/-! ### The whole loop -/

def Turn.other : Turn → Turn
  | .front => .back
  | .back => .front

/-- The lines in the order in which the turns take them. -/
def Turn.order : Turn → List (List UInt8) → List (List UInt8)
  | .front, mid => mid.alternate
  | .back, mid => mid.reverse.alternate

theorem Turn.order_nil (t : Turn) : t.order [] = [] := by
  cases t with
  | front => exact List.alternate_nil
  | back => exact List.alternate_nil

/-- When no line is left the loop ends with its output. -/
theorem Between.loop_nil (h : Between readtotal s before [] after) :
    loop readtotal s = .ok s.output := by
  have hj := h.j
  have hi := h.i
  rw [List.flatten_nil, List.length_nil] at hj
  rw [loop, if_neg (by omega)]

/-- What is left when a turn has taken the line `l`. -/
structure Left (readtotal : List UInt8) (s : State) (rest : List (List UInt8))
    (r : List UInt8 × List UInt8) (s' : State) : Prop where
  turn : s'.turn = s.turn.other
  change : s'.change = r.2
  output : s'.output = s.output ++ r.1
  between : ∃ before after, Between readtotal s' before rest after

/-- A turn takes the line that is next in the order and leaves the others. -/
theorem Between.turn (h : Between readtotal s before mid after) (hmid : mid ≠ []) :
    ∃ (l : List UInt8) (rest : List (List UInt8)) (next : List UInt8 × List UInt8 → State),
      s.turn.order mid = l :: s.turn.other.order rest ∧ mid.Perm (l :: rest) ∧
        loop readtotal s = (copyLine s l).bind (fun r ↦ loop readtotal (next r)) ∧
          ∀ r, Left readtotal s rest r (next r) := by
  cases hturn : s.turn with
  | front =>
    obtain ⟨l, rest, rfl⟩ := List.exists_cons_of_ne_nil hmid
    refine ⟨l, rest, s.afterFront l, List.alternate_cons l rest, .refl _, h.loop_front hturn,
      fun r ↦ ⟨?_, rfl, rfl, _, _, h.afterFront hturn r⟩⟩
    rw [hturn]
    rfl
  | back =>
    obtain ⟨rest, l, rfl⟩ := (List.eq_nil_or_concat' mid).resolve_left hmid
    refine ⟨l, rest, s.afterBack l, List.alternate_concat_reverse rest l,
      List.perm_append_singleton l rest, h.loop_back hturn,
      fun r ↦ ⟨?_, rfl, rfl, _, _, h.afterBack r⟩⟩
    rw [hturn]
    rfl

/-- **The loop when every line fits.** It comes to its end, and a buffer that is zero shows nothing
but the lines. -/
theorem Between.loop_of_fits (h : Between readtotal s before mid after)
    (hfits : ∀ l ∈ mid, Fits s.change l) :
    ∃ out, loop readtotal s = .ok out ∧
      (Zeroed s.change → out = s.output ++ (s.turn.order mid).flatten) := by
  induction hn : mid.length generalizing s before mid after with
  | zero =>
    obtain rfl := List.length_eq_zero_iff.1 hn
    refine ⟨_, h.loop_nil, fun _ ↦ ?_⟩
    rw [Turn.order_nil, List.flatten_nil, List.append_nil]
  | succ n ih =>
    have hmid : mid ≠ [] := by
      rintro rfl
      cases hn
    obtain ⟨l, rest, next, horder, hperm, hloop, hleft⟩ := h.turn hmid
    have hmem : l ∈ mid := hperm.mem_iff.2 List.mem_cons_self
    have hnul : ∀ l ∈ mid, 0 ∉ l := fun l hl hmem ↦ h.nul (List.mem_flatten.2 ⟨l, hl, hmem⟩)
    have hne : l ≠ [] := List.length_pos_iff.1 (h.piece l hmem).length_pos
    obtain ⟨written, change', hwrite, hsame, hzero⟩ :=
      fwrite_of_fits hne (hnul l hmem) (hfits l hmem)
    obtain ⟨hturn, hchange, houtput, before', after', hnext⟩ := hleft (written, change')
    have hfits' : ∀ l' ∈ rest, Fits (next (written, change')).change l' := by
      intro l' hl'
      have hl'mid : l' ∈ mid := hperm.mem_iff.2 (List.mem_cons_of_mem l hl')
      rw [hchange, fits_iff (hnul l' hl'mid), hsame, ← fits_iff (hnul l' hl'mid)]
      exact hfits l' hl'mid
    have hlen : rest.length = n := by
      rw [hperm.length_eq] at hn
      exact Nat.succ.inj hn
    obtain ⟨out, hout, hshape⟩ := ih hnext hfits' hlen
    refine ⟨out, ?_, fun hz ↦ ?_⟩
    · rw [hloop, copyLine, if_pos (hfits l hmem).1, hwrite]
      exact hout
    · obtain ⟨rfl, hz'⟩ := hzero hz
      rw [hshape (by rwa [hchange]), houtput, hturn, horder, List.flatten_cons, List.append_assoc]

/-- **The loop when a line does not fit.** -/
theorem Between.loop_of_not_fits (h : Between readtotal s before mid after)
    (hfits : ∃ l ∈ mid, ¬ Fits s.change l) : loop readtotal s = .error .outside := by
  induction hn : mid.length generalizing s before mid after with
  | zero =>
    obtain rfl := List.length_eq_zero_iff.1 hn
    obtain ⟨l, hl, -⟩ := hfits
    cases hl
  | succ n ih =>
    have hmid : mid ≠ [] := by
      rintro rfl
      cases hn
    obtain ⟨l, rest, next, -, hperm, hloop, hleft⟩ := h.turn hmid
    have hmem : l ∈ mid := hperm.mem_iff.2 List.mem_cons_self
    have hnul : ∀ l ∈ mid, 0 ∉ l := fun l hl hmem ↦ h.nul (List.mem_flatten.2 ⟨l, hl, hmem⟩)
    have hne : l ≠ [] := List.length_pos_iff.1 (h.piece l hmem).length_pos
    rw [hloop, copyLine]
    by_cases hl : Fits s.change l
    · -- a later line
      obtain ⟨written, change', hwrite, hsame, -⟩ := fwrite_of_fits hne (hnul l hmem) hl
      obtain ⟨-, hchange, -, before', after', hnext⟩ := hleft (written, change')
      obtain ⟨l', hl', hnot⟩ := hfits
      have hrest : l' ∈ rest := by
        refine (List.mem_cons.1 (hperm.mem_iff.1 hl')).resolve_left ?_
        rintro rfl
        exact hnot hl
      have hlen : rest.length = n := by
        rw [hperm.length_eq] at hn
        exact Nat.succ.inj hn
      rw [if_pos hl.1, hwrite]
      refine ih hnext ⟨l', hrest, ?_⟩ hlen
      rwa [hchange, fits_iff (hnul l' hl'), hsame, ← fits_iff (hnul l' hl')]
    · split_ifs with hroom
      · rw [fwrite_of_not_fits hroom hl]
        rfl
      · rfl

/-! ### The lines of a text -/

/-- A byte that is not a newline belongs to the line behind it. -/
theorem pieces_cons {x : UInt8} (hx : x ≠ newline) (xs : List UInt8) :
    (pieces xs = [] ∧ pieces (x :: xs) = [[x]]) ∨
      ∃ p ps, pieces xs = p :: ps ∧ pieces (x :: xs) = (x :: p) :: ps := by
  rw [pieces, if_neg hx]
  cases pieces xs with
  | nil => exact .inl ⟨rfl, rfl⟩
  | cons p ps => exact .inr ⟨p, ps, rfl, rfl⟩

/-- The lines of a text are the text. -/
theorem flatten_pieces (xs : List UInt8) : (pieces xs).flatten = xs := by
  induction xs with
  | nil => rfl
  | cons x xs ih =>
    by_cases hx : x = newline
    · rw [pieces, if_pos hx, List.flatten_cons, ih]
      rfl
    · obtain ⟨hnil, hcons⟩ | ⟨p, ps, hp, hcons⟩ := pieces_cons hx xs
      · rw [hcons, ← ih, hnil]
        rfl
      · rw [hcons, ← ih, hp]
        rfl

/-- A piece with another byte before it. -/
theorem Piece.cons {l : List UInt8} {x : UInt8} (hl : Piece l) (hx : x ≠ newline) :
    Piece (x :: l) := by
  obtain ⟨body, y, rfl, hbody⟩ := hl
  exact ⟨x :: body, y, rfl, List.not_mem_cons_of_ne_of_not_mem (Ne.symm hx) hbody⟩

theorem Ended.cons {l : List UInt8} {x : UInt8} (hl : Ended l) (hx : x ≠ newline) :
    Ended (x :: l) := by
  obtain ⟨body, rfl, hbody⟩ := hl
  exact ⟨x :: body, rfl, List.not_mem_cons_of_ne_of_not_mem (Ne.symm hx) hbody⟩

/-- Every line of a text is a line. -/
theorem piece_of_mem_pieces {xs l : List UInt8} (hl : l ∈ pieces xs) : Piece l := by
  induction xs generalizing l with
  | nil => cases hl
  | cons x xs ih =>
    by_cases hx : x = newline
    · rw [pieces, if_pos hx] at hl
      rcases List.mem_cons.1 hl with rfl | hl
      · exact ⟨[], x, rfl, List.not_mem_nil⟩
      · exact ih hl
    · obtain ⟨-, hcons⟩ | ⟨p, ps, hp, hcons⟩ := pieces_cons hx xs <;> rw [hcons] at hl
      · obtain rfl := List.mem_singleton.1 hl
        exact ⟨[], x, rfl, List.not_mem_nil⟩
      · rw [hp] at ih
        rcases List.mem_cons.1 hl with rfl | hl
        · exact (ih List.mem_cons_self).cons hx
        · exact ih (List.mem_cons_of_mem p hl)

/-- Only the last line may lack its newline. -/
theorem ended_of_mem_dropLast {xs l : List UInt8} (hl : l ∈ (pieces xs).dropLast) : Ended l := by
  induction xs generalizing l with
  | nil => cases hl
  | cons x xs ih =>
    by_cases hx : x = newline
    · rw [pieces, if_pos hx] at hl
      cases hps : pieces xs with
      | nil =>
        rw [hps] at hl
        cases hl
      | cons p ps =>
        rw [hps, List.dropLast_cons_cons] at hl
        rcases List.mem_cons.1 hl with rfl | hl
        · exact ⟨[], by rw [hx]; rfl, List.not_mem_nil⟩
        · rw [hps] at ih
          exact ih hl
    · obtain ⟨-, hcons⟩ | ⟨p, ps, hp, hcons⟩ := pieces_cons hx xs <;> rw [hcons] at hl
      · cases hl
      · rw [hp] at ih
        cases ps with
        | nil => cases hl
        | cons p' ps =>
          rw [List.dropLast_cons_cons] at hl ih
          rcases List.mem_cons.1 hl with rfl | hl
          · exact (ih List.mem_cons_self).cons hx
          · exact ih (List.mem_cons_of_mem p hl)

/-- The start of the loop, with a text that has a newline between the cursors. -/
theorem between_pieces {seen : List UInt8} (hbytes : readtotal = seen ++ after) (hi : s.i = 0)
    (hj : s.j + 1 = seen.length) (hturn : s.turn = .front) (hnul : 0 ∉ seen)
    (hnewline : newline ∈ seen) : Between readtotal s [] (pieces seen) after where
  bytes := by
    rw [flatten_pieces]
    exact hbytes
  i := hi
  j := by
    rw [flatten_pieces, hj, List.length_nil, Nat.cast_zero, Int.zero_add]
  nul := by rwa [flatten_pieces]
  piece := fun _ ↦ piece_of_mem_pieces
  ended := fun _ ↦ ended_of_mem_dropLast
  back := fun hback ↦ by cases hturn.symm.trans hback
  front := fun _ l hl ↦ by
    have hseen : seen = l := by
      rw [← flatten_pieces seen, hl, List.flatten_cons, List.flatten_nil, List.append_nil]
    obtain ⟨body, x, hlast, hbody⟩ := piece_of_mem_pieces (hl ▸ List.mem_singleton_self l)
    rw [hseen, hlast] at hnewline
    obtain rfl := List.mem_singleton.1 ((List.mem_append.1 hnewline).resolve_left hbody)
    exact ⟨body, hlast, hbody⟩

theorem newline_mem_take {n : ℕ} (hn : xs.length < n) :
    newline ∈ (xs ++ newline :: ys).take n := by
  obtain ⟨m, rfl⟩ := Nat.exists_eq_add_of_lt hn
  rw [List.take_append, show xs.length + m + 1 - xs.length = m + 1 by omega, List.take_succ_cons]
  exact List.mem_append_right _ List.mem_cons_self

/-- The first line when it reaches beyond the cursor `j`: the loop ends with it. -/
theorem loop_of_long {body : List UInt8} (hbytes : readtotal = body ++ newline :: after)
    (hbody : newline ∉ body) (hi : s.i = 0) (hj : 0 ≤ s.j) (hlong : s.j ≤ body.length)
    (hturn : s.turn = .front) :
    loop readtotal s =
      (copyLine s (body ++ [newline])).bind fun r ↦ .ok (s.output ++ r.1) := by
  have hlen : (body ++ [newline]).length = body.length + 1 := List.length_append
  have hscan : scan newline (readtotal.drop s.i) = .ok body.length := by
    rw [hi, hbytes]
    exact scan_append hbody
  have hline : readtotal = [] ++ (body ++ [newline]) ++ after := by
    rw [hbytes, List.nil_append, List.append_assoc]
    rfl
  rw [loop, if_pos (by omega), hturn]
  dsimp only
  rw [hscan]
  show ((memcpy s.change readtotal s.i (body.length + 1)).bind _) = _
  rw [← hlen, hi, hline, ← memcpy_bind_fwrite s [] (body ++ [newline]) after]
  cases memcpy s.change ([] ++ (body ++ [newline]) ++ after) ([] : List UInt8).length
    (body ++ [newline]).length with
  | error e => rfl
  | ok change =>
    show (fwrite change).bind _ = (fwrite change).bind _
    refine congrArg _ (funext fun r ↦ ?_)
    rw [loop, if_neg]
    show ¬ (((0 + body.length + 1 : ℕ) : ℤ) ≤ s.j)
    omega

end Shuffle
