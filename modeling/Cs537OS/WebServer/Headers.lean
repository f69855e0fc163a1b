import Cs537OS.WebServer.Rio
import Mathlib.Tactic.ByContra
import Mathlib.Tactic.SplitIfs

/-!
# Reading the headers

`requestReadhdrs` reads lines until one of them is empty. It looks at the array that the line is
read into and not at what `Rio_readlineb` returns, and at the end of the stream the array keeps the
line before, so that the loop never ends.

* `requestReadhdrs_of_nil` — behind the end of the stream nothing stops the loop;
* `headersEnd_of_complete` — with a complete header it returns;
* `requestReadhdrs_returns_iff` — it returns when one of the pieces in which the stream is read is
  an empty line.
-/

open BoundedLines (takeLine lines)

namespace WebServer

/-- `"\r\n"`. -/
def crlf : List UInt8 := [13, 10]

/-- `!strcmp(buf, str)`. -/
def Equals (buf str : List UInt8) : Prop := buf.take (str.length + 1) = str ++ [0]

instance (buf str : List UInt8) : Decidable (Equals buf str) :=
  inferInstanceAs (Decidable (_ = _))

/-- `requestReadhdrs`, as far as it comes with this number of calls of `Rio_readlineb`; `none` if it
needs more, and an error if the process exits. -/
def requestReadhdrs (rp : Rio) (buf : List UInt8) : ℕ → Option (Except Unit Rio)
  | 0 => none
  | calls + 1 =>
    match rp.readlineb buf MAXLINE with
    | none => some (.error ())
    | some (buf, rp) => if Equals buf crlf then some (.ok rp) else requestReadhdrs rp buf calls

/-- It returns after finitely many calls. -/
def HeadersEnd (rp : Rio) (buf : List UInt8) : Prop :=
  ∃ calls rp', requestReadhdrs rp buf calls = some (.ok rp')

variable {rp rp' : Rio} {buf buf' line : List UInt8}

/-- A line that is stored in the array is the empty line if the string there is. -/
theorem equals_overwrite_iff (buf : List UInt8) (hline : newline ∉ line.dropLast) :
    Equals (overwrite buf (line ++ [0])) crlf ↔ line = crlf := by
  rw [Equals, overwrite]
  rcases line with - | ⟨a, - | ⟨b, - | ⟨c, line⟩⟩⟩
  · exact iff_of_false (fun h ↦ by cases h) fun h ↦ by cases h
  · exact iff_of_false (fun h ↦ by cases h) fun h ↦ by cases h
  · refine ⟨fun h ↦ ?_, fun h ↦ by rw [h]; rfl⟩
    obtain ⟨rfl, h⟩ := List.cons.inj h
    obtain ⟨rfl, -⟩ := List.cons.inj h
    rfl
  · refine iff_of_false (fun h ↦ hline ?_) fun h ↦ by cases h
    obtain ⟨-, h⟩ := List.cons.inj h
    obtain ⟨rfl, -⟩ := List.cons.inj h
    exact List.mem_cons_of_mem _ List.mem_cons_self

/-- The first line ends the loop, or the loop goes on. -/
theorem headersEnd_iff_of_readlineb (h : rp.readlineb buf MAXLINE = some (buf', rp')) :
    HeadersEnd rp buf ↔ Equals buf' crlf ∨ HeadersEnd rp' buf' := by
  have hstep : ∀ calls, requestReadhdrs rp buf (calls + 1) =
      if Equals buf' crlf then some (.ok rp') else requestReadhdrs rp' buf' calls := fun calls ↦ by
    rw [requestReadhdrs, h]
  constructor
  · rintro ⟨calls, rp'', hret⟩
    cases calls with
    | zero => cases hret
    | succ calls =>
      rw [hstep] at hret
      split_ifs at hret with heq
      · exact .inl heq
      · exact .inr ⟨calls, rp'', hret⟩
  · by_cases heq : Equals buf' crlf
    · exact fun _ ↦ ⟨1, rp', (hstep 0).trans (if_pos heq)⟩
    · rintro (heq' | ⟨calls, rp'', hret⟩)
      · exact absurd heq' heq
      · exact ⟨calls + 1, rp'', (hstep calls).trans ((if_neg heq).trans hret)⟩

/-- **Behind the end of the stream** the array does not change any more. -/
theorem requestReadhdrs_of_nil (hs : rp.Sound) (hrest : rp.rest = []) (hbuf : ¬ Equals buf crlf)
    (calls : ℕ) : requestReadhdrs rp buf calls = none := by
  induction calls generalizing rp with
  | zero => rfl
  | succ calls ih =>
    obtain ⟨rp', hsound, hrest', hread⟩ := readlineb_of_nil hs hrest buf (by decide : 1 < MAXLINE)
    rw [requestReadhdrs, hread]
    exact (if_neg hbuf).trans (ih hsound hrest')

/-- It ends at an empty line. -/
theorem headersEnd_iff (hs : rp.Sound) :
    HeadersEnd rp buf ↔ crlf ∈ lines newline (MAXLINE - 2) rp.rest ∨
      rp.rest = [] ∧ Equals buf crlf := by
  generalize hl : rp.rest = l
  induction l using BoundedLines.lines.induct newline (MAXLINE - 2) generalizing rp buf with
  | case1 =>
    -- nothing is left: the call leaves the buffer as it was, and so do all that follow
    obtain ⟨rp', hsound, hrest, hread⟩ := readlineb_of_nil hs hl buf (by decide : 1 < MAXLINE)
    rw [headersEnd_iff_of_readlineb hread, BoundedLines.lines_nil]
    constructor
    · rintro (heq | ⟨calls, rp'', hret⟩)
      · exact .inr ⟨rfl, heq⟩
      · by_contra hno
        rw [requestReadhdrs_of_nil hsound hrest fun heq ↦ hno (.inr ⟨rfl, heq⟩)] at hret
        cases hret
    · rintro (hmem | ⟨-, heq⟩)
      · exact absurd hmem List.not_mem_nil
      · exact .inl heq
  | case2 l hne ih =>
    obtain ⟨rp', hsound, hrest, hread⟩ := readlineb_of_ne_nil hs (hl ▸ hne) buf MAXLINE
    rw [hl] at hrest hread
    have heq := equals_overwrite_iff buf
      (BoundedLines.notMem_dropLast_takeLine newline (MAXLINE - 1) l)
    rw [headersEnd_iff_of_readlineb hread, ih hsound hrest, heq, BoundedLines.lines_of_ne_nil hne,
      List.mem_cons]
    constructor
    · rintro (hline | hmem | ⟨-, hline⟩)
      · exact .inl (.inl hline.symm)
      · exact .inl (.inr hmem)
      · exact .inl (.inl hline.symm)
    · rintro ((hline | hmem) | ⟨hnil, -⟩)
      · exact .inl hline.symm
      · exact .inr (.inl hmem)
      · exact absurd hnil hne

theorem lines_crlf : lines newline (MAXLINE - 2) crlf = [crlf] := by
  rw [BoundedLines.lines_of_ne_nil (show crlf ≠ [] by decide)]
  exact congrArg _ BoundedLines.lines_nil

/-- Complete headers are read to their end. -/
theorem headersEnd_of_complete {headers body : List UInt8} (hs : rp.Sound)
    (hheaders : headers = [] ∨ headers.getLast? = some newline)
    (hrest : rp.rest = headers ++ (crlf ++ body)) : HeadersEnd rp buf := by
  have hcrlf : crlf.getLast? = some newline := rfl
  rw [headersEnd_iff hs, hrest, BoundedLines.lines_append hheaders,
    BoundedLines.lines_append (.inr hcrlf), lines_crlf]
  exact .inl (List.mem_append_right _ (List.mem_append_left _ List.mem_cons_self))

/-- Without a failing `read` the process does not exit. -/
theorem requestReadhdrs_ne_error (hs : rp.Sound) (calls : ℕ) :
    requestReadhdrs rp buf calls ≠ some (.error ()) := by
  induction calls generalizing rp buf with
  | zero => exact nofun
  | succ calls ih =>
    have hread : ∃ buf' rp', rp.readlineb buf MAXLINE = some (buf', rp') ∧ rp'.Sound := by
      by_cases hrest : rp.rest = []
      · obtain ⟨rp', hsound, -, hread⟩ := readlineb_of_nil hs hrest buf (by decide : 1 < MAXLINE)
        exact ⟨_, rp', hread, hsound⟩
      · obtain ⟨rp', hsound, -, hread⟩ := readlineb_of_ne_nil hs hrest buf MAXLINE
        exact ⟨_, rp', hread, hsound⟩
    obtain ⟨buf', rp', hread, hsound⟩ := hread
    rw [requestReadhdrs, hread]
    by_cases heq : Equals buf' crlf
    · exact fun h ↦ by cases (if_pos heq).symm.trans h
    · exact fun h ↦ ih hsound ((if_neg heq).symm.trans h)

/-- **When header reading ends**: exactly when one of the pieces in which the rest of the stream is
read is an empty line. With nothing left of the stream, what the array held before decides. Else
no number of calls is enough. -/
theorem requestReadhdrs_returns_iff (hs : rp.Sound) (buf : List UInt8) :
    ((∃ calls rp', requestReadhdrs rp buf calls = some (.ok rp')) ↔
      crlf ∈ lines newline (MAXLINE - 2) rp.rest ∨ rp.rest = [] ∧ Equals buf crlf) ∧
    ((∃ calls rp', requestReadhdrs rp buf calls = some (.ok rp')) ∨
      ∀ calls, requestReadhdrs rp buf calls = none) := by
  refine ⟨headersEnd_iff hs, or_iff_not_imp_right.2 fun hnone ↦ ?_⟩
  obtain ⟨calls, hcalls⟩ := not_forall.1 hnone
  cases hret : requestReadhdrs rp buf calls with
  | none => exact absurd hret hcalls
  | some r =>
    cases r with
    | error e => exact absurd hret (requestReadhdrs_ne_error hs calls)
    | ok rp' => exact ⟨calls, rp', hret⟩

/-- A header line is sent in two parts, and then an empty line. -/
theorem requestReadhdrs_emptyLine : ∃ calls rp',
    requestReadhdrs ⟨[], [.bytes 72 [58], .interrupted, .bytes 97 [13, 10, 13, 10]]⟩
      (List.replicate MAXLINE 0) calls = some (.ok rp') := by
  have hheader : ([72, 58, 97, 13, 10] : List UInt8).getLast? = some newline := rfl
  have hmem : crlf ∈ lines newline (MAXLINE - 2) ([72, 58, 97, 13, 10] ++ crlf) := by
    rw [BoundedLines.lines_append (.inr hheader), lines_crlf]
    exact List.mem_append_right _ List.mem_cons_self
  exact (requestReadhdrs_returns_iff (by decide) _).1.2 (.inl hmem)

/-- `"H:\r\n"` is sent, and the connection is closed. -/
theorem requestReadhdrs_truncated :
    ¬ ∃ buf calls r, requestReadhdrs ⟨[], [.bytes 72 [58, 13, 10]]⟩ buf calls = some r := by
  rintro ⟨buf, calls, r, hret⟩
  cases calls with
  | zero => cases hret
  | succ calls =>
    obtain ⟨rp', hsound, hrest, hread⟩ := readlineb_of_ne_nil
      (show Rio.Sound ⟨[], [.bytes 72 [58, 13, 10]]⟩ by decide) (List.cons_ne_nil _ _) buf MAXLINE
    have hbuf : ¬ Equals (overwrite buf ([72, 58, 13, 10] ++ [0])) crlf :=
      (equals_overwrite_iff buf (by decide)).not.2 (by decide)
    have hnone := requestReadhdrs_of_nil hsound hrest hbuf calls
    rw [requestReadhdrs, hread] at hret
    cases ((if_neg hbuf).symm.trans hret).symm.trans hnone

end WebServer
