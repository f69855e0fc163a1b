import Cs537OS.WebServer.Request
import Mathlib.Data.List.TakeWhile

/-!
# The arrays of a request

A request line has room in its array because `Rio_readlineb` knows how long that is. The file name
and the error pages are longer than what they are made of, and are built in arrays of the same
length.

* `fits_grow_iff` — of the strings that grow in an array the last one decides;
* `fits_requestError_iff` — how long the cause of an error can be;
* `requestHandle_fits_iff` — all strings of a request fit when the method, or the name of the file
  with the rest of an error page, is short enough.
-/

open BoundedLines (takeLine lines)

namespace WebServer

/-- A string has room in its array, with the NUL at its end. -/
def Effect.Fits : Effect → Prop
  | put size s => s.length < size
  | send _ => True
  | opened _ => True
  | exec _ _ => True

instance (e : Effect) : Decidable e.Fits :=
  match e with
  | .put size s => inferInstanceAs (Decidable (s.length < size))
  | .send _ | .opened _ | .exec _ _ => isTrue trivial

/-- All strings have room. -/
def Fits (effects : List Effect) : Prop := ∀ e ∈ effects, e.Fits

variable {effects effects' : List Effect} {s : List UInt8} {size : ℕ}

instance : Decidable (Fits effects) := inferInstanceAs (Decidable (∀ e ∈ effects, e.Fits))

theorem fits_append : Fits (effects ++ effects') ↔ Fits effects ∧ Fits effects' :=
  List.forall_mem_append

theorem fits_send : Fits (.send s :: effects) ↔ Fits effects := by
  rw [Fits, List.forall_mem_cons]
  exact and_iff_right trivial

theorem fits_put : Fits (.put size s :: effects) ↔ s.length < size ∧ Fits effects :=
  List.forall_mem_cons

theorem fits_nil : Fits [] := List.forall_mem_nil _

theorem fits_map_put_iff {strings : List (List UInt8)} :
    Fits (strings.map (Effect.put size)) ↔ ∀ s ∈ strings, s.length < size := List.forall_mem_map

theorem fits_writeLine_iff : Fits (writeLine s) ↔ s.length < MAXLINE := by
  rw [writeLine, fits_put, fits_send]
  exact and_iff_left fits_nil

/-- **The last string of an array** is the longest one. -/
theorem fits_grow_iff (pieces : List (List UInt8)) :
    Fits (grow size s pieces) ↔ pieces = [] ∨ (s ++ pieces.flatten).length < size := by
  induction pieces generalizing s with
  | nil => exact iff_of_true fits_nil (.inl rfl)
  | cons piece pieces ih =>
    rw [grow, fits_put, ih, List.flatten_cons, ← List.append_assoc]
    constructor
    · rintro ⟨hpiece, rfl | hlast⟩
      · rw [List.flatten_nil, List.append_nil]
        exact .inr hpiece
      · exact .inr hlast
    · rintro (hnil | hlast)
      · cases hnil
      · rw [List.length_append] at hlast
        exact ⟨Nat.lt_of_le_of_lt (Nat.le_add_right _ _) hlast, .inr (by rwa [List.length_append])⟩

theorem length_str (t : String) : (str t).length = t.length := by
  rw [str, List.length_map, String.length_toList]

/-- A number with its sign. -/
theorem length_decimal_le {n : ℤ} {k : ℕ} (hk : 0 < k) (hn : n.natAbs < 10 ^ k) :
    (decimal n).length ≤ k + 1 := by
  have hrepr : ∀ m : ℕ, m = n.natAbs → m.repr.length ≤ k := fun m hm ↦
    (Nat.length_repr_le_iff hk).2 (hm ▸ hn)
  rw [decimal, length_str, Int.repr_eq_if]
  split_ifs with hsign
  · exact Nat.le_succ_of_le (hrepr _ (by omega))
  · rw [String.length_append, Nat.add_comm]
    exact Nat.add_le_add_right (hrepr _ (by omega)) 1

theorem length_errorBody (cause errnum shortmsg longmsg : List UInt8) :
    (errorBody cause errnum shortmsg longmsg).flatten.length =
      errnum.length + shortmsg.length + longmsg.length + cause.length + 87 := by
  have hhtml : (str "<html><title>CS537 Error</title>").length = 32 := rfl
  have hbody : (str "<body bgcolor=fffff>\r\n").length = 22 := rfl
  have hcolon : (str ": ").length = 2 := rfl
  have hend : (str "\r\n").length = 2 := rfl
  have hp : (str "<p>").length = 3 := rfl
  have hhr : (str "<hr>CS537 Web Server\r\n").length = 22 := rfl
  simp only [errorBody, List.flatten_cons, List.flatten_nil, List.length_append, List.length_nil,
    hhtml, hbody, hcolon, hend, hp, hhr]
  omega

/-- **An error page** has room if its cause is short enough. -/
theorem fits_requestError_iff {cause errnum shortmsg longmsg : List UInt8} {n : ℕ}
    (h : errnum.length + shortmsg.length ≤ 100)
    (hn : errnum.length + shortmsg.length + longmsg.length + 87 = n) :
    Fits (requestError cause errnum shortmsg longmsg) ↔ cause.length + n < MAXBUF := by
  have hlen : errnum.length + shortmsg.length + longmsg.length + cause.length + 87 =
      cause.length + n := by omega
  have hpage : Fits (grow MAXBUF [] (errorBody cause errnum shortmsg longmsg)) ↔
      cause.length + n < MAXBUF := by
    rw [fits_grow_iff, List.nil_append, length_errorBody, hlen]
    exact or_iff_right (List.cons_ne_nil _ _)
  simp only [requestError, fits_append, fits_writeLine_iff, hpage, length_errorBody, hlen]
  constructor
  · rintro ⟨⟨⟨⟨hfit, -⟩, -⟩, -⟩, -⟩
    exact hfit
  · intro hfit
    have hdigits := length_decimal_le (by decide : 0 < 4)
      (show Int.natAbs ((cause.length + n : ℕ) : ℤ) < 10 ^ 4 from
        Nat.lt_of_lt_of_le hfit (by decide))
    have hhttp : (str "HTTP/1.0 ").length = 9 := rfl
    have hspace : (str " ").length = 1 := rfl
    have hend : (str "\r\n").length = 2 := rfl
    have hlength : (str "Content-Length: ").length = 16 := rfl
    have hends : (str "\r\n\r\n").length = 4 := rfl
    refine ⟨⟨⟨⟨hfit, ?_⟩, by decide⟩, ?_⟩, fits_send.2 fits_nil⟩
    · rw [List.length_append, List.length_append, List.length_append, List.length_append, hhttp,
        hspace, hend]
      have hmax : MAXLINE = 8192 := rfl
      omega
    · rw [List.length_append, List.length_append, hlength, hends]
      have hmax : MAXLINE = 8192 := rfl
      omega

theorem length_requestGetFiletype_le (filename : List UInt8) :
    (requestGetFiletype filename).length ≤ 10 := by
  rw [requestGetFiletype]
  split_ifs <;> decide

/-- What is sent in front of a file has room. -/
theorem fits_requestServeStatic (files : Files) (filename : List UInt8) {filesize : ℤ}
    (hsize : filesize.natAbs ≤ 2 ^ 31) : Fits (requestServeStatic files filename filesize) := by
  have htype := length_requestGetFiletype_le filename
  have hdigits := length_decimal_le (by decide : 0 < 10) (Nat.lt_of_le_of_lt hsize (by decide))
  have hmax : MAXLINE = 8192 := rfl
  rw [requestServeStatic]
  refine fits_put.2 ⟨by omega, List.forall_mem_cons.2 ⟨trivial, ?_⟩⟩
  cases files.content filename with
  | none => exact fits_nil
  | some srcp =>
    refine fits_append.2 ⟨(fits_grow_iff _).2 (.inr ?_), fits_send.2 (fits_send.2 fits_nil)⟩
    have hhttp : (str "HTTP/1.0 200 OK\r\n").length = 17 := rfl
    have hserver : (str "Server: CS537 Web Server\r\n").length = 26 := rfl
    have hlength : (str "Content-Length: ").length = 16 := rfl
    have hend : (str "\r\n").length = 2 := rfl
    have hcontent : (str "Content-Type: ").length = 14 := rfl
    have hends : (str "\r\n\r\n").length = 4 := rfl
    have hbuf : MAXBUF = 8192 := rfl
    simp only [List.flatten_cons, List.flatten_nil, List.length_append, List.length_nil, hhttp,
      hserver, hlength, hend, hcontent, hends]
    omega

theorem fits_requestServeDynamic (filename cgiargs : List UInt8) :
    Fits (requestServeDynamic filename cgiargs) :=
  fits_append.2 ⟨(fits_grow_iff _).2 (.inr (by decide)),
    fits_send.2 (List.forall_mem_singleton.2 trivial)⟩

/-- A program is asked for. -/
def AsksCgi (uri : List UInt8) : Prop := ¬ str ".." <:+: uri ∧ str "cgi" <:+: uri

instance (uri : List UInt8) : Decidable (AsksCgi uri) := inferInstanceAs (Decidable (_ ∧ _))

/-- What is behind the question mark. -/
def query (uri : List UInt8) : List UInt8 := (uri.dropWhile (· ≠ questionMark)).tail

variable {files : Files} {locals : Locals} {uri line : List UInt8} {before : UInt8}

theorem isStatic_requestParseURI_iff :
    (requestParseURI before uri).isStatic = true ↔ ¬ AsksCgi uri := by
  rw [requestParseURI]
  split_ifs with hdots hcgi hlast
  · exact iff_of_true rfl fun h ↦ h.1 hdots
  · rw [List.span_eq_takeWhile_dropWhile]
    refine iff_of_false ?_ (not_not_intro ⟨hdots, hcgi⟩)
    cases uri.dropWhile (· ≠ questionMark) <;> exact Bool.false_ne_true
  · exact iff_of_true rfl fun h ↦ hcgi h.2
  · exact iff_of_true rfl fun h ↦ hcgi h.2

/-- The file name and the arguments of a program have room. -/
theorem stored_requestParseURI_iff :
    (∀ s ∈ (requestParseURI before uri).stored, s.length < MAXLINE) ↔
      (str "./public" ++ target before uri).length < MAXLINE ∧
        (AsksCgi uri → (query uri).length < MAXLINE) := by
  have hpos : ([] : List UInt8).length < MAXLINE := by decide
  rw [requestParseURI, target]
  split_ifs with hdots hcgi hlast
  · refine iff_of_true (List.forall_mem_singleton.2 (by decide)) ⟨by decide, fun h ↦ ?_⟩
    exact absurd hdots h.1
  · have hasks : AsksCgi uri := ⟨hdots, hcgi⟩
    rw [List.span_eq_takeWhile_dropWhile, query]
    cases uri.dropWhile (· ≠ questionMark) with
    | nil =>
      dsimp only
      rw [List.forall_mem_cons, List.forall_mem_singleton]
      exact ⟨fun h ↦ ⟨h.2, fun _ ↦ hpos⟩, fun h ↦ ⟨hpos, h.1⟩⟩
    | cons q args =>
      dsimp only
      rw [List.forall_mem_cons, List.forall_mem_singleton]
      exact ⟨fun h ↦ ⟨h.2, fun _ ↦ h.1⟩, fun h ↦ ⟨h.2 hasks, h.1⟩⟩
  · have hlast : (str "./public" ++ uri).length ≤
        (str "./public" ++ (uri ++ str "home.html")).length := by
      rw [← List.append_assoc]
      exact (List.prefix_append _ _).length_le
    dsimp only
    rw [List.forall_mem_cons, List.forall_mem_cons, List.forall_mem_singleton,
      List.append_assoc]
    refine ⟨fun h ↦ ⟨h.2.2, fun hasks ↦ absurd hasks.2 hcgi⟩, fun h ↦ ⟨hpos, ?_, h.1⟩⟩
    exact Nat.lt_of_le_of_lt hlast h.1
  · dsimp only
    rw [List.forall_mem_cons, List.forall_mem_singleton]
    exact ⟨fun h ↦ ⟨h.2, fun hasks ↦ absurd hasks.2 hcgi⟩, fun h ↦ ⟨hpos, h.1⟩⟩

/-- The length of an error page about a file, besides its name; none is sent where the file is. -/
def overhead (files : Files) (before : UInt8) (uri : List UInt8) : ℕ :=
  match files.stat (str "./public" ++ target before uri) with
  | none => 136
  | some sbuf =>
    if AsksCgi uri then if !sbuf.isReg || !sbuf.executable then 142 else 0
    else if !sbuf.isReg || !sbuf.readable then 136 else 0

/-- The strings that are made of a URI have room. -/
def Room (files : Files) (before : UInt8) (uri : List UInt8) : Prop :=
  8 + (target before uri).length + overhead files before uri < MAXBUF ∧
    (AsksCgi uri → (query uri).length < MAXLINE)

instance : Decidable (Room files before uri) := inferInstanceAs (Decidable (_ ∧ (_ → _)))

theorem fits_answer_iff : Fits (answer files locals uri) ↔ Room files locals.before uri := by
  have hname : (str "./public" ++ target locals.before uri).length =
      8 + (target locals.before uri).length := List.length_append
  -- the name has room by itself if a page with it has
  have hroom : ∀ {page query : Prop} {n : ℕ}, (8 + (target locals.before uri).length < MAXLINE →
      (page ↔ 8 + (target locals.before uri).length + n < MAXBUF)) →
      ((8 + (target locals.before uri).length < MAXLINE ∧ query) ∧ page ↔
        8 + (target locals.before uri).length + n < MAXBUF ∧ query) := by
    intro page query n hpage
    constructor
    · rintro ⟨⟨hfile, hquery⟩, hfits⟩
      exact ⟨(hpage hfile).1 hfits, hquery⟩
    · rintro ⟨hfits, hquery⟩
      have hfile := Nat.lt_of_le_of_lt (Nat.le_add_right _ n) hfits
      exact ⟨⟨hfile, hquery⟩, (hpage hfile).2 hfits⟩
  rw [answer, fits_append, fits_map_put_iff, stored_requestParseURI_iff, Room, overhead,
    requestParseURI_filename, hname]
  refine hroom fun hfile ↦ ?_
  cases files.stat (str "./public" ++ target locals.before uri) with
  | none =>
    rw [← hname]
    exact fits_requestError_iff (by decide) rfl
  | some sbuf =>
    dsimp only
    by_cases hcgi : AsksCgi uri
    · rw [if_neg (isStatic_requestParseURI_iff.not.2 (not_not_intro hcgi)), if_pos hcgi]
      split_ifs
      · rw [← hname]
        exact fits_requestError_iff (by decide) (by decide)
      · exact iff_of_true (fits_requestServeDynamic _ _) hfile
    · rw [if_pos (isStatic_requestParseURI_iff.2 hcgi), if_neg hcgi]
      split_ifs
      · rw [← hname]
        exact fits_requestError_iff (by decide) (by decide)
      · have hle := Int.le_bmod (x := sbuf.size) (by decide : 0 < 2 ^ 32)
        have hlt := Int.bmod_lt (x := sbuf.size) (by decide : 0 < 2 ^ 32)
        exact iff_of_true (fits_requestServeStatic _ _ (by omega)) hfile

theorem length_lt_of_mem_sscanf (h : s ∈ sscanf line) (hline : line.length < size) :
    s.length < size := by
  have hpiece := (List.mem_filter.1 (List.mem_of_mem_take h)).1
  exact Nat.lt_of_le_of_lt (Paths.infix_of_mem_splitOnP hpiece).length_le hline

theorem fits_handleLine_iff {rio : Rio} (hline : line.length < MAXLINE) :
    (∀ calls, Fits (handleLine files locals line rio calls)) ↔
      if IsGet (locals.methodOf line) then
        HeadersEnd rio locals.headers → Room files locals.before (locals.uriOf line)
      else (locals.methodOf line).length + 148 < MAXBUF := by
  have hscan : Fits ((sscanf line).map (.put MAXLINE)) :=
    fits_map_put_iff.2 fun s hs ↦ length_lt_of_mem_sscanf hs hline
  simp only [handleLine, fits_append]
  by_cases hget : IsGet (locals.methodOf line)
  · simp only [if_pos hget]
    constructor
    · rintro h ⟨calls, rio', hret⟩
      have hfits := (h calls).2
      rw [hret] at hfits
      exact fits_answer_iff.1 hfits
    · intro h calls
      refine ⟨hscan, ?_⟩
      cases hret : requestReadhdrs rio locals.headers calls with
      | none => exact fits_nil
      | some r =>
        cases r with
        | error e => exact fits_nil
        | ok rio' => exact fits_answer_iff.2 (h ⟨calls, rio', hret⟩)
  · simp only [if_neg hget]
    refine ⟨fun h ↦ ?_, fun h _ ↦ ⟨hscan, ?_⟩⟩
    · exact (fits_requestError_iff (by decide) rfl).1 (h 0).2
    · exact (fits_requestError_iff (by decide) rfl).2 h

/-- **All strings of a request have room** exactly when the method that is refused is short enough;
or, for `GET`, when the file name is, with what else stands in an error page about the file. -/
theorem requestHandle_fits_iff (hs : Rio.Sound ⟨[], fd⟩) (hfd : stream fd ≠ []) :
    (∀ calls, Fits (requestHandle files locals fd calls)) ↔
      let line := cString (takeLine newline (MAXLINE - 1) (stream fd)).1
      let rest := (takeLine newline (MAXLINE - 1) (stream fd)).2
      if IsGet (locals.methodOf line) then
        crlf ∈ lines newline (MAXLINE - 2) rest ∨ rest = [] ∧ Equals locals.headers crlf →
          Room files locals.before (locals.uriOf line)
      else (locals.methodOf line).length + 148 < MAXBUF := by
  obtain ⟨rio, hsound, hrest, heq⟩ := requestHandle_eq files locals hs hfd
  have hline : (cString (takeLine newline (MAXLINE - 1) (stream fd)).1).length < MAXLINE :=
    Nat.lt_of_le_of_lt ((List.takeWhile_prefix _).length_le.trans
      (BoundedLines.length_takeLine_le _ _)) (by decide)
  simp only [heq]
  rw [fits_handleLine_iff hline, headersEnd_iff hsound, hrest]

/-- No file is found. -/
def noFiles : Files := ⟨fun _ ↦ none, fun _ ↦ none⟩

/-- The stack holds zeros. -/
def cleared : Locals := ⟨List.replicate MAXLINE 0, List.replicate MAXLINE 0, [], [], [], 0⟩

/-- A request for a page that does not exist. -/
theorem homeRequest_fits : Fits
    (requestHandle noFiles cleared (arrive (str "GET / HTTP/1.0\r\n\r\n") []) 1) := by
  refine (requestHandle_fits_iff (by decide) (by decide)).2 ?_ 1
  have hline : cString (takeLine newline (MAXLINE - 1)
      (stream (arrive (str "GET / HTTP/1.0\r\n\r\n") []))).1 = str "GET / HTTP/1.0\r\n" := by
    decide
  dsimp only
  rw [hline, if_pos (by decide)]
  exact fun _ ↦ by decide

/-- The method of a line without blanks. -/
theorem methodOf_word (locals : Locals) {word : List UInt8} (hne : word ≠ [])
    (hword : ∀ c ∈ word, isspace c = false ∧ c ≠ 0) (hlen : word.length < MAXLINE - 2) :
    locals.methodOf (cString (takeLine newline (MAXLINE - 1) (word ++ crlf)).1) = word := by
  have hcut : word ++ crlf = word ++ [13] ++ newline :: [] := by
    rw [List.append_assoc]
    rfl
  have hnl : newline ∉ word ++ [13] := by
    rw [List.mem_append, not_or]
    exact ⟨fun h ↦ absurd (hword _ h).1 (by decide), by decide⟩
  have hlen' : (word ++ [13]).length < MAXLINE - 1 := by
    rw [List.length_append]
    exact Nat.add_lt_add_right hlen 1
  have hchars : ∀ c ∈ word ++ [13, newline], decide (c ≠ 0) = true :=
    List.forall_mem_append.2 ⟨fun c hc ↦ decide_eq_true (hword c hc).2,
      List.forall_mem_cons.2 ⟨rfl, List.forall_mem_singleton.2 rfl⟩⟩
  have hsplit : (word ++ [13, newline]).splitOnP isspace = [word, [], []] := by
    rw [List.splitOnP_append_cons_of_forall_mem (fun c hc ↦ (hword c hc).1) 13 (by decide)]
    exact congrArg _ (by decide)
  have hkeep : [word, [], []].filter (!·.isEmpty) = [word] := by
    rw [List.filter_cons, if_pos (by rw [List.isEmpty_eq_false_iff.2 hne]; rfl)]
    rfl
  have hcString : cString (word ++ [13, newline]) = word ++ [13, newline] :=
    List.takeWhile_eq_self_iff.2 hchars
  rw [hcut, BoundedLines.takeLine_append_cons hnl hlen', List.append_assoc]
  show locals.methodOf (cString (word ++ [13, newline])) = word
  rw [hcString, Locals.methodOf, sscanf, hsplit, hkeep]
  rfl

/-- A method that is too long for the page that refuses it. -/
theorem not_fits_of_word (files : Files) (locals : Locals) {word : List UInt8}
    (hword : ∀ c ∈ word, isspace c = false ∧ c ≠ 0) (hlen : word.length < MAXLINE - 2)
    (hlong : MAXBUF ≤ word.length + 148) (calls : ℕ) :
    ¬ Fits (requestHandle files locals (arrive (word ++ crlf) []) calls) := by
  have hbuf : MAXBUF = 8192 := rfl
  have hne : word ≠ [] := List.length_pos_iff.1 (by omega)
  have hstream : stream (arrive (word ++ crlf) []) = word ++ crlf :=
    stream_arrive.trans (List.append_nil _)
  have hget : ¬ IsGet word := fun h ↦ by
    have hthree := congrArg List.length h
    rw [List.length_map] at hthree
    have hthree : word.length = 3 := hthree
    omega
  have hsent : stream (arrive (word ++ crlf) []) ≠ [] := by
    rw [hstream]
    exact List.append_ne_nil_of_left_ne_nil hne crlf
  have hsound : Rio.Sound ⟨[], arrive (word ++ crlf) []⟩ := sound_arrive (List.forall_mem_nil _)
  obtain ⟨rio, -, -, heq⟩ := requestHandle_eq files locals hsound hsent
  rw [heq, hstream, handleLine, methodOf_word locals hne hword hlen, if_neg hget, fits_append,
    fits_requestError_iff (by decide) rfl]
  exact fun h ↦ absurd h.2 (Nat.not_lt.2 hlong)

/-- A method of 8044 letters. -/
theorem longMethod_not_fits : ¬ ∀ calls, Fits
    (requestHandle noFiles cleared (arrive (List.replicate 8044 97 ++ crlf) []) calls) := by
  have hword : ∀ c ∈ List.replicate 8044 (97 : UInt8), isspace c = false ∧ c ≠ 0 := fun c hc ↦ by
    rw [List.eq_of_mem_replicate hc]
    decide
  have hlen : (List.replicate 8044 (97 : UInt8)).length = 8044 := List.length_replicate
  exact fun h ↦ not_fits_of_word noFiles cleared hword (by rw [hlen]; decide)
    (by rw [hlen]; decide) 0 (h 0)

end WebServer
