import Cs537OS.WebServer.Headers
import Cs537OS.WebServer.Uri
import Mathlib.Algebra.Order.Ring.Int

/-!
# A request

`requestHandle` reads the request line and the headers, and answers with a file, with what a program
prints, or with an error page. Every string is built in an array on the stack with `sprintf`,
`strcpy` or `strcat`, which do not know how long the array is: the model keeps each string with
the size of its array. What the server logs on its own output is left out.

* `requestHandle_eq` — a request is its first line and the headers behind it;
* `requestHandle_contained` — a URI that begins with a slash gets nothing but files of `./public`.
-/

open BoundedLines (takeLine lines)

namespace WebServer

/-- What the server does that can be seen from outside of its functions. -/
inductive Effect
  /-- A string is built in an array of this size. -/
  | put (size : ℕ) (s : List UInt8)
  /-- `Rio_writen` to the client. -/
  | send (bytes : List UInt8)
  /-- A file is opened to be sent. -/
  | opened (filename : List UInt8)
  /-- `Execve`, with the `QUERY_STRING`. -/
  | exec (filename cgiargs : List UInt8)
deriving DecidableEq

/-- `sprintf` of pieces, each behind what the array holds. -/
def grow (size : ℕ) (s : List UInt8) : List (List UInt8) → List Effect
  | [] => []
  | piece :: pieces => .put size (s ++ piece) :: grow size (s ++ piece) pieces

/-- A string is built in an array of `MAXLINE` bytes and written to the client. -/
def writeLine (buf : List UInt8) : List Effect := [.put MAXLINE buf, .send buf]

/-- `%d` and `%lu`. -/
def decimal (n : ℤ) : List UInt8 := str n.repr

/-- The body of an error page, as it is put together. -/
def errorBody (cause errnum shortmsg longmsg : List UInt8) : List (List UInt8) :=
  [str "<html><title>CS537 Error</title>",
    str "<body bgcolor=fffff>\r\n",
    errnum ++ str ": " ++ shortmsg ++ str "\r\n",
    str "<p>" ++ longmsg ++ str ": " ++ cause ++ str "\r\n",
    str "<hr>CS537 Web Server\r\n"]

/-- `requestError`. -/
def requestError (cause errnum shortmsg longmsg : List UInt8) : List Effect :=
  let pieces := errorBody cause errnum shortmsg longmsg
  let body := pieces.flatten
  grow MAXBUF [] pieces ++
    writeLine (str "HTTP/1.0 " ++ errnum ++ str " " ++ shortmsg ++ str "\r\n") ++
    writeLine (str "Content-Type: text/html\r\n") ++
    writeLine (str "Content-Length: " ++ decimal body.length ++ str "\r\n\r\n") ++ [.send body]

/-- `requestGetFiletype`. -/
def requestGetFiletype (filename : List UInt8) : List UInt8 :=
  if str ".html" <:+: filename then str "text/html"
  else if str ".gif" <:+: filename then str "image/gif"
  else if str ".jpg" <:+: filename then str "image/jpeg"
  else str "text/plain"

/-- What `stat` tells of a file. -/
structure Stat where
  /-- `S_ISREG`. -/
  isReg : Bool
  /-- `S_IRUSR`. -/
  readable : Bool
  /-- `S_IXUSR`. -/
  executable : Bool
  size : ℤ

/-- The files of the machine. -/
structure Files where
  stat : List UInt8 → Option Stat
  /-- What `Open` and `Mmap` give; `none` if one of them fails and the process exits. -/
  content : List UInt8 → Option (List UInt8)

/-- `requestServeStatic`. -/
def requestServeStatic (files : Files) (filename : List UInt8) (filesize : ℤ) : List Effect :=
  let filetype := requestGetFiletype filename
  .put MAXLINE filetype :: .opened filename ::
    match files.content filename with
    | none => []
    | some srcp =>
      let pieces :=
        [str "HTTP/1.0 200 OK\r\n",
          str "Server: CS537 Web Server\r\n",
          str "Content-Length: " ++ decimal filesize ++ str "\r\n",
          str "Content-Type: " ++ filetype ++ str "\r\n\r\n"]
      grow MAXBUF [] pieces ++ [.send pieces.flatten, .send srcp]

/-- `requestServeDynamic`. -/
def requestServeDynamic (filename cgiargs : List UInt8) : List Effect :=
  let pieces := [str "HTTP/1.0 200 OK\r\n", str "Server: CS537 Web Server\r\n"]
  grow MAXLINE [] pieces ++ [.send pieces.flatten, .exec filename cgiargs]

/-- `isspace`. -/
def isspace (c : UInt8) : Bool := c = 32 || 9 ≤ c && c ≤ 13

/-- The strings that `sscanf` finds for `"%s %s %s"`. -/
def sscanf (s : List UInt8) : List (List UInt8) :=
  ((s.splitOnP isspace).filter (!·.isEmpty)).take 3

/-- The string at the start of an array. -/
def cString (buf : List UInt8) : List UInt8 := buf.takeWhile (· ≠ 0)

def toLower (c : UInt8) : UInt8 := if 65 ≤ c ∧ c ≤ 90 then c + 32 else c

/-- `!strcasecmp(method, "GET")`. -/
def IsGet (method : List UInt8) : Prop := method.map toLower = str "get"

instance (method : List UInt8) : Decidable (IsGet method) :=
  inferInstanceAs (Decidable (_ = _))

/-- What the stack holds where nothing has been stored yet. -/
structure Locals where
  buf : List UInt8
  /-- The array of `requestReadhdrs`. -/
  headers : List UInt8
  /-- The strings in the arrays. -/
  method : List UInt8
  uri : List UInt8
  cgiargs : List UInt8
  /-- The byte in front of `uri`. -/
  before : UInt8

/-- The method of a request line. -/
def Locals.methodOf (locals : Locals) (line : List UInt8) : List UInt8 :=
  (sscanf line).getD 0 locals.method

/-- The URI of a request line. -/
def Locals.uriOf (locals : Locals) (line : List UInt8) : List UInt8 :=
  (sscanf line).getD 1 locals.uri

/-- What `requestHandle` does with the URI. -/
def answer (files : Files) (locals : Locals) (uri : List UInt8) : List Effect :=
  let parsed := requestParseURI locals.before uri
  parsed.stored.map (.put MAXLINE) ++
    match files.stat parsed.filename with
    | none =>
      requestError parsed.filename (str "404") (str "Not found")
        (str "CS537 Server could not find this file")
    | some sbuf =>
      if parsed.isStatic then
        if !sbuf.isReg || !sbuf.readable then
          requestError parsed.filename (str "403") (str "Forbidden")
            (str "CS537 Server could not read this file")
        else requestServeStatic files parsed.filename (sbuf.size.bmod (2 ^ 32))
      else
        if !sbuf.isReg || !sbuf.executable then
          requestError parsed.filename (str "403") (str "Forbidden")
            (str "CS537 Server could not run this CGI program")
        else requestServeDynamic parsed.filename (parsed.cgiargs.getD locals.cgiargs)

/-- What `requestHandle` does with the request line, if so many calls of `Rio_readlineb` are made
for the headers. -/
def handleLine (files : Files) (locals : Locals) (line : List UInt8) (rio : Rio) (calls : ℕ) :
    List Effect :=
  (sscanf line).map (.put MAXLINE) ++
    if IsGet (locals.methodOf line) then
      match requestReadhdrs rio locals.headers calls with
      | some (.ok _) => answer files locals (locals.uriOf line)
      | _ => []
    else
      requestError (locals.methodOf line) (str "501") (str "Not Implemented")
        (str "CS537 Server does not implement this method")

/-- `requestHandle`, for the connection `fd`. -/
def requestHandle (files : Files) (locals : Locals) (fd : List Arrival) (calls : ℕ) :
    List Effect :=
  match Rio.readlineb ⟨[], fd⟩ locals.buf MAXLINE with
  | none => []
  | some (buf, rio) => handleLine files locals (cString buf) rio calls

variable {files : Files} {locals : Locals} {fd : List Arrival} {uri : List UInt8}

theorem cString_overwrite (buf line : List UInt8) :
    cString (overwrite buf (line ++ [0])) = cString line := by
  rw [cString, cString, overwrite, List.append_assoc]
  generalize (buf.drop (line ++ [0]).length) = rest
  induction line with
  | nil => rfl
  | cons a line ih => rw [List.cons_append, List.takeWhile_cons, List.takeWhile_cons, ih]

/-- **A request** is its first line, and the headers behind it. -/
theorem requestHandle_eq (files : Files) (locals : Locals) (hs : Rio.Sound ⟨[], fd⟩)
    (hfd : stream fd ≠ []) : ∃ rio : Rio, rio.Sound ∧
      rio.rest = (takeLine newline (MAXLINE - 1) (stream fd)).2 ∧
      ∀ calls, requestHandle files locals fd calls = handleLine files locals
        (cString (takeLine newline (MAXLINE - 1) (stream fd)).1) rio calls := by
  obtain ⟨rio, hsound, hrest, hread⟩ := readlineb_of_ne_nil hs hfd locals.buf MAXLINE
  refine ⟨rio, hsound, hrest, fun calls ↦ ?_⟩
  rw [requestHandle, hread, ← cString_overwrite locals.buf]
  rfl

/-- The file that is opened or executed. -/
def Effect.name : Effect → Option (List UInt8)
  | put _ _ => none
  | send _ => none
  | opened filename => some filename
  | exec filename _ => some filename

/-- No other file is opened or executed. -/
def Only (filename : List UInt8) (effects : List Effect) : Prop :=
  ∀ e ∈ effects, ∀ name ∈ e.name, name = filename

variable {filename : List UInt8} {effects effects' : List Effect}

theorem only_append : Only filename (effects ++ effects') ↔
    Only filename effects ∧ Only filename effects' := List.forall_mem_append

theorem only_map_put (size : ℕ) (strings : List (List UInt8)) :
    Only filename (strings.map (Effect.put size)) :=
  List.forall_mem_map.2 fun _ _ ↦ nofun

theorem only_grow (size : ℕ) (s : List UInt8) (pieces : List (List UInt8)) :
    Only filename (grow size s pieces) := by
  induction pieces generalizing s with
  | nil => exact List.forall_mem_nil _
  | cons piece pieces ih => exact List.forall_mem_cons.2 ⟨nofun, ih _⟩

theorem only_writeLine (buf : List UInt8) : Only filename (writeLine buf) :=
  List.forall_mem_cons.2 ⟨nofun, List.forall_mem_singleton.2 nofun⟩

theorem only_requestError (cause errnum shortmsg longmsg : List UInt8) :
    Only filename (requestError cause errnum shortmsg longmsg) := by
  simp only [requestError, only_append]
  exact ⟨⟨⟨⟨only_grow _ _ _, only_writeLine _⟩, only_writeLine _⟩, only_writeLine _⟩,
    List.forall_mem_singleton.2 nofun⟩

theorem only_requestServeStatic (files : Files) (filename : List UInt8) (filesize : ℤ) :
    Only filename (requestServeStatic files filename filesize) := by
  rw [requestServeStatic]
  refine List.forall_mem_cons.2 ⟨nofun, List.forall_mem_cons.2 ⟨?_, ?_⟩⟩
  · exact fun name hname ↦ (Option.some.inj hname).symm
  · cases files.content filename with
    | none => exact List.forall_mem_nil _
    | some srcp =>
      refine only_append.2 ⟨only_grow _ _ _, ?_⟩
      exact List.forall_mem_cons.2 ⟨nofun, List.forall_mem_singleton.2 nofun⟩

theorem only_requestServeDynamic (filename cgiargs : List UInt8) :
    Only filename (requestServeDynamic filename cgiargs) := by
  refine only_append.2 ⟨only_grow _ _ _, List.forall_mem_cons.2 ⟨nofun, ?_⟩⟩
  exact List.forall_mem_singleton.2 fun name hname ↦ (Option.some.inj hname).symm

/-- The answer is about the file to which the URI leads. -/
theorem only_answer (files : Files) (locals : Locals) (uri : List UInt8) :
    Only (str "./public" ++ target locals.before uri) (answer files locals uri) := by
  rw [← requestParseURI_filename, answer]
  refine only_append.2 ⟨only_map_put _ _, ?_⟩
  cases files.stat (requestParseURI locals.before uri).filename with
  | none => exact only_requestError _ _ _ _
  | some sbuf =>
    dsimp only
    split_ifs
    · exact only_requestError _ _ _ _
    · exact only_requestServeStatic _ _ _
    · exact only_requestError _ _ _ _
    · exact only_requestServeDynamic _ _

theorem only_handleLine (files : Files) (locals : Locals) (line : List UInt8) (rio : Rio)
    (calls : ℕ) : Only (str "./public" ++ target locals.before (locals.uriOf line))
      (handleLine files locals line rio calls) := by
  rw [handleLine]
  refine only_append.2 ⟨only_map_put _ _, ?_⟩
  split_ifs
  · rcases requestReadhdrs rio locals.headers calls with - | - | rio'
    · exact List.forall_mem_nil _
    · exact List.forall_mem_nil _
    · exact only_answer _ _ _
  · exact only_requestError _ _ _ _

/-- **Nothing outside of `./public`** is opened or executed for a URI that begins with a slash, or
that has `..` in it. -/
theorem requestHandle_contained (hs : Rio.Sound ⟨[], fd⟩) (hfd : stream fd ≠ [])
    (huri : locals.uriOf (cString (takeLine newline (MAXLINE - 1) (stream fd)).1) = uri)
    (hslash : str ".." <:+: uri ∨ uri.head? = some slash) (calls : ℕ) :
    ∀ e ∈ requestHandle files locals fd calls, ∀ name ∈ e.name, Contained name := by
  obtain ⟨rio, -, -, heq⟩ := requestHandle_eq files locals hs hfd
  intro e he name hname
  rw [heq calls] at he
  rw [only_handleLine _ _ _ _ _ e he name hname, huri]
  exact (contained_iff locals.before uri).2 hslash

end WebServer
