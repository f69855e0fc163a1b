import Cs537OS.Foundation.BoundedLines
import Mathlib.Data.Int.Notation

/-!
# Reading from a connection

The Rio package reads a connection through a buffer of its own. What the connection brings until the
client closes it is a list of arrivals: each `read` gets the first one that is left, as far as it
fits into the buffer. `rio_cnt` and `rio_bufptr` are the list of the bytes that are not read yet.

* `readlineb_of_ne_nil` — how the stream arrives makes no difference to `Rio_readlineb`: it stores
  the next line of the stream, cut at `maxlen - 1` bytes;
* `readlineb_of_nil` — at the end of the stream it leaves the array of the caller as it is.
-/

open BoundedLines (takeLine)

namespace WebServer

def RIO_BUFSIZE : ℕ := 8192

def MAXLINE : ℕ := 8192

def MAXBUF : ℕ := 8192

def newline : UInt8 := 10

/-- What a `read` of the connection comes to. -/
inductive Arrival
  | bytes (b : UInt8) (bs : List UInt8)
  /-- `EINTR`. -/
  | interrupted
  /-- Another error. -/
  | failed
deriving DecidableEq

/-- A connection with its buffer. -/
structure Rio where
  /-- `rio_cnt` bytes from `rio_bufptr` on. -/
  unread : List UInt8
  conn : List Arrival

/-- The bytes that are left of an arrival come first. -/
def arrive : List UInt8 → List Arrival → List Arrival
  | [], conn => conn
  | b :: bs, conn => .bytes b bs :: conn

/-- The loop of `rio_read` that fills the buffer, and whether it succeeds. -/
def refill : List Arrival → Bool × Rio
  | [] => (true, ⟨[], []⟩)
  | .interrupted :: conn => refill conn
  | .failed :: conn => (false, ⟨[], conn⟩)
  | .bytes b bs :: conn =>
    (true, ⟨(b :: bs).take RIO_BUFSIZE, arrive ((b :: bs).drop RIO_BUFSIZE) conn⟩)

/-- `rio_read`: the bytes that are copied to the caller; `none` stands for `-1`. -/
def rioRead (rp : Rio) (n : ℕ) : Option (List UInt8) × Rio :=
  let r := if rp.unread = [] then refill rp.conn else (true, rp)
  if r.1 then (some (r.2.unread.take n), { r.2 with unread := r.2.unread.drop n })
  else (none, r.2)

/-- Bytes are stored at the start of an array. -/
def overwrite (usrbuf bytes : List UInt8) : List UInt8 := bytes ++ usrbuf.drop bytes.length

/-- The loop of `rio_readlineb`, with the turns that are left and the bytes that are stored: the
result, the array and the connection. The counter `n` is the number of bytes and one. -/
def readlineLoop (usrbuf : List UInt8) : ℕ → List UInt8 → Rio → ℤ × List UInt8 × Rio
  | 0, line, rp => (line.length + 1, overwrite usrbuf (line ++ [0]), rp)
  | turns + 1, line, rp =>
    match rioRead rp 1 with
    | (none, rp) => (-1, overwrite usrbuf line, rp)
    | (some [], rp) =>
      if line = [] then (0, usrbuf, rp)
      else (line.length + 1, overwrite usrbuf (line ++ [0]), rp)
    | (some (c :: _), rp) =>
      if c = newline then (line.length + 1, overwrite usrbuf (line ++ [c] ++ [0]), rp)
      else readlineLoop usrbuf turns (line ++ [c]) rp

/-- `rio_readlineb`. -/
def rioReadlineb (rp : Rio) (usrbuf : List UInt8) (maxlen : ℕ) : ℤ × List UInt8 × Rio :=
  readlineLoop usrbuf (maxlen - 1) [] rp

/-- `Rio_readlineb`; after an error the process exits. -/
def Rio.readlineb (rp : Rio) (usrbuf : List UInt8) (maxlen : ℕ) : Option (List UInt8 × Rio) :=
  if (rioReadlineb rp usrbuf maxlen).1 < 0 then none else some (rioReadlineb rp usrbuf maxlen).2

/-! ### The stream -/

/-- The bytes that a connection brings. -/
def stream : List Arrival → List UInt8
  | [] => []
  | .bytes b bs :: conn => b :: bs ++ stream conn
  | .interrupted :: conn => stream conn
  | .failed :: conn => stream conn

namespace Rio

/-- What is not read yet. -/
def rest (rp : Rio) : List UInt8 := rp.unread ++ stream rp.conn

/-- No `read` fails. -/
def Sound (rp : Rio) : Prop := ∀ e ∈ rp.conn, e ≠ .failed

instance (rp : Rio) : Decidable rp.Sound :=
  inferInstanceAs (Decidable (∀ e ∈ rp.conn, e ≠ .failed))

end Rio

variable {rp : Rio} {conn : List Arrival} {usrbuf bytes line : List UInt8} {maxlen turns : ℕ}

theorem stream_arrive : stream (arrive bytes conn) = bytes ++ stream conn := by
  cases bytes <;> rfl

theorem sound_arrive (hs : ∀ e ∈ conn, e ≠ .failed) : ∀ e ∈ arrive bytes conn, e ≠ .failed := by
  cases bytes with
  | nil => exact hs
  | cons b bs => exact List.forall_mem_cons.2 ⟨nofun, hs⟩

/-- The buffer is filled with what comes first, if anything does. -/
theorem refill_spec (hs : ∀ e ∈ conn, e ≠ .failed) : ∃ rp : Rio, refill conn = (true, rp) ∧
    rp.Sound ∧ rp.rest = stream conn ∧ (rp.unread = [] → stream conn = []) := by
  induction conn with
  | nil => exact ⟨_, rfl, hs, rfl, fun _ ↦ rfl⟩
  | cons e conn ih =>
    obtain ⟨he, hconn⟩ := List.forall_mem_cons.1 hs
    cases e with
    | failed => exact absurd rfl he
    | interrupted => exact ih hconn
    | bytes b bs =>
      refine ⟨_, rfl, sound_arrive hconn, ?_, fun hnil ↦ ?_⟩
      · rw [Rio.rest, stream_arrive, ← List.append_assoc, List.take_append_drop]
        rfl
      · cases hnil

/-- `rio_read` copies from a buffer that has a byte, unless nothing is left. -/
theorem fill_spec (hs : rp.Sound) : ∃ r : Rio,
    (if rp.unread = [] then refill rp.conn else (true, rp)) = (true, r) ∧ r.Sound ∧
      r.rest = rp.rest ∧ (r.unread = [] → rp.rest = []) := by
  by_cases hunread : rp.unread = []
  · obtain ⟨r, hfill, hsound, hrest, hnil⟩ := refill_spec hs
    have hstream : rp.rest = stream rp.conn := by rw [Rio.rest, hunread, List.nil_append]
    rw [if_pos hunread, hstream]
    exact ⟨r, hfill, hsound, hrest, hnil⟩
  · exact ⟨rp, if_neg hunread, hs, rfl, fun h ↦ absurd h hunread⟩

/-- `rio_read` of one byte gets the next byte of the stream. -/
theorem rioRead_one (hs : rp.Sound) : ∃ rp' : Rio, rp'.Sound ∧
    rioRead rp 1 = (some (rp.rest.take 1), rp') ∧ rp'.rest = rp.rest.drop 1 := by
  obtain ⟨⟨unread, conn⟩, hfill, hsound, hrest, hnil⟩ := fill_spec hs
  cases unread with
  | nil =>
    have hempty : rp.rest = [] := hnil rfl
    refine ⟨⟨[], conn⟩, hsound, ?_, ?_⟩
    · rw [rioRead, hfill, hempty]
      rfl
    · rw [hempty]
      exact hrest.trans hempty
  | cons b bs =>
    refine ⟨⟨bs, conn⟩, hsound, ?_, ?_⟩
    · rw [rioRead, hfill, ← hrest]
      rfl
    · rw [← hrest]
      rfl

/-- The loop stores the next line of the stream. -/
theorem readlineLoop_spec (hs : rp.Sound) (h : turns = 0 ∨ line ≠ [] ∨ rp.rest ≠ []) :
    ∃ rp' : Rio, rp'.Sound ∧ rp'.rest = (takeLine newline turns rp.rest).2 ∧
      ∃ n : ℤ, 0 ≤ n ∧ readlineLoop usrbuf turns line rp =
        (n, overwrite usrbuf (line ++ (takeLine newline turns rp.rest).1 ++ [0]), rp') := by
  induction turns generalizing line rp with
  | zero =>
    refine ⟨rp, hs, rfl, line.length + 1, by omega, ?_⟩
    rw [readlineLoop, takeLine, List.append_nil]
  | succ turns ih =>
    obtain ⟨rp', hsound, hread, hrest⟩ := rioRead_one hs
    rw [readlineLoop, hread]
    -- at the end of the stream the loop stops with what it has read before
    cases hnext : rp.rest with
    | nil =>
      have hline : line ≠ [] := by
        rcases h with h | h | h
        · cases h
        · exact h
        · exact absurd hnext h
      refine ⟨rp', hsound, hrest.trans (by rw [hnext]; rfl), line.length + 1, by omega, ?_⟩
      rw [takeLine, List.append_nil]
      exact if_neg hline
    | cons c rest =>
      rw [hnext] at hrest
      have hrest : rp'.rest = rest := hrest
      rcases eq_or_ne c newline with rfl | hc
      · refine ⟨rp', hsound, ?_, line.length + 1, by omega, ?_⟩
        · rw [BoundedLines.takeLine_cons_self]
          exact hrest
        · rw [BoundedLines.takeLine_cons_self]
          exact if_pos rfl
      · have hstored : line ++ [c] ≠ [] :=
          List.append_ne_nil_of_right_ne_nil line (List.cons_ne_nil c [])
        obtain ⟨rp'', hsound', hrest', n, hn, hloop⟩ := ih hsound (.inr (.inl hstored))
        rw [BoundedLines.takeLine_cons_of_ne hc, ← hrest]
        refine ⟨rp'', hsound', hrest', n, hn, ?_⟩
        rw [List.append_cons line c, ← hloop]
        exact if_neg hc

/-- **A line is read.** -/
theorem readlineb_of_ne_nil (hs : rp.Sound) (hrest : rp.rest ≠ []) (usrbuf : List UInt8)
    (maxlen : ℕ) : ∃ rp' : Rio, rp'.Sound ∧ rp'.rest = (takeLine newline (maxlen - 1) rp.rest).2 ∧
      rp.readlineb usrbuf maxlen =
        some (overwrite usrbuf ((takeLine newline (maxlen - 1) rp.rest).1 ++ [0]), rp') := by
  obtain ⟨rp', hsound, hleft, n, hn, (hloop : readlineLoop usrbuf (maxlen - 1) [] rp = _)⟩ :=
    readlineLoop_spec hs (.inr (.inr hrest))
  refine ⟨rp', hsound, hleft, ?_⟩
  rw [Rio.readlineb, rioReadlineb, hloop, if_neg (Int.not_lt.2 hn), List.nil_append]

/-- **At the end of the stream nothing is stored.** -/
theorem readlineb_of_nil (hs : rp.Sound) (hrest : rp.rest = []) (usrbuf : List UInt8)
    (hmax : 1 < maxlen) : ∃ rp' : Rio, rp'.Sound ∧ rp'.rest = [] ∧
      rp.readlineb usrbuf maxlen = some (usrbuf, rp') := by
  obtain ⟨turns, hturns⟩ : ∃ turns, maxlen - 1 = turns + 1 := ⟨maxlen - 2, by omega⟩
  obtain ⟨rp', hsound, hread, hleft⟩ := rioRead_one hs
  rw [hrest] at hread hleft
  have hloop : rioReadlineb rp usrbuf maxlen = (0, usrbuf, rp') := by
    rw [rioReadlineb, hturns, readlineLoop, hread]
    exact if_pos rfl
  refine ⟨rp', hsound, hleft, ?_⟩
  rw [Rio.readlineb, hloop]
  exact if_neg (Int.lt_irrefl 0)

end WebServer
