import Mathlib.Algebra.Order.Ring.Int
import Cs537OS.Foundation.BothEnds

/-!
# shuffle

The program reads a file into a block of its size, `readtotal`, and writes its lines by turns from
the front and from the back. Two cursors, `i` and `j`, close in on each other: the program looks for
the end of the line at `i` or for the start of the line that ends at `j`, copies the line to the
buffer `change`, writes the string that is there and sets it to zero again.

A block is the list of the bytes that may be read; a step that reads or writes outside of one stops
the run. The command line, the opening of the files and the errors of reading are left out, and
`fwrite` writes what it is given. `strlen` returns a `size_t`, and the program keeps it as an `int`;
the other numbers are indices into the block.
-/

namespace Shuffle

def newline : UInt8 := 10

/-- The size of `change`. -/
def changeSize : ℕ := 512

/-- Why a run stops before its end. -/
inductive Stop where
  /-- An access outside of a block. -/
  | outside
  /-- `Failed to write`: the string is empty. -/
  | failed
deriving DecidableEq

/-- How far from the start of the bytes the byte `b` is: a loop that reads on until it finds it. -/
def scan (b : UInt8) : List UInt8 → Except Stop ℕ
  | [] => .error .outside
  | x :: xs => if x = b then .ok 0 else (scan b xs).map (· + 1)

/-- The length of the string at the start of a block. -/
def strlen (block : List UInt8) : Except Stop ℕ := scan 0 block

/-- How many bytes before index `curcount` the loop passes that looks for a newline backwards. -/
def scanBack (readtotal : List UInt8) : ℕ → Except Stop ℕ
  | 0 => .error .outside
  | curcount + 1 =>
    match readtotal[curcount]? with
    | none => .error .outside
    | some b => if b = newline then .ok 0 else (scanBack readtotal curcount).map (· + 1)

/-- Copy `len` bytes of `readtotal` to the start of `change`. -/
def memcpy (change readtotal : List UInt8) (start len : ℕ) : Except Stop (List UInt8) :=
  if start + len ≤ readtotal.length ∧ len ≤ change.length then
    .ok ((readtotal.drop start).take len ++ change.drop len)
  else
    .error .outside

/-- Write the string in `change` and set it to zero: what is written, and `change` after it. -/
def fwrite (change : List UInt8) : Except Stop (List UInt8 × List UInt8) :=
  (strlen change).bind fun n ↦
    if n = 0 then .error .failed else .ok (change.take n, List.replicate n 0 ++ change.drop n)

/-- Whose turn it is. -/
inductive Turn where
  | front
  | back
deriving DecidableEq

structure State where
  i : ℕ
  j : ℤ
  turn : Turn
  change : List UInt8
  output : List UInt8

/-- The loop over the lines. -/
def loop (readtotal : List UInt8) (s : State) : Except Stop (List UInt8) :=
  if s.i ≤ s.j then
    match s.turn with
    | .front =>
      (scan newline (readtotal.drop s.i)).bind fun n ↦
        (memcpy s.change readtotal s.i (n + 1)).bind fun change ↦
          (fwrite change).bind fun (line, change) ↦
            loop readtotal
              { s with i := s.i + n + 1, turn := .back, change, output := s.output ++ line }
    | .back =>
      (scanBack readtotal s.j.toNat).bind fun n ↦
        (memcpy s.change readtotal (s.j.toNat - n) (n + 1)).bind fun change ↦
          (fwrite change).bind fun (line, change) ↦
            loop readtotal
              { s with j := s.j - n - 1, turn := .front, change, output := s.output ++ line }
  else
    .ok s.output
termination_by (s.j + 1 - s.i).toNat

/-- The program after the file has been read: what it writes. -/
def shuffle (readtotal change : List UInt8) : Except Stop (List UInt8) :=
  (strlen readtotal).bind fun n ↦
    loop readtotal ⟨0, ((n : ℤ) - 1).bmod (2 ^ 32), .front, change, []⟩

end Shuffle
