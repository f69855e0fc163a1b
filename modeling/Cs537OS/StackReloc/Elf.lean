import Cs537OS.Xv6.Basic

/-!
# Program files

What `exec` reads of a file: the ELF header and the program headers. Their fields are whatever
numbers the bytes of the file make up, so a header is read from the bytes here and nothing is known
about it but that its fields are `uint`s.

A file is one of the file system, whose size is at most `MAXFILE` blocks. Device files, which are
read by their drivers, are left out.
-/

open Xv6

namespace StackReloc.Elf

/-- Block size. -/
def BSIZE : ℕ := 512

/-- The most blocks of a file: the direct ones and those of the indirect block. -/
def MAXFILE : ℕ := 12 + BSIZE / 4

structure File where
  byte : ℕ → UInt8
  size : ℕ
  size_le : size ≤ MAXFILE * BSIZE

def ELF_MAGIC : ℕ := 0x464C457F

def ELF_PROG_LOAD : ℕ := 1

/-- File header. -/
structure Elfhdr where
  magic : ℕ
  entry : ℕ
  phoff : ℕ
  phnum : ℕ
deriving DecidableEq

def Elfhdr.sizeof : ℕ := 52

/-- Program section header. -/
structure Proghdr where
  type : ℕ
  offset : ℕ
  va : ℕ
  filesz : ℕ
  memsz : ℕ
deriving DecidableEq

def Proghdr.sizeof : ℕ := 32

namespace File

/-- Read `n` bytes at `off`: how many bytes are read, or -1 for an offset that is out of range. -/
def readi (f : File) (off n : ℕ) : ℤ :=
  if off > f.size ∨ uint (off + n) < off then
    -1
  else if uint (off + n) > f.size then
    f.size - off
  else
    n

/-- The `k` bytes at `off` as a number, the lowest byte first. -/
def num (f : File) (off : ℕ) : ℕ → ℕ
  | 0 => 0
  | k + 1 => (f.byte off).toNat + 256 * f.num (off + 1) k

def elfhdr (f : File) : Elfhdr where
  magic := f.num 0 4
  entry := f.num 24 4
  phoff := f.num 28 4
  phnum := f.num 44 2

/-- The program header at `off`, if it can be read in full. -/
def proghdr (f : File) (off : ℕ) : Option Proghdr :=
  if f.readi off Proghdr.sizeof ≠ Proghdr.sizeof then
    none
  else
    some
      { type := f.num off 4
        offset := f.num (off + 4) 4
        va := f.num (off + 8) 4
        filesz := f.num (off + 16) 4
        memsz := f.num (off + 20) 4 }

/-- The program headers that the loop of `exec` reads in turn. -/
def phdrs (f : File) : List (Option Proghdr) :=
  (List.range f.elfhdr.phnum).map fun (i : ℕ) ↦
    f.proghdr (uint (f.elfhdr.phoff + i * Proghdr.sizeof))

/-- The two checks of the ELF header pass. -/
def IsElf (f : File) : Prop :=
  Elfhdr.sizeof ≤ uint (f.readi 0 Elfhdr.sizeof) ∧ f.elfhdr.magic = ELF_MAGIC

instance (f : File) : Decidable f.IsElf := inferInstanceAs (Decidable (_ ∧ _))

variable {f : File} {off n : ℕ}

theorem num_lt (f : File) (off k : ℕ) : f.num off k < 256 ^ k := by
  induction k generalizing off with
  | zero => exact Nat.one_pos
  | succ k ih =>
    have hbyte : (f.byte off).toNat < 256 := (f.byte off).toNat_lt
    have hrest : f.num (off + 1) k < 256 ^ k := ih (off + 1)
    show (f.byte off).toNat + 256 * f.num (off + 1) k < 256 ^ (k + 1)
    rw [pow_succ]
    omega

/-- The place of a segment in the file is a `uint`. -/
theorem offset_lt {ph : Proghdr} (h : some ph ∈ f.phdrs) : ph.offset < 2 ^ 32 := by
  obtain ⟨i, -, hi⟩ := List.mem_map.1 h
  rw [proghdr] at hi
  split at hi
  · cases hi
  · cases hi
    exact f.num_lt _ 4

/-- Past the end of the file there is nothing to read. -/
theorem readi_of_lt (h : f.size < off) : f.readi off n = -1 :=
  if_pos (.inl h)

/-- A block that starts in the file is read up to the end of the file. -/
theorem readi_of_le (h : off ≤ f.size) (hn : n < 2 ^ 31) :
    f.readi off n = min (n : ℤ) (f.size - off) := by
  have hsize : f.size ≤ 71680 := f.size_le
  have hsum : uint ((off : ℤ) + n) = off + n := uint_add (by omega)
  rw [readi, if_neg (by rw [hsum]; omega), hsum]
  split_ifs with hend <;> omega

/-- A block is read in full when it lies in the file. -/
theorem readi_eq_iff (hn : n < 2 ^ 31) : f.readi off n = n ↔ off + n ≤ f.size := by
  rcases Nat.lt_or_ge f.size off with hlt | hge
  · rw [readi_of_lt hlt]
    omega
  · rw [readi_of_le hge hn]
    omega

/-- Anything is read of a block when it begins in the file. -/
theorem readi_pos_iff (hn : n < 2 ^ 31) (hpos : n ≠ 0) : 0 < f.readi off n ↔ off < f.size := by
  rcases Nat.lt_or_ge f.size off with hlt | hge
  · rw [readi_of_lt hlt]
    omega
  · rw [readi_of_le hge hn]
    omega

end File

end StackReloc.Elf
