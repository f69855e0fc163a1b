import Mathlib.Data.Nat.Notation
import Mathlib.Data.Int.Notation
import Mathlib.Data.Nat.Bitwise

/-!
# The on-disk format and the layout arithmetic of `xv6_fsck`

The records of `fs.h`, read little-endian out of the mapped image, and the arithmetic with which
`main` turns block numbers into addresses. Addresses are written as offsets from `img_ptr`, so a
pointer comparison is a comparison of offsets.

Three widths meet in this arithmetic and all three are kept:

* `BSIZE*addr` of a `uint` is taken modulo `2 ^ 32` (`addrOff`);
* `v*BSIZE` of an `int` is wrapped into the signed range (`entryOff`, through `int32`), as the
  compiled program does, and may be negative;
* `BBLOCK` contains a `sizeof` and is computed in 64 bits, so the start of the data region
  (`dataStart`) does not wrap, while `sb->nblocks*BSIZE` inside `sysEnd` does.

A read beyond the end of the file is not given a value by this file: the readers are total, and
the checker guards each of them with `Image.Readable`.
-/

namespace Fsck

/-! ### Constants of `fs.h` -/

def rootino : ℕ := 1
def bsize : ℕ := 512
def tDir : ℤ := 1
def tFile : ℤ := 2
def tDev : ℤ := 3
def ndirect : ℕ := 12
def nindirect : ℕ := bsize / 4
def dirsiz : ℕ := 14

/-- Inodes per block: `BSIZE / sizeof(struct dinode)`, a dinode taking 64 bytes. -/
def ipb : ℕ := bsize / 64

/-- Bitmap bits per block. -/
def bpb : ℕ := bsize * 8

/-- Block containing the bitmap bit of block `b`. -/
def bblock (b ninodes : ℕ) : ℕ := b / bpb + ninodes / ipb + 3

/-- Directory entries per block: `BSIZE / sizeof(struct dirent)`. -/
def dpb : ℕ := bsize / (2 + dirsiz)

/-- The value of a 32-bit pattern read as an `int`. -/
def int32 (x : ℤ) : ℤ := (x + 2 ^ 31) % 2 ^ 32 - 2 ^ 31

theorem int32_le_of_nonneg {x : ℤ} (hx : 0 ≤ x) : int32 x ≤ x := by
  rw [int32]
  omega

theorem int32_of_lt {x : ℤ} (h₀ : 0 ≤ x) (h : x < 2 ^ 31) : int32 x = x := by
  rw [int32]
  omega

/-! ### Records -/

/-- `struct superblock`. -/
structure Superblock where
  /-- Size of file system image (blocks). -/
  size : ℕ
  /-- Number of data blocks. -/
  nblocks : ℕ
  /-- Number of inodes. -/
  ninodes : ℕ

/-- `struct dinode`, without the device numbers and the byte size, which the checker does not
look at. -/
structure Dinode where
  type : ℤ
  nlink : ℤ
  /-- `addrs[NDIRECT+1]`. -/
  addrs : ℕ → ℕ

/-- `struct dirent`. -/
structure Dirent where
  inum : ℕ
  /-- `name[DIRSIZ]`, not necessarily closed by a NUL. -/
  name : List UInt8
deriving DecidableEq

/-- `0==strcmp(name, s)` for a literal `s` shorter than `DIRSIZ`: the bytes agree up to and
including the NUL that closes `s`. -/
def nameIs (name s : List UInt8) : Prop := name.take (s.length + 1) = s ++ [0]

instance (name s : List UInt8) : Decidable (nameIs name s) :=
  inferInstanceAs (Decidable (name.take (s.length + 1) = s ++ [0]))

namespace Dirent

/-- The entry is named `"."`. -/
def isDot (d : Dirent) : Prop := nameIs d.name [46]

/-- The entry is named `".."`. -/
def isDotDot (d : Dirent) : Prop := nameIs d.name [46, 46]

instance (d : Dirent) : Decidable d.isDot := inferInstanceAs (Decidable (nameIs _ _))

instance (d : Dirent) : Decidable d.isDotDot := inferInstanceAs (Decidable (nameIs _ _))

/-- The entry names something else than the directory itself or its parent. -/
def isProper (d : Dirent) : Prop := ¬ d.isDotDot ∧ ¬ d.isDot

instance (d : Dirent) : Decidable d.isProper := inferInstanceAs (Decidable (_ ∧ _))

end Dirent

/-! ### The mapped image -/

/-- The file as `mmap` shows it: its length `st.st_size` and its bytes. -/
structure Image where
  /-- `st.st_size`. -/
  stSize : ℕ
  byte : ℕ → UInt8

namespace Image

variable (img : Image)

/-- The `len` bytes from offset `off` on lie inside the image. -/
def Readable (off : ℤ) (len : ℕ) : Prop := 0 ≤ off ∧ off + len ≤ img.stSize

instance (off : ℤ) (len : ℕ) : Decidable (img.Readable off len) :=
  inferInstanceAs (Decidable (_ ∧ _))

/-- A `ushort`. -/
def u16 (off : ℕ) : ℕ := (img.byte off).toNat + 256 * (img.byte (off + 1)).toNat

/-- A `uint`. -/
def u32 (off : ℕ) : ℕ := img.u16 off + 65536 * img.u16 (off + 2)

/-- A `short`. -/
def i16 (off : ℕ) : ℤ :=
  if img.u16 off < 2 ^ 15 then img.u16 off else (img.u16 off : ℤ) - 2 ^ 16

theorem u16_lt (off : ℕ) : img.u16 off < 2 ^ 16 := by
  rw [u16]
  have h₀ := (img.byte off).toNat_lt
  have h₁ := (img.byte (off + 1)).toNat_lt
  omega

theorem u32_lt (off : ℕ) : img.u32 off < 2 ^ 32 := by
  rw [u32]
  have h₀ := img.u16_lt off
  have h₁ := img.u16_lt (off + 2)
  omega

/-- An `int`. -/
def word (off : ℕ) : ℤ := int32 (img.u32 off)

theorem word_eq_zero_iff {off : ℕ} : img.word off = 0 ↔ img.u32 off = 0 := by
  have h := img.u32_lt off
  rw [word, int32]
  omega

/-- An `int` that is not negative has the value of its pattern. -/
theorem word_toNat {off : ℕ} (h : 0 ≤ img.word off) : (img.word off).toNat = img.u32 off := by
  have h' := img.u32_lt off
  unfold word int32 at *
  omega

/-- `sb=(struct superblock*)(img_ptr+BSIZE)`. -/
def sb : Superblock := ⟨img.u32 bsize, img.u32 (bsize + 4), img.u32 (bsize + 8)⟩

theorem sb_size_lt : img.sb.size < 2 ^ 32 := img.u32_lt _

theorem sb_ninodes_lt : img.sb.ninodes < 2 ^ 32 := img.u32_lt _

/-- Where inode `i` starts: the inode table starts at block 2. -/
def inodeOff (i : ℕ) : ℕ := 2 * bsize + 64 * i

/-- Inode `i` of the inode table. -/
def dinode (i : ℕ) : Dinode where
  type := img.i16 (inodeOff i)
  nlink := img.i16 (inodeOff i + 6)
  addrs k := img.u32 (inodeOff i + 12 + 4 * k)

/-- The directory entry at offset `off`. -/
def dirent (off : ℕ) : Dirent where
  inum := img.u16 off
  name := (List.range dirsiz).map fun k ↦ img.byte (off + 2 + k)

/-! ### Layout arithmetic of `main` -/

/-- `int bitblocks = sb->size/(512*8) + 1`. -/
def bitblocks : ℕ := img.sb.size / (512 * 8) + 1

/-- `int usedblocks = bitblocks+BBLOCK(0,sb->ninodes)`. -/
def usedblocks : ℤ := int32 (img.bitblocks + bblock 0 img.sb.ninodes)

/-- `int totalblocks=usedblocks+sb->nblocks`. -/
def totalblocks : ℤ := int32 (img.usedblocks + img.sb.nblocks)

/-- Offset of `bitStart`: the bitmap. -/
def bitStart : ℕ := bblock 0 img.sb.ninodes * bsize

/-- Offset of `dataStart`: the data blocks. -/
def dataStart : ℕ := bblock 0 img.sb.ninodes * bsize + img.bitblocks * bsize

/-- Offset of `sysEnd`; `sb->nblocks*BSIZE` is a `uint` product. -/
def sysEnd : ℕ := img.dataStart + img.sb.nblocks * bsize % 2 ^ 32

/-- First data block. -/
def firstData : ℕ := bblock 0 img.sb.ninodes + img.bitblocks

theorem dataStart_eq : img.dataStart = img.firstData * bsize := by
  rw [dataStart, firstData, Nat.add_mul]

end Image

/-- `BSIZE*addr` for a `uint` address. -/
def addrOff (addr : ℕ) : ℕ := bsize * addr % 2 ^ 32

/-- `v*BSIZE` for an `int` address, as the signed offset the pointer addition uses. -/
def entryOff (v : ℤ) : ℤ := int32 (v * bsize)

namespace Image

variable (img : Image)

/-- The range test of `main`, on an offset: neither above `sysEnd` nor below `dataStart`. -/
def InRange (off : ℤ) : Prop := ¬ ((img.sysEnd : ℤ) < off ∨ off < img.dataStart)

instance (off : ℤ) : Decidable (img.InRange off) := inferInstanceAs (Decidable (¬ _))

/-- A `uint` address that passes the range test is not a metadata block. -/
theorem firstData_le_of_inRange {addr : ℕ} (h : img.InRange (addrOff addr)) :
    img.firstData ≤ addr := by
  have hd := img.dataStart_eq
  have hle : bsize * addr % 2 ^ 32 ≤ bsize * addr := Nat.mod_le _ _
  rw [InRange, addrOff] at h
  unfold bsize at *
  omega

/-- An `int` address that is not negative and passes the range test is not a metadata block. -/
theorem firstData_le_of_inRange_entry {v : ℤ} (hv : 0 ≤ v) (h : img.InRange (entryOff v)) :
    (img.firstData : ℤ) ≤ v := by
  have hd := img.dataStart_eq
  have hle : int32 (v * bsize) ≤ v * bsize := int32_le_of_nonneg (by unfold bsize; omega)
  rw [InRange, entryOff] at h
  unfold bsize at *
  omega

/-! ### Bitmap bits -/

/-- The byte of the bitmap that holds the bit of block `b`. -/
def bitByte (b : ℕ) : UInt8 := img.byte (img.bitStart + b / 8)

/-- Block `b` is marked in the on-disk bitmap: its bit lies in the image and is set. -/
def Marked (b : ℕ) : Prop :=
  img.bitStart + b / 8 < img.stSize ∧ (img.bitByte b).toNat.testBit (b % 8)

instance (b : ℕ) : Decidable (img.Marked b) := inferInstanceAs (Decidable (_ ∧ _))

end Image

/-- `*((char*)p)` widened to `int`, as a 32-bit pattern: `char` is signed. -/
def charToInt (c : UInt8) : ℕ := if c.toNat < 128 then c.toNat else c.toNat + (2 ^ 32 - 2 ^ 8)

/-- The bit test of the address checks, `(0x1<<(b%8))!=(c&(0x1<<(b%8)))`, negated. -/
def bitSet (c : UInt8) (b : ℕ) : Prop := 1 <<< (b % 8) = charToInt c &&& 1 <<< (b % 8)

instance (c : UInt8) (b : ℕ) : Decidable (bitSet c b) := inferInstanceAs (Decidable (_ = _))

/-- Sign extension does not reach the bits the mask selects. -/
theorem charToInt_testBit (c : UInt8) {k : ℕ} (hk : k < 8) :
    (charToInt c).testBit k = c.toNat.testBit k := by
  rw [charToInt]
  split
  · rfl
  · have h : c.toNat + (2 ^ 32 - 2 ^ 8) = 2 ^ 8 * (2 ^ 24 - 1) + c.toNat := by omega
    rw [h, Nat.testBit_two_pow_mul_add _ c.toNat_lt, if_pos hk]

/-- The masked comparison of the address checks is a test of one bit. -/
theorem bitSet_iff (c : UInt8) (b : ℕ) : bitSet c b ↔ c.toNat.testBit (b % 8) := by
  have hk : b % 8 < 8 := Nat.mod_lt _ (by omega)
  rw [bitSet, Nat.one_shiftLeft, Nat.and_two_pow, charToInt_testBit c hk]
  cases h : c.toNat.testBit (b % 8)
  · simp
  · simp

/-- The bit test of the final scan, `(c>>(b%8))&0x1`. -/
theorem shiftRight_and_one (c b : ℕ) : (c >>> (b % 8)) &&& 1 ≠ 0 ↔ c.testBit (b % 8) := by
  rw [Nat.testBit, Nat.and_comm]
  simp

end Fsck
