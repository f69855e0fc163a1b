import Cs537OS.Foundation.LittleEndian
import Mathlib.Data.Nat.Bitwise
import Mathlib.Tactic.SplitIfs

/-!
# The disk and its free blocks

The disk is a sequence of blocks: an unused one, the superblock, the inodes, the bitmap with a bit
for each block, and the data blocks. Every block is read and written as a whole, through the buffer
cache, so the disk here is what the cache shows.

`balloc` takes the first block whose bit is clear and sets the bit; it does not clear the block.
`bfree` clears the block and then its bit.

* `isFree_mark`, `isFree_unmark` — the bits of a bitmap block;
* `balloc_cases` — what `balloc` does to the marks;
* `bfree_ok` — and what `bfree` does.
-/

namespace FileSys

open LittleEndian

/-- Block size. -/
def BSIZE : ℕ := 512

/-- Inodes per block, of 64 bytes each. -/
def IPB : ℕ := BSIZE / 64

/-- Bitmap bits per block. -/
def BPB : ℕ := BSIZE * 8

/-- Block containing inode `i`. -/
def IBLOCK (i : ℕ) : ℕ := i / IPB + 2

/-- Block containing bit for block `b`. -/
def BBLOCK (b ninodes : ℕ) : ℕ := b / BPB + ninodes / IPB + 3

/-- A block, by the offsets of its bytes. Only those below `BSIZE` mean something. -/
abbrev Block := ℕ → UInt8

abbrev Disk := ℕ → Block

/-- The disk with a block written. -/
def Disk.bwrite (d : Disk) (b : ℕ) (data : Block) : Disk := Function.update d b data

/-- File system super block. -/
structure Superblock where
  /-- Size of file system image (blocks). -/
  size : ℕ
  /-- Number of data blocks. -/
  nblocks : ℕ
  /-- Number of inodes. -/
  ninodes : ℕ
deriving DecidableEq

/-- Read the super block. -/
def readsb (d : Disk) : Superblock := ⟨value (d 1) 0 4, value (d 1) 4 4, value (d 1) 8 4⟩

/-- Zero a block. -/
def bzero (d : Disk) (bno : ℕ) : Disk := d.bwrite bno fun _ ↦ 0

/-! ### The bits -/

/-- `m = 1 << (bi % 8)`. -/
def mask (bi : ℕ) : UInt8 := .ofNat (2 ^ (bi % 8))

/-- `(bp->data[bi/8] & m) == 0`. -/
def isFree (data : Block) (bi : ℕ) : Bool := data (bi / 8) &&& mask bi == 0

/-- `bp->data[bi/8] |= m`. -/
def mark (data : Block) (bi : ℕ) : Block :=
  Function.update data (bi / 8) (data (bi / 8) ||| mask bi)

/-- `bp->data[bi/8] &= ~m`. -/
def unmark (data : Block) (bi : ℕ) : Block :=
  Function.update data (bi / 8) (data (bi / 8) &&& ~~~ mask bi)

theorem mask_toNat (bi : ℕ) : (mask bi).toNat = 2 ^ (bi % 8) := by
  have hlt : bi % 8 < 8 := Nat.mod_lt _ (by decide)
  rw [mask, UInt8.toNat_ofNat', Nat.mod_eq_of_lt]
  exact Nat.pow_lt_pow_right (by decide) hlt

/-- A bit is clear. -/
theorem and_mask_beq (x : UInt8) (bi : ℕ) :
    (x &&& mask bi == 0) = !x.toNat.testBit (bi % 8) := by
  rw [Bool.eq_iff_iff, beq_iff_eq, ← UInt8.toNat_inj, UInt8.toNat_and, mask_toNat,
    Nat.and_two_pow, Bool.not_eq_true']
  cases x.toNat.testBit (bi % 8)
  · simp
  · simp

theorem isFree_eq (data : Block) (bi : ℕ) :
    isFree data bi = !(data (bi / 8)).toNat.testBit (bi % 8) := and_mask_beq _ _

theorem isFree_mark (data : Block) (i j : ℕ) :
    isFree (mark data i) j = (isFree data j && decide (j ≠ i)) := by
  rw [isFree_eq, isFree_eq, mark]
  rcases eq_or_ne (j / 8) (i / 8) with hbyte | hbyte
  · rw [hbyte, Function.update_self, UInt8.toNat_or, mask_toNat, Nat.testBit_or,
      Nat.testBit_two_pow, Bool.not_or]
    have hbit : (!decide (i % 8 = j % 8)) = decide (j ≠ i) := by
      rw [← decide_not, decide_eq_decide]
      omega
    rw [hbit]
  · rw [Function.update_of_ne hbyte]
    have hne : j ≠ i := by
      rintro rfl
      exact hbyte rfl
    rw [decide_eq_true hne, Bool.and_true]

theorem isFree_unmark (data : Block) (i j : ℕ) :
    isFree (unmark data i) j = (isFree data j || decide (j = i)) := by
  rw [isFree_eq, isFree_eq, unmark]
  rcases eq_or_ne (j / 8) (i / 8) with hbyte | hbyte
  · have hmask : (~~~ mask i).toNat = 2 ^ 8 - (2 ^ (i % 8) + 1) := by
      rw [UInt8.toNat_not, mask_toNat, Nat.sub_sub, Nat.add_comm]
      rfl
    have hlt : 2 ^ (i % 8) < 2 ^ 8 :=
      Nat.pow_lt_pow_right (by decide) (Nat.mod_lt _ (by decide))
    have hj : j % 8 < 8 := Nat.mod_lt _ (by decide)
    rw [hbyte, Function.update_self, UInt8.toNat_and, hmask, Nat.testBit_and,
      Nat.testBit_two_pow_sub_succ hlt, Nat.testBit_two_pow, Bool.not_and, decide_eq_true hj,
      Bool.true_and, Bool.not_not]
    have hbit : decide (i % 8 = j % 8) = decide (j = i) := by
      rw [decide_eq_decide]
      omega
    rw [hbit]
  · rw [Function.update_of_ne hbyte]
    have hne : j ≠ i := by
      rintro rfl
      exact hbyte rfl
    rw [decide_eq_false hne, Bool.or_false]

/-! ### Allocation -/

/-- The first clear bit of the bitmap block that begins with block `b`, below `bound`. -/
def findFree (d : Disk) (sb : Superblock) (b : ℕ) : Option ℕ :=
  let bound := if b + BPB > sb.size then sb.size % BPB else BPB
  (List.range bound).find? (isFree (d (BBLOCK b sb.ninodes)))

/-- Allocate a disk block: its number, or 0. -/
def balloc (d : Disk) : ℕ × Disk :=
  let sb := readsb d
  let found := (List.range ((sb.size + (BPB - 1)) / BPB)).findSome? fun j ↦
    (findFree d sb (j * BPB)).map (Prod.mk (j * BPB))
  match found with
  | some (b, bi) =>
    (b + bi, d.bwrite (BBLOCK b sb.ninodes) (mark (d (BBLOCK b sb.ninodes)) bi))
  | none => (0, d)

/-- Free a disk block. -/
def bfree (d : Disk) (b : ℕ) : Except String Disk :=
  let d := bzero d b
  let sb := readsb d
  let bp := BBLOCK b sb.ninodes
  let bi := b % BPB
  if isFree (d bp) bi then .error "freeing free block"
  else .ok (d.bwrite bp (unmark (d bp) bi))

/-- The bit of a block is set. -/
def marked (d : Disk) (b : ℕ) : Bool := !isFree (d (BBLOCK b (readsb d).ninodes)) (b % BPB)

/-- The first data block: the bitmap has `size / BPB + 1` blocks. -/
def Superblock.dataStart (sb : Superblock) : ℕ := sb.size / BPB + sb.ninodes / IPB + 4

variable {d d' : Disk} {sb : Superblock} {b c : ℕ}

theorem BPB_eq : BPB = 4096 := rfl

theorem IPB_eq : IPB = 8 := rfl

theorem BBLOCK_lt_dataStart (h : b ≤ sb.size) : BBLOCK b sb.ninodes < sb.dataStart := by
  rw [BBLOCK, Superblock.dataStart]
  have hdiv := Nat.div_le_div_right (c := BPB) h
  omega

theorem four_le_dataStart (sb : Superblock) : 4 ≤ sb.dataStart := Nat.le_add_left ..

/-- The inodes and the bitmap are before the data blocks. -/
theorem table_le_dataStart (sb : Superblock) : sb.ninodes / IPB + 4 ≤ sb.dataStart := by
  rw [Superblock.dataStart, Nat.add_assoc]
  exact Nat.le_add_left ..

theorem three_le_BBLOCK (b n : ℕ) : 3 ≤ BBLOCK b n := Nat.le_add_left ..

theorem readsb_bwrite {data : Block} (hb : b ≠ 1) : readsb (d.bwrite b data) = readsb d := by
  rw [readsb, readsb, Disk.bwrite, Function.update_of_ne hb.symm]

/-- Writing a block that is not one of the bitmap does not change the marks. -/
theorem marked_bwrite {data : Block} (hb : b ≠ 1) (hne : BBLOCK c (readsb d).ninodes ≠ b) :
    marked (d.bwrite b data) c = marked d c := by
  rw [marked, readsb_bwrite hb, Disk.bwrite, Function.update_of_ne hne, ← marked]

/-- Setting and clearing one bit. -/
theorem marked_bitmap {f : Block → Block} (i : ℕ)
    (hother : ∀ j, j ≠ i % BPB → isFree (f (d (BBLOCK i (readsb d).ninodes))) j =
      isFree (d (BBLOCK i (readsb d).ninodes)) j) (hc : c ≠ i) :
    marked (d.bwrite (BBLOCK i (readsb d).ninodes) (f (d (BBLOCK i (readsb d).ninodes)))) c =
      marked d c := by
  have hone : BBLOCK i (readsb d).ninodes ≠ 1 := by
    have hle := three_le_BBLOCK i (readsb d).ninodes
    omega
  rcases eq_or_ne (BBLOCK c (readsb d).ninodes) (BBLOCK i (readsb d).ninodes) with heq | hne
  · have hmod : c % BPB ≠ i % BPB := by
      rw [BBLOCK, BBLOCK] at heq
      have hc' := Nat.div_add_mod c BPB
      have hi' := Nat.div_add_mod i BPB
      have hdiv : c / BPB = i / BPB := by omega
      rw [hdiv] at hc'
      omega
    rw [marked, readsb_bwrite hone, heq, Disk.bwrite, Function.update_self, hother _ hmod, ← heq,
      ← marked]
  · exact marked_bwrite hone hne

/-- What `balloc` finds is a block of the file system that is not marked. -/
theorem findFree_some {i : ℕ} {j : ℕ} (h : findFree d sb (j * BPB) = some i) :
    i < BPB ∧ (j * BPB < sb.size → j * BPB + i < sb.size) ∧
      isFree (d (BBLOCK (j * BPB) sb.ninodes)) i = true := by
  rw [findFree] at h
  have hfree := List.find?_some h
  have hmem := List.mem_range.1 (List.mem_of_find?_eq_some h)
  have hmod : sb.size % BPB < BPB := Nat.mod_lt _ (by decide)
  have hdiv := Nat.div_add_mod sb.size BPB
  refine ⟨?_, fun hj ↦ ?_, hfree⟩
  · split_ifs at hmem <;> omega
  · split_ifs at hmem with hlast
    · -- the last block of the bitmap
      have hle : j ≤ sb.size / BPB := (Nat.le_div_iff_mul_le (by decide)).2 hj.le
      have hge : sb.size / BPB < j + 1 := by
        rw [Nat.div_lt_iff_lt_mul (by decide)]
        rw [Nat.add_mul, Nat.one_mul]
        omega
      obtain rfl : sb.size / BPB = j := by omega
      rw [Nat.mul_comm] at hdiv
      omega
    · omega

/-- The bit of one block is now `v`; nothing else on the disk has changed. -/
structure Remarked (d d' : Disk) (b : ℕ) (v : Bool) : Prop where
  readsb_eq : readsb d' = readsb d
  self : marked d' b = v
  other : ∀ c, c ≠ b → marked d' c = marked d c
  block : ∀ c, c ≠ BBLOCK b (readsb d).ninodes → d' c = d c

theorem remarked_mark (d : Disk) (b : ℕ) :
    Remarked d (d.bwrite (BBLOCK b (readsb d).ninodes)
      (mark (d (BBLOCK b (readsb d).ninodes)) (b % BPB))) b true := by
  have hone : BBLOCK b (readsb d).ninodes ≠ 1 := by
    have hle := three_le_BBLOCK b (readsb d).ninodes
    omega
  refine ⟨readsb_bwrite hone, ?_, fun c hc ↦ ?_, fun c hc ↦ Function.update_of_ne hc ..⟩
  · rw [marked, readsb_bwrite hone, Disk.bwrite, Function.update_self, isFree_mark,
      decide_eq_false (not_not.2 rfl), Bool.and_false]
    rfl
  · refine marked_bitmap (f := fun data ↦ mark data (b % BPB)) b (fun j hj ↦ ?_) hc
    rw [isFree_mark, decide_eq_true hj, Bool.and_true]

theorem remarked_unmark (d : Disk) (b : ℕ) :
    Remarked d (d.bwrite (BBLOCK b (readsb d).ninodes)
      (unmark (d (BBLOCK b (readsb d).ninodes)) (b % BPB))) b false := by
  have hone : BBLOCK b (readsb d).ninodes ≠ 1 := by
    have hle := three_le_BBLOCK b (readsb d).ninodes
    omega
  refine ⟨readsb_bwrite hone, ?_, fun c hc ↦ ?_, fun c hc ↦ Function.update_of_ne hc ..⟩
  · rw [marked, readsb_bwrite hone, Disk.bwrite, Function.update_self, isFree_unmark,
      decide_eq_true rfl, Bool.or_true]
    rfl
  · refine marked_bitmap (f := fun data ↦ unmark data (b % BPB)) b (fun j hj ↦ ?_) hc
    rw [isFree_unmark, decide_eq_false hj, Bool.or_false]

/-- The bitmap block that begins with `j * BPB` is that of the blocks from there on. -/
theorem BBLOCK_add {i j n : ℕ} (hi : i < BPB) : BBLOCK (j * BPB + i) n = BBLOCK (j * BPB) n := by
  rw [BBLOCK, BBLOCK, Nat.mul_comm, Nat.mul_add_div (by decide), Nat.div_eq_of_lt hi,
    Nat.mul_div_cancel_left _ (by decide)]
  rfl

theorem mod_BPB_add {i j : ℕ} (hi : i < BPB) : (j * BPB + i) % BPB = i := by
  rw [Nat.mul_comm, Nat.mul_add_mod, Nat.mod_eq_of_lt hi]

/-- A bitmap block in which nothing is found has no clear bit for a block of the file system. -/
theorem findFree_none {i j : ℕ} (h : findFree d sb (j * BPB) = none) (hi : i < BPB)
    (hlt : j * BPB + i < sb.size) : isFree (d (BBLOCK (j * BPB) sb.ninodes)) i = false := by
  rw [findFree] at h
  have hall := List.find?_eq_none.1 h
  refine Bool.eq_false_of_not_eq_true (hall i (List.mem_range.2 ?_))
  split_ifs with hlast
  · have hdiv : sb.size / BPB = j := by
      refine Nat.div_eq_of_lt_le (Nat.le_of_add_right_le hlt.le) ?_
      rw [Nat.add_mul, Nat.one_mul]
      exact hlast
    have hmod := Nat.div_add_mod sb.size BPB
    rw [hdiv, Nat.mul_comm] at hmod
    omega
  · exact hi

/-- **What `balloc` does.** It marks a block of the file system that was not marked, or says that
there is none. -/
theorem balloc_cases (d : Disk) :
    (∃ b d', balloc d = (b, d') ∧ b < (readsb d).size ∧ marked d b = false ∧
      Remarked d d' b true) ∨
    balloc d = (0, d) ∧ ∀ b < (readsb d).size, marked d b = true := by
  rw [balloc]
  split
  next b bi hfound =>
    obtain ⟨j, hj, hb⟩ := List.exists_of_findSome?_eq_some hfound
    obtain ⟨i, hfind, heq⟩ := Option.map_eq_some_iff.1 hb
    obtain ⟨rfl, rfl⟩ := Prod.mk.inj heq
    obtain ⟨hi, hsize, hfree⟩ := findFree_some hfind
    have hj : j * BPB < (readsb d).size := by
      have hlt := (Nat.lt_div_iff_mul_lt (by decide)).1 (List.mem_range.1 hj)
      rw [BPB_eq] at hlt ⊢
      omega
    refine .inl ⟨_, _, rfl, hsize hj, ?_, ?_⟩
    · rw [marked, BBLOCK_add hi, mod_BPB_add hi, hfree]
      rfl
    · have hmark := remarked_mark d (j * BPB + i)
      rwa [BBLOCK_add hi, mod_BPB_add hi] at hmark
  next hfound =>
    refine .inr ⟨rfl, fun b hb ↦ ?_⟩
    have hmod : b % BPB < BPB := Nat.mod_lt _ (by decide)
    have hdiv : b / BPB * BPB + b % BPB = b := Nat.div_add_mod' b BPB
    have hmem : b / BPB ∈ List.range (((readsb d).size + (BPB - 1)) / BPB) := by
      rw [List.mem_range, Nat.lt_div_iff_mul_lt (by decide), BPB_eq]
      omega
    have hnone := List.findSome?_eq_none_iff.1 hfound _ hmem
    have hfree := findFree_none (Option.map_eq_none_iff.1 hnone) hmod (by rwa [hdiv])
    rw [← BBLOCK_add hmod, hdiv] at hfree
    rw [marked, hfree]
    rfl

/-- The mark of a block that is freed. -/
theorem bfree_ok (hone : b ≠ 1) (hbit : b ≠ BBLOCK b (readsb d).ninodes)
    (hmark : marked d b = true) :
    ∃ d', bfree d b = .ok d' ∧ Remarked (bzero d b) d' b false := by
  have hsb : readsb (bzero d b) = readsb d := readsb_bwrite hone
  have hstill : marked (bzero d b) b = true := (marked_bwrite hone hbit.symm).trans hmark
  rw [marked, Bool.not_eq_true'] at hstill
  refine ⟨_, ?_, remarked_unmark _ b⟩
  rw [bfree, if_neg (by rw [hstill]; exact Bool.false_ne_true)]

end FileSys
