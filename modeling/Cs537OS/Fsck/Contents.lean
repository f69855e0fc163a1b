import Cs537OS.Fsck.Layout
import Mathlib.Data.List.Basic

/-!
# What an image contains

The abstract reading of an image that the checker's rules are about, with no tables and no
order of checks: which inodes are in use and which are directories, the blocks each in-use inode
uses, the directory entries the directories hold, and the parent each directory records.

The lists are in the order in which the source meets their members. That order matters only to
the statements that speak of it; everything else is a count or a membership.
-/

namespace Fsck

/-- A directory entry together with the directory that holds it. -/
structure Entry where
  /-- Inode number of the holding directory. -/
  dir : ℕ
  ent : Dirent
deriving DecidableEq

namespace Image

variable (img : Image)

/-- Inode `i` is in use. -/
def InUse (i : ℕ) : Prop := i < img.sb.ninodes ∧ (img.dinode i).type ≠ 0

/-- Inode `i` is a directory. -/
def IsDir (i : ℕ) : Prop := i < img.sb.ninodes ∧ (img.dinode i).type = tDir

instance (i : ℕ) : Decidable (img.InUse i) := inferInstanceAs (Decidable (_ ∧ _))

instance (i : ℕ) : Decidable (img.IsDir i) := inferInstanceAs (Decidable (_ ∧ _))

theorem IsDir.inUse {img : Image} {i : ℕ} (h : img.IsDir i) : img.InUse i :=
  ⟨h.1, by rw [h.2]; decide⟩

/-! ### Blocks in use -/

/-- The address of the indirect block of inode `i`, zero when there is none. -/
def indirectAddr (i : ℕ) : ℕ := (img.dinode i).addrs ndirect

/-- The non-zero direct addresses of inode `i`. -/
def directBlocks (i : ℕ) : List ℕ :=
  ((List.range ndirect).map (img.dinode i).addrs).filter (· ≠ 0)

/-- Offset of entry `k` of the indirect block of inode `i`. -/
def entryAt (i k : ℕ) : ℕ := addrOff (img.indirectAddr i) + 4 * k

/-- The non-zero addresses in the indirect block of inode `i`. -/
def indirectBlocks (i : ℕ) : List ℕ :=
  ((List.range nindirect).map fun k ↦ img.u32 (img.entryAt i k)).filter (· ≠ 0)

/-- The blocks inode `i` uses, in all three roles: direct blocks, the indirect block itself, and
the blocks listed there. -/
def inodeBlocks (i : ℕ) : List ℕ :=
  img.directBlocks i ++
    if img.indirectAddr i = 0 then [] else img.indirectAddr i :: img.indirectBlocks i

/-- The blocks used by the in-use inodes below `n`. -/
def blocksBelow (n : ℕ) : List ℕ :=
  (List.range n).flatMap fun i ↦ if (img.dinode i).type = 0 then [] else img.inodeBlocks i

/-- All uses of blocks by in-use inodes. -/
def blockUses : List ℕ := img.blocksBelow img.sb.ninodes

/-- Membership in the uses is use by some in-use inode. -/
theorem mem_blocksBelow_iff {n b : ℕ} :
    b ∈ img.blocksBelow n ↔ ∃ i < n, (img.dinode i).type ≠ 0 ∧ b ∈ img.inodeBlocks i := by
  rw [blocksBelow, List.mem_flatMap]
  constructor
  · rintro ⟨i, hi, hb⟩
    refine ⟨i, List.mem_range.1 hi, ?_⟩
    by_cases h : (img.dinode i).type = 0
    · simp [h] at hb
    · exact ⟨h, by simpa [h] using hb⟩
  · rintro ⟨i, hi, h, hb⟩
    exact ⟨i, List.mem_range.2 hi, by simpa [h] using hb⟩

theorem mem_blockUses_iff {b : ℕ} :
    b ∈ img.blockUses ↔ ∃ i, img.InUse i ∧ b ∈ img.inodeBlocks i := by
  rw [blockUses, mem_blocksBelow_iff]
  exact exists_congr fun i ↦ (and_assoc (a := i < img.sb.ninodes)).symm

/-! ### Directory entries -/

/-- The used entries in the direct blocks of directory `i`. -/
def directEntries (i : ℕ) : List Dirent :=
  ((img.directBlocks i).flatMap fun addr ↦
    (List.range dpb).map fun e ↦ img.dirent (addrOff addr + 16 * e)).filter (·.inum ≠ 0)

/-- All entries, used or not, in the blocks the indirect block of directory `i` lists. -/
def indirectEntries (i : ℕ) : List Dirent :=
  if img.indirectAddr i = 0 then []
  else
    (((List.range nindirect).map fun m ↦ img.word (img.entryAt i m)).filter (· ≠ 0)).flatMap
      fun v ↦ (List.range dpb).map fun (e : ℕ) ↦ img.dirent (entryOff v + 16 * e).toNat

/-- The entries of directory `i` that the scan counts. -/
def dirEntries (i : ℕ) : List Entry :=
  (img.directEntries i ++ img.indirectEntries i).map fun d ↦ ⟨i, d⟩

/-- The entries of all directories that the scan counts. -/
def scannedEntries : List Entry :=
  (List.range img.sb.ninodes).flatMap fun i ↦
    if (img.dinode i).type = tDir then img.dirEntries i else []

/-- A scanned entry is held by a directory. -/
theorem isDir_of_mem_scannedEntries {x : Entry} (hx : x ∈ img.scannedEntries) :
    img.IsDir x.dir := by
  obtain ⟨i, hi, hx⟩ := List.mem_flatMap.1 hx
  by_cases h : (img.dinode i).type = tDir
  · rw [if_pos h] at hx
    obtain ⟨d, -, rfl⟩ := List.mem_map.1 hx
    exact ⟨List.mem_range.1 hi, h⟩
  · rw [if_neg h] at hx
    exact absurd hx (List.not_mem_nil)

/-- The number of scanned entries that carry inode number `j`. -/
def references (j : ℕ) : ℕ := img.scannedEntries.countP fun x ↦ x.ent.inum = j

/-- The scanned entries that name inode `j` by something else than `"."` and `".."`. -/
def namings (j : ℕ) : List Entry :=
  img.scannedEntries.filter fun x ↦ x.ent.inum = j ∧ x.ent.isProper

/-! ### Recorded parents -/

/-- The inode numbers of the used `".."` entries in the direct blocks of directory `i`. -/
def dotDots (i : ℕ) : List ℕ :=
  if img.IsDir i then ((img.directEntries i).filter (·.isDotDot)).map (·.inum) else []

/-- The parent directory `i` records: its last used `".."` entry, and zero without one. -/
def recordedParent (i : ℕ) : ℕ := ((img.dotDots i).getLast?).getD 0

end Image

end Fsck
