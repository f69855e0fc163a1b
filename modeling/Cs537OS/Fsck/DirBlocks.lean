import Cs537OS.Fsck.Contents
import Cs537OS.Fsck.Repair

/-!
# Where directory entries are, and which inodes are lost

The abstract reading of an image that the repairer is about, by position: the offsets of the
blocks of an inode, the offsets of the entries in them, and which of these places the repairer
counts. An inode is *lost* when it is in use, is not the root and no counted place carries its
number (`Image.lost`).

All places are multiples of 16, and two places in blocks are the same place only in the same
block (`add_slot_inj`). A block offset taken from an indirect block may be negative; it is cut to
zero here and the readability of the block is a separate condition.
-/

namespace Fsck

/-- The places of the entries of a block, from the entry `first` on. -/
def entriesFrom (first off : ℕ) : List ℕ :=
  (List.range' first (dpb - first)).map fun e ↦ off + 16 * e

theorem mem_entriesFrom_iff {first off p : ℕ} (h : first ≤ dpb) :
    p ∈ entriesFrom first off ↔ ∃ e, first ≤ e ∧ e < dpb ∧ p = off + 16 * e := by
  simp only [entriesFrom, List.mem_map, List.mem_range'_1]
  constructor
  · rintro ⟨e, ⟨h₁, h₂⟩, rfl⟩
    exact ⟨e, h₁, by omega, rfl⟩
  · rintro ⟨e, h₁, h₂, rfl⟩
    exact ⟨e, ⟨h₁, by omega⟩, rfl⟩

theorem bsize_dvd_addrOff (addr : ℕ) : bsize ∣ addrOff addr := by
  rw [addrOff, bsize]
  omega

theorem bsize_dvd_entryOff (v : ℤ) : bsize ∣ (entryOff v).toNat := by
  rw [entryOff, int32, bsize]
  omega

/-- A place in a block determines the block and the entry. -/
theorem add_slot_inj {o o' e e' : ℕ} (ho : bsize ∣ o) (ho' : bsize ∣ o') (he : e < dpb)
    (he' : e' < dpb) (h : o + 16 * e = o' + 16 * e') : o = o' ∧ e = e' := by
  unfold bsize dpb bsize dirsiz at *
  omega

namespace Image

variable (img : Image)

/-! ### Blocks and places -/

/-- The offsets of the direct blocks of inode `i`. -/
def directOffs (i : ℕ) : List ℕ := (img.directBlocks i).map addrOff

/-- The addresses listed in the indirect block of inode `i`, as the `int`s they are read as. -/
def listedWords (i : ℕ) : List ℤ :=
  if img.indirectAddr i = 0 then []
  else ((List.range nindirect).map fun m ↦ img.word (img.entryAt i m)).filter (· ≠ 0)

/-- The offsets of the blocks listed in the indirect block of inode `i`. -/
def listedOffs (i : ℕ) : List ℕ := (img.listedWords i).map fun v ↦ (entryOff v).toNat

/-- The offsets of the data blocks of inode `i`. -/
def dataOffs (i : ℕ) : List ℕ := img.directOffs i ++ img.listedOffs i

/-- The places of all entries of directory `i`. -/
def entryOffs (i : ℕ) : List ℕ := (img.dataOffs i).flatMap (entriesFrom 0)

/-- The places the repairer counts: not the first two of a direct block. -/
def countedOffs (i : ℕ) : List ℕ :=
  (img.directOffs i).flatMap (entriesFrom 2) ++ (img.listedOffs i).flatMap (entriesFrom 0)

theorem bsize_dvd_of_mem_dataOffs {i o : ℕ} (h : o ∈ img.dataOffs i) : bsize ∣ o := by
  rcases List.mem_append.1 h with h | h
  · obtain ⟨addr, -, rfl⟩ := List.mem_map.1 h
    exact bsize_dvd_addrOff addr
  · obtain ⟨v, -, rfl⟩ := List.mem_map.1 h
    exact bsize_dvd_entryOff v

theorem mem_entryOffs_iff {i p : ℕ} :
    p ∈ img.entryOffs i ↔ ∃ o ∈ img.dataOffs i, ∃ e < dpb, p = o + 16 * e := by
  simp [entryOffs, mem_entriesFrom_iff (Nat.zero_le dpb)]

/-- A counted place is one of a direct block past its first two, or any of a listed block. -/
theorem mem_countedOffs_iff {i p : ℕ} :
    p ∈ img.countedOffs i ↔
      (∃ o ∈ img.directOffs i, ∃ e, 2 ≤ e ∧ e < dpb ∧ p = o + 16 * e) ∨
        ∃ o ∈ img.listedOffs i, ∃ e < dpb, p = o + 16 * e := by
  simp [countedOffs, mem_entriesFrom_iff (Nat.zero_le dpb),
    mem_entriesFrom_iff (by decide : 2 ≤ dpb)]

theorem mem_entryOffs_of_counted {i p : ℕ} (h : p ∈ img.countedOffs i) : p ∈ img.entryOffs i := by
  rw [mem_entryOffs_iff]
  rcases img.mem_countedOffs_iff.1 h with ⟨o, ho, e, -, he, rfl⟩ | ⟨o, ho, e, he, rfl⟩
  · exact ⟨o, List.mem_append_left _ ho, e, he, rfl⟩
  · exact ⟨o, List.mem_append_right _ ho, e, he, rfl⟩

/-! ### Quantifiers over inodes -/

instance {P : ℕ → Prop} [DecidablePred P] : Decidable (∃ i, img.IsDir i ∧ P i) :=
  decidable_of_iff (∃ i < img.sb.ninodes, (img.dinode i).type = tDir ∧ P i)
    (exists_congr fun _ ↦ and_assoc.symm)

instance {P : ℕ → Prop} [DecidablePred P] : Decidable (∀ i, img.IsDir i → P i) :=
  decidable_of_iff (∀ i < img.sb.ninodes, (img.dinode i).type = tDir → P i)
    (forall_congr' fun _ ↦ and_imp.symm)

instance {P : ℕ → Prop} [DecidablePred P] : Decidable (∀ i, img.InUse i → P i) :=
  decidable_of_iff (∀ i < img.sb.ninodes, (img.dinode i).type ≠ 0 → P i)
    (forall_congr' fun _ ↦ and_imp.symm)

/-! ### Lost inodes -/

/-- A counted place carries the number `i`; zero marks an unused entry. -/
def Counted (i : ℕ) : Prop :=
  i ≠ 0 ∧ ∃ d, img.IsDir d ∧ ∃ p ∈ img.countedOffs d, (img.dirent p).inum = i

instance (i : ℕ) : Decidable (img.Counted i) := inferInstanceAs (Decidable (_ ∧ _))

/-- The lost inodes, in the order of their numbers. -/
def lost : List ℕ :=
  (List.range img.sb.ninodes).filter fun i ↦
    (img.dinode i).type ≠ 0 ∧ i ≠ rootino ∧ ¬ img.Counted i

theorem mem_lost_iff {i : ℕ} : i ∈ img.lost ↔ img.InUse i ∧ i ≠ rootino ∧ ¬ img.Counted i := by
  simp [lost, InUse, and_assoc]

/-! ### The lookup -/

/-- The number carried by the first entry named `lost_found` of a block, used or not, and zero
when there is none. -/
def firstNamed (off : ℕ) : ℕ :=
  (((entriesFrom 0 off).find? fun p ↦ nameIs (img.dirent p).name lostFoundName).map
    fun p ↦ (img.dirent p).inum).getD 0

/-- The first non-zero number so found in the blocks of directory `i`, and zero when there is
none. -/
def lookupValue (i : ℕ) : ℕ := (((img.dataOffs i).map img.firstNamed).find? (· ≠ 0)).getD 0

/-- The inode the repairer takes for `lost_found`. -/
def lostFound : ℕ := if rootino < img.sb.ninodes then img.lookupValue rootino else 0

end Image

end Fsck
