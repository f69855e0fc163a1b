import Cs537OS.Fsck.Links

/-!
# The final scan of the bitmap

The last loop looks for marked blocks that no inode uses. Its bounds mix two numberings: it starts
one block after the first bitmap block, which is the first data block only when the bitmap has one
block, and it stops at the *number* of data blocks, `sb->nblocks`, where the data blocks end at
`sb->size`.

`Image.bitmapScan_report_iff` says when the loop reports, on an image whose metadata blocks are
marked, and `Image.bitmapScan_exact_iff` when that is the case exactly if some data block is marked
and unused. With a bitmap of several blocks the loop meets the later ones, which no inode uses,
and reports whatever the data blocks are like; with one block it overlooks the blocks from
`sb->nblocks` on.
-/

namespace Fsck

namespace Image

variable (img : Image)

/-- The superblock's counts add up: boot block, superblock, inode blocks, bitmap and data. -/
def Sized : Prop :=
  img.sb.size = img.sb.nblocks + img.sb.ninodes / ipb + 3 + img.sb.size / 4096 + 1

/-- The blocks before the data blocks are marked. -/
def MetadataMarked : Prop := ∀ b < img.firstData, img.Marked b

/-- A data block that is marked and that no in-use inode uses. -/
def Leaked (b : ℕ) : Prop :=
  (img.firstData ≤ b ∧ b < img.firstData + img.sb.nblocks) ∧ img.Marked b ∧ b ∉ img.blockUses

instance : Decidable img.Sized := inferInstanceAs (Decidable (_ = _))

instance : Decidable img.MetadataMarked := inferInstanceAs (Decidable (∀ _ < _, _))

instance (b : ℕ) : Decidable (img.Leaked b) := inferInstanceAs (Decidable (_ ∧ _ ∧ _))

theorem firstData_eq : img.firstData = img.sb.ninodes / ipb + 3 + (img.sb.size / 4096 + 1) := by
  rw [firstData, bblock, bitblocks]
  simp [bpb, bsize, Nat.zero_div]

variable {img}

theorem Sized.firstData_add (h : img.Sized) : img.firstData + img.sb.nblocks = img.sb.size := by
  have hs : img.sb.size = _ := h
  rw [firstData_eq]
  omega

/-- `totalblocks` is the size read as an `int`. -/
theorem Sized.totalblocks_eq (h : img.Sized) : img.totalblocks = int32 img.sb.size := by
  have hs : (img.firstData : ℤ) + img.sb.nblocks = img.sb.size := by
    exact_mod_cast h.firstData_add
  have hf : (img.firstData : ℤ) = img.bitblocks + bblock 0 img.sb.ninodes := by
    rw [firstData, add_comm]
    push_cast
    rfl
  rw [totalblocks, usedblocks, ← hf, ← hs]
  unfold int32
  omega

/-- A used block is a data block, and a block of the file system. -/
theorem Passed.blockUses_range (h : img.Passed) {b : ℕ} (hb : b ∈ img.blockUses) :
    img.firstData ≤ b ∧ (b : ℤ) < img.totalblocks := by
  rw [blockUses, ← filterMap_blockOf] at hb
  obtain ⟨t, ht, hb⟩ := List.mem_filterMap.1 hb
  obtain ⟨pre, post, -, hadm⟩ := h.admitted.of_mem ht
  cases t with
  | direct addr =>
    obtain ⟨hne, rfl⟩ : addr ≠ 0 ∧ addr = b := by simpa [blockOf, Option.guard] using hb
    exact ⟨img.firstData_le_of_inRange (hadm hne).1, (hadm hne).2.1⟩
  | indirect addr =>
    obtain rfl : addr = b := Option.some.inj hb
    exact ⟨img.firstData_le_of_inRange hadm.2, hadm.1⟩
  | entry off =>
    obtain ⟨hne, rfl⟩ : img.u32 off ≠ 0 ∧ img.u32 off = b := by
      simpa [blockOf, Option.guard] using hb
    obtain ⟨hrange, hnn, hlt, -⟩ := hadm.2 hne
    have hle := img.firstData_le_of_inRange_entry hnn hrange
    have hnat := img.word_toNat hnn
    omega
  | _ => cases hb

/-! ### When the loop reports -/

/-- The blocks the loop visits. -/
theorem mem_scanBits_iff {b : ℕ} :
    b ∈ img.scanBits ↔ img.sb.ninodes / ipb + 4 ≤ b ∧ b < img.sb.nblocks := by
  have hb : bblock 0 img.sb.ninodes = img.sb.ninodes / ipb + 3 := by simp [bblock]
  rw [scanBits, hb, List.mem_range'_1]
  omega

/-- The loop at a block it visits. -/
theorem scanBit_eq (visitblock : ℕ → ℕ) (b : ℕ) :
    img.scanBit visitblock b =
      if 2 ^ 31 ≤ b ∨ ¬ img.bitStart + b / 8 < img.stSize then .error .outOfBounds
      else if ¬ img.Marked b then .ok ()
      else if ¬ (b : ℤ) < img.totalblocks then .error .outOfBounds
      else if visitblock b = 0 then .error (.report .bitmapOnly)
      else .ok () := by
  have hbit := shiftRight_and_one (img.bitByte b).toNat b
  rw [scanBit]
  by_cases hr : 2 ^ 31 ≤ b ∨ ¬ img.bitStart + b / 8 < img.stSize
  · rw [if_pos hr, if_pos hr]
  · rw [if_neg hr, if_neg hr]
    rw [not_or, not_not] at hr
    have hm : img.Marked b ↔ (img.bitByte b).toNat >>> (b % 8) &&& 1 ≠ 0 := by
      rw [hbit, Marked]
      exact and_iff_right hr.2
    by_cases hmark : img.Marked b
    · rw [if_pos (hm.1 hmark), if_neg (not_not.2 hmark)]
    · rw [if_neg (mt hm.2 hmark), if_pos hmark]

/-- The blocks at which the loop reports. -/
theorem scanBit_report_iff (visitblock : ℕ → ℕ) (b : ℕ) :
    img.scanBit visitblock b = .error (.report .bitmapOnly) ↔
      b < 2 ^ 31 ∧ img.Marked b ∧ (b : ℤ) < img.totalblocks ∧ visitblock b = 0 := by
  rw [scanBit_eq]
  constructor
  · intro h
    split_ifs at h with hr hmark htotal hzero
    · cases h
    · exact ⟨by omega, hmark, htotal, hzero⟩
    · cases h
  · rintro ⟨hlt, hmark, htotal, hzero⟩
    have hread := hmark.1
    rw [if_neg (by omega), if_neg (not_not.2 hmark), if_neg (not_not.2 htotal), if_pos hzero]

/-- The loop reports a marked block that it visits and no inode uses, when the size is not negative
as an `int`: the blocks visited before are inside the image and the tables. -/
theorem bitmapScan_report_of_mem (hs : img.Sized) (hlt : img.sb.size < 2 ^ 31) {b : ℕ}
    (hb : b ∈ img.scanBits) (hmark : img.Marked b) (hfree : b ∉ img.blockUses) :
    img.bitmapScan img.useCount = .error (.report .bitmapOnly) := by
  have hadd := hs.firstData_add
  have htotal : img.totalblocks = img.sb.size := by
    rw [hs.totalblocks_eq]
    exact int32_of_lt (by omega) (by omega)
  -- a visited block whose bit lies in the image is below `totalblocks`
  have hvisit : ∀ c ∈ img.scanBits, img.bitStart + c / 8 < img.stSize →
      img.scanBit img.useCount c = .ok () ∨
        img.scanBit img.useCount c = .error (.report .bitmapOnly) := by
    intro c hc hread
    obtain ⟨-, hc⟩ := mem_scanBits_iff.1 hc
    have hcm : (c : ℤ) < img.totalblocks := by omega
    rw [scanBit_eq, if_neg (by omega), if_neg (not_not.2 hcm)]
    split_ifs <;> simp
  obtain ⟨pre, post, hsplit⟩ := List.append_of_mem hb
  have hsorted : (pre ++ b :: post).Pairwise (· < ·) := hsplit ▸ List.pairwise_lt_range'
  rw [bitmapScan, hsplit]
  refine GuardedLoop.checks_eq_error (fun c hc ↦ ?_) ?_
  · have hcb : c < b := (List.pairwise_append.1 hsorted).2.2 c hc b List.mem_cons_self
    have hread := hmark.1
    exact hvisit c (hsplit ▸ List.mem_append_left _ hc) (by omega)
  · have hzero : img.useCount b = 0 := List.count_eq_zero.2 hfree
    obtain ⟨-, hbn⟩ := mem_scanBits_iff.1 hb
    exact (scanBit_report_iff _ b).2 ⟨by omega, hmark, by omega, hzero⟩

/-- A block the loop reports is marked and unused, and the size is not negative as an `int`. -/
theorem exists_of_bitmapScan_report (hs : img.Sized)
    (h : img.bitmapScan img.useCount = .error (.report .bitmapOnly)) :
    img.sb.size < 2 ^ 31 ∧ ∃ b ∈ img.scanBits, img.Marked b ∧ b ∉ img.blockUses := by
  obtain ⟨b, hb, hbit⟩ := GuardedLoop.exists_of_checks_eq_error h
  obtain ⟨-, hmark, htotal, hzero⟩ := (scanBit_report_iff _ b).1 hbit
  have hsize := img.sb_size_lt
  refine ⟨?_, b, hb, hmark, List.count_eq_zero.1 hzero⟩
  rw [hs.totalblocks_eq] at htotal
  rw [int32] at htotal
  omega

/-- **When the bitmap scan reports**: when the loop meets a later block of the bitmap, or a leaked
block whose number is below the number of data blocks. -/
theorem bitmapScan_report_iff (hp : img.Passed) (hs : img.Sized) (hm : img.MetadataMarked) :
    img.bitmapScan img.useCount = .error (.report .bitmapOnly) ↔
      img.sb.size < 2 ^ 31 ∧
        ((4096 ≤ img.sb.size ∧ img.sb.ninodes / ipb + 4 < img.sb.nblocks) ∨
          ∃ b < img.sb.nblocks, img.Leaked b) := by
  have hfirst := img.firstData_eq
  have hunused : ∀ b < img.firstData, b ∉ img.blockUses :=
    fun b hb hmem ↦ absurd (hp.blockUses_range hmem).1 (by omega)
  constructor
  · intro h
    obtain ⟨hlt, b, hb, hmark, hfree⟩ := exists_of_bitmapScan_report hs h
    obtain ⟨hlo, hhi⟩ := mem_scanBits_iff.1 hb
    refine ⟨hlt, ?_⟩
    by_cases hdata : img.firstData ≤ b
    · exact .inr ⟨b, hhi, ⟨hdata, by omega⟩, hmark, hfree⟩
    · exact .inl ⟨by omega, by omega⟩
  · rintro ⟨hlt, ⟨hmany, hloop⟩ | ⟨b, hb, ⟨hlo, -⟩, hmark, hfree⟩⟩
    · -- the second block of the bitmap
      have hmeta : img.sb.ninodes / ipb + 4 < img.firstData := by omega
      exact bitmapScan_report_of_mem hs hlt (mem_scanBits_iff.2 ⟨le_rfl, hloop⟩)
        (hm _ hmeta) (hunused _ hmeta)
    · exact bitmapScan_report_of_mem hs hlt (mem_scanBits_iff.2 ⟨by omega, hb⟩) hmark hfree

/-- **When the bitmap scan is exact.** With a bitmap of several blocks, and enough data blocks for
the loop to start, it reports anyway, so some data block has to be leaked; otherwise it sees only
the leaked blocks below `sb->nblocks`, so there must be one of those, or none at all. -/
theorem bitmapScan_exact_iff {fuel : ℕ} {s : Scan} (hrun : img.earlierChecks fuel = .ok s)
    (hs : img.Sized) (hm : img.MetadataMarked) :
    (img.bitmapScan s.visitblock = .error (.report .bitmapOnly) ↔ ∃ b, img.Leaked b) ↔
      if img.sb.size < 2 ^ 31 ∧ 4096 ≤ img.sb.size ∧ img.sb.ninodes / ipb + 4 < img.sb.nblocks then
        ∃ b, img.Leaked b
      else ∀ b, img.Leaked b →
        img.sb.size < 2 ^ 31 ∧ ∃ b' < img.sb.nblocks, img.Leaked b' := by
  obtain ⟨hp, rfl, -⟩ := img.earlierChecks_eq_ok_iff.1 hrun
  have hvisit : (img.after img.dirTable img.scanOrder).visitblock = img.useCount :=
    funext img.completed_after.visitblock
  rw [hvisit, bitmapScan_report_iff hp hs hm]
  split
  case isTrue hmeets =>
    exact ⟨fun h ↦ h.1 ⟨hmeets.1, .inl hmeets.2⟩, fun h ↦ ⟨fun _ ↦ h, fun _ ↦
      ⟨hmeets.1, .inl hmeets.2⟩⟩⟩
  case isFalse hmiss =>
    constructor
    · intro h b hb
      obtain ⟨hlt, hmeets | hsmall⟩ := h.2 ⟨b, hb⟩
      · exact absurd ⟨hlt, hmeets⟩ hmiss
      · exact ⟨hlt, hsmall⟩
    · intro h
      constructor
      · rintro ⟨hlt, hmeets | ⟨b, -, hb⟩⟩
        · exact absurd ⟨hlt, hmeets⟩ hmiss
        · exact ⟨b, hb⟩
      · rintro ⟨b, hb⟩
        obtain ⟨hlt, hsmall⟩ := h b hb
        exact ⟨hlt, .inr hsmall⟩

set_option maxRecDepth 100000 in
/-- The small image has one bitmap block and no leaked block. -/
theorem smallImage_bitmapScan_exact : ∃ s, smallImage.earlierChecks 5 = .ok s ∧
    (smallImage.bitmapScan s.visitblock = .error (.report .bitmapOnly) ↔
      ∃ b, smallImage.Leaked b) := by
  have hrun : smallImage.checkMode 5 = .ok () := by decide +kernel
  obtain ⟨s, hs, -⟩ := GuardedLoop.bind_eq_ok_iff.1 hrun
  refine ⟨s, hs, (bitmapScan_exact_iff hs (by decide) (by decide +kernel)).2 ?_⟩
  rw [if_neg (by decide)]
  rintro b ⟨⟨hlo, hhi⟩, -, hfree⟩
  have hall : ∀ b < 9, b ∉ smallImage.blockUses → b < smallImage.firstData := by decide +kernel
  exact absurd (hall b hhi hfree) (not_lt.2 hlo)

/-- A root directory with a subdirectory; block 6 is marked, and no inode uses it. -/
def leakyImage : Image :=
  ofChunks 7
    [sbChunk 7 3 4, inodeChunk 1 1 1 [4], inodeChunk 2 1 1 [5], (3 * bsize, [0x7f]),
      direntChunk 4 0 1 [46], direntChunk 4 1 1 [46, 46], direntChunk 4 2 2 [100],
      direntChunk 5 0 2 [46], direntChunk 5 1 1 [46, 46]]

set_option maxRecDepth 100000 in
/-- The checker accepts the leaked block. -/
theorem leakyImage_leaked :
    leakyImage.checkMode 5 = .ok () ∧ leakyImage.Sized ∧ leakyImage.MetadataMarked ∧
      leakyImage.Leaked 6 := by
  refine ⟨by decide +kernel, by decide, by decide +kernel, by decide +kernel⟩

end Image

end Fsck
