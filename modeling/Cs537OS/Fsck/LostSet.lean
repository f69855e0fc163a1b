import Cs537OS.Fsck.RepairResult

/-!
# Which inodes the repairer takes for lost

An inode is lost when no entry other than `"."` and `".."` carries its number. The repairer tells
these entries by their place: it passes over the first two of every direct block and counts all of
a block listed by the indirect block. In the first block of a directory the two agree. In a later
direct block the first two entries are ordinary ones, which it misses, and a `"."` or `".."`
anywhere else is counted like a name.

`Image.lostSet_exact_iff` says for which images the inodes marked are the lost ones.
-/

namespace Fsck

namespace Image

variable (img : Image)

/-- What the repairer reads without a test: the superblock, the inode table and the blocks of the
directories and of the root lie in the image, and used entries carry inode numbers of the table. A
directory starts with `"."` and `".."`. -/
structure Surveyable : Prop where
  sbReadable : img.Readable bsize 12
  ninodes_le : img.sb.ninodes ≤ 2 ^ 31
  inodes : ∀ i < img.sb.ninodes, img.Readable (inodeOff i) 64
  blocks : ∀ d, img.IsDir d ∨ d = rootino → ∀ o ∈ img.blockOffs d, img.Readable o bsize
  listed : ∀ d, img.IsDir d ∨ d = rootino → ∀ v ∈ img.listedWords d, 0 ≤ entryOff v
  entries : ∀ d, img.IsDir d → ∀ p ∈ img.entryOffs d, (img.dirent p).inum ≠ 0 →
    (img.dirent p).inum < img.sb.ninodes
  dots : ∀ d, img.IsDir d → ∀ o ∈ (img.directOffs d).head?,
    (img.dirent o).isDot ∧ (img.dirent (o + 16)).isDotDot

/-- An entry named `"."` or `".."` that is counted carries `i`. -/
def DotCounted (i : ℕ) : Prop :=
  ∃ d, img.IsDir d ∧ ∃ p ∈ img.countedOffs d, (img.dirent p).inum = i ∧ ¬ (img.dirent p).isProper

/-- One of the first two entries of a later direct block carries `i`, under another name than
`"."` and `".."`. -/
def NamePassedOver (i : ℕ) : Prop :=
  ∃ d, img.IsDir d ∧ ∃ o ∈ (img.directOffs d).tail, ∃ e < 2,
    (img.dirent (o + 16 * e)).inum = i ∧ (img.dirent (o + 16 * e)).isProper

/-- The places of the names do not mislead about inode `i`: it has a name if it is counted by a
`"."` or `".."`, and it is counted if it has a name that is passed over. -/
def ToldByPlace (i : ℕ) : Prop :=
  (img.DotCounted i → img.Named i) ∧ (img.NamePassedOver i → img.Counted i)

instance (i : ℕ) : Decidable (img.DotCounted i) := inferInstanceAs (Decidable (∃ _, _ ∧ _))

instance (i : ℕ) : Decidable (img.NamePassedOver i) := inferInstanceAs (Decidable (∃ _, _ ∧ _))

instance (i : ℕ) : Decidable (img.ToldByPlace i) := inferInstanceAs (Decidable (_ ∧ _))

variable {img}

namespace Surveyable

variable (h : img.Surveyable)

include h

theorem surveyed : img.Surveyed := by
  refine ⟨h.sbReadable, h.ninodes_le, h.inodes, fun _ ↦ ?_, fun d hd ↦ ?_⟩
  · -- the lookup reads the blocks of the root, whether or not it is a directory
    have hblocks := h.blocks rootino (.inr rfl)
    refine img.exists_lookup (fun addr ha ↦ hblocks _ ?_) (fun hne ↦ hblocks _ ?_) fun v hv ↦ ?_
    · exact List.mem_append_left _ (List.mem_append_left _ (List.mem_map_of_mem ha))
    · rw [blockOffs, if_neg hne]
      exact List.mem_append_right _ (List.mem_singleton_self _)
    · have hread := hblocks (entryOff v).toNat
        (List.mem_append_left _ (List.mem_append_right _ (List.mem_map_of_mem hv)))
      rwa [Int.toNat_of_nonneg (h.listed rootino (.inr rfl) v hv)] at hread
  · refine dirReadable_of_blocks (h.blocks d (.inl hd)) (h.listed d (.inl hd)) fun p hp hne ↦ ?_
    exact h.entries d hd p (img.mem_entryOffs_of_counted hp) hne

/-- A name is counted, or passed over. -/
theorem counted_or_passedOver {i : ℕ} (hi : img.Named i) :
    img.Counted i ∨ img.NamePassedOver i := by
  obtain ⟨h₀, d, hd, p, hp, hnum, hproper⟩ := hi
  obtain ⟨o, ho, e, he, rfl⟩ := img.mem_entryOffs_iff.1 hp
  rcases List.mem_append.1 ho with ho | ho
  · rcases lt_or_ge e 2 with hlt | hge
    · -- one of the first two entries: in the first block these are not names
      refine .inr ⟨d, hd, o, ?_, e, hlt, hnum, hproper⟩
      rcases hoffs : img.directOffs d with _ | ⟨o', os⟩
      · rw [hoffs] at ho
        exact absurd ho List.not_mem_nil
      rw [hoffs] at ho
      rcases List.mem_cons.1 ho with rfl | ho
      · exfalso
        obtain ⟨hdot, hdotdot⟩ := h.dots d hd o (by rw [hoffs]; rfl)
        obtain rfl | rfl : e = 0 ∨ e = 1 := by omega
        · exact hproper.2 hdot
        · exact hproper.1 hdotdot
      · exact ho
    · exact .inl ⟨h₀, d, hd, _, img.mem_countedOffs_iff.2 (.inl ⟨o, ho, e, hge, he, rfl⟩), hnum⟩
  · exact .inl ⟨h₀, d, hd, _, img.mem_countedOffs_iff.2 (.inr ⟨o, ho, e, he, rfl⟩), hnum⟩

/-- The count agrees with the names exactly when the places do not mislead. -/
theorem counted_iff_named_iff {i : ℕ} (h₀ : i ≠ 0) :
    (img.Counted i ↔ img.Named i) ↔ img.ToldByPlace i := by
  constructor
  · intro hiff
    constructor
    · rintro ⟨d, hd, p, hp, hnum, -⟩
      exact hiff.1 ⟨h₀, d, hd, p, hp, hnum⟩
    · rintro ⟨d, hd, o, ho, e, he, hnum, hproper⟩
      have he : e < dpb := lt_of_lt_of_le he (by decide)
      have hmem : o + 16 * e ∈ img.entryOffs d :=
        img.mem_entryOffs_iff.2 ⟨o, List.mem_append_left _ (List.mem_of_mem_tail ho), e, he, rfl⟩
      exact hiff.2 ⟨h₀, d, hd, _, hmem, hnum, hproper⟩
  · rintro ⟨hdot, hpassed⟩
    constructor
    · rintro ⟨-, d, hd, p, hp, hnum⟩
      by_cases hproper : (img.dirent p).isProper
      · exact ⟨h₀, d, hd, p, img.mem_entryOffs_of_counted hp, hnum, hproper⟩
      · exact hdot ⟨d, hd, p, hp, hnum, hproper⟩
    · intro hnamed
      exact (h.counted_or_passedOver hnamed).elim id hpassed

end Surveyable

/-- The marks are `0` and `1`. -/
theorem findLost_targetinode_le (t : Survey) (n i : ℕ) : (t.findLost n).targetinode i ≤ 1 := by
  induction n with
  | zero => exact Nat.zero_le _
  | succ n ih =>
    rw [Survey.findLost_succ, Survey.markTarget]
    split
    next =>
      rcases eq_or_ne i n with rfl | hne
      · simp
      · simpa [hne] using ih
    next => exact ih

theorem lostTable_targetinode_eq_one {i : ℕ} : img.lostTable.targetinode i = 1 ↔ i ∈ img.lost := by
  have hle : img.lostTable.targetinode i ≤ 1 := findLost_targetinode_le _ _ _
  rw [← lostTable_targetinode]
  omega

/-- **When lost inodes are detected exactly**: when for no in-use inode but the root the places of
the names mislead. -/
theorem lostSet_exact_iff (h : img.Surveyable) :
    ∃ t, img.survey = .ok t ∧
      ((∀ i, (t.findLost img.sb.ninodes).targetinode i = 1 ↔
          img.InUse i ∧ i ≠ rootino ∧ ¬ img.Named i) ↔
        ∀ i, img.InUse i → i ≠ rootino → i ≠ 0 → img.ToldByPlace i) := by
  refine ⟨img.tables, img.survey_eq_ok_iff.2 ⟨h.surveyed, rfl⟩, ?_⟩
  show (∀ i, img.lostTable.targetinode i = 1 ↔ _) ↔ _
  simp only [lostTable_targetinode_eq_one, mem_lost_iff]
  refine forall_congr' fun i ↦ ?_
  rcases eq_or_ne i 0 with h₀ | h₀
  · -- number zero is neither counted nor a name
    have hc : ¬ img.Counted i := fun hc ↦ hc.1 h₀
    have hn : ¬ img.Named i := fun hn ↦ hn.1 h₀
    exact iff_of_true (by simp [hc, hn]) fun _ _ hne ↦ absurd h₀ hne
  · rw [← h.counted_iff_named_iff h₀]
    constructor
    · intro hiff hi hr _
      rw [and_iff_right hi, and_iff_right hi, and_iff_right hr, and_iff_right hr] at hiff
      exact not_iff_not.1 hiff
    · intro hiff
      exact and_congr_right fun hi ↦ and_congr_right fun hr ↦ not_congr (hiff hi hr h₀)

/-- Where the root is a directory, it is enough to look at the directories. -/
theorem surveyable_of_isDir_rootino {img : Image} (hroot : img.IsDir rootino)
    (hsb : img.Readable bsize 12) (hninodes : img.sb.ninodes ≤ 2 ^ 31)
    (hinodes : ∀ i < img.sb.ninodes, img.Readable (inodeOff i) 64)
    (hblocks : ∀ d, img.IsDir d → ∀ o ∈ img.blockOffs d, img.Readable o bsize)
    (hlisted : ∀ d, img.IsDir d → ∀ v ∈ img.listedWords d, 0 ≤ entryOff v)
    (hentries : ∀ d, img.IsDir d → ∀ p ∈ img.entryOffs d, (img.dirent p).inum ≠ 0 →
      (img.dirent p).inum < img.sb.ninodes)
    (hdots : ∀ d, img.IsDir d → ∀ o ∈ (img.directOffs d).head?,
      (img.dirent o).isDot ∧ (img.dirent (o + 16)).isDotDot) : img.Surveyable := by
  have hdir : ∀ d, img.IsDir d ∨ d = rootino → img.IsDir d :=
    fun d hd ↦ hd.elim id fun heq ↦ heq ▸ hroot
  exact
    { sbReadable := hsb
      ninodes_le := hninodes
      inodes := hinodes
      blocks := fun d hd ↦ hblocks d (hdir d hd)
      listed := fun d hd ↦ hlisted d (hdir d hd)
      entries := hentries
      dots := hdots }

set_option maxRecDepth 100000 in
/-- In the small image every directory has one block, and nothing is lost. -/
theorem smallImage_lostSet_exact : ∃ t, smallImage.survey = .ok t ∧
    ∀ i, (t.findLost smallImage.sb.ninodes).targetinode i = 1 ↔
      smallImage.InUse i ∧ i ≠ rootino ∧ ¬ smallImage.Named i := by
  have hs : smallImage.Surveyable :=
    surveyable_of_isDir_rootino (by decide) (by decide) (by decide) (by decide)
      (by decide +kernel) (by decide +kernel) (by decide +kernel) (by decide +kernel)
  obtain ⟨t, ht, hiff⟩ := lostSet_exact_iff hs
  exact ⟨t, ht, hiff.2 (by decide +kernel)⟩

/-- A root directory of two blocks: the file is named by the first entry of the second one. -/
def passedOverImage : Image :=
  ofChunks 6
    [sbChunk 6 2 3, inodeChunk 1 1 1 [4, 5], inodeChunk 2 2 1 [], (3 * bsize, [0x3f]),
      direntChunk 4 0 1 [46], direntChunk 4 1 1 [46, 46], direntChunk 5 0 2 [102]]

set_option maxRecDepth 100000 in
/-- The file has a name, and is marked. -/
theorem passedOverImage_marked :
    passedOverImage.Surveyable ∧ passedOverImage.Named 2 ∧
      ∃ t, passedOverImage.survey = .ok t ∧
        (t.findLost passedOverImage.sb.ninodes).targetinode 2 = 1 := by
  have hs : passedOverImage.Surveyable :=
    surveyable_of_isDir_rootino (by decide) (by decide) (by decide) (by decide)
      (by decide +kernel) (by decide +kernel) (by decide +kernel) (by decide +kernel)
  refine ⟨hs, by decide +kernel, ?_⟩
  obtain ⟨t, ht, hmark⟩ := GuardedLoop.exists_eq_ok (x := passedOverImage.survey)
    (p := fun t ↦ (t.findLost passedOverImage.sb.ninodes).targetinode 2 == 1) (by decide +kernel)
  exact ⟨t, ht, beq_iff_eq.1 hmark⟩

end Image

end Fsck
