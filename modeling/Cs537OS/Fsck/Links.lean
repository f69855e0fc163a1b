import Cs537OS.Fsck.Accepted

/-!
# Link and reference counts

An accepted image has no lost inode, no dangling entry and no wrong link count: beyond the unused
inode 0, the inodes in use are those that scanned entries carry, and the link count of a file is
the number of entries that carry it.

Rules 9 to 11 check this on the inodes of the table (`Passed.linked`); that entries carry no other
inode numbers is what the scan needed to count them (`Passed.inum_lt`).
-/

namespace Fsck

namespace Image

variable {img : Image}

/-- A turn of a completed scan was admitted by the tables of some moment. -/
theorem AllAdmitted.of_mem {dirarr : ℕ → ℕ} {l : List Turn} (h : img.AllAdmitted dirarr l)
    {t : Turn} (ht : t ∈ l) : ∃ pre post, l = pre ++ t :: post ∧
      img.Admits (img.after dirarr pre) t := by
  obtain ⟨pre, post, hl⟩ := List.append_of_mem ht
  exact ⟨pre, post, hl, h pre t post hl⟩

/-- The scanned entries carry inode numbers of the table. -/
theorem Passed.inum_lt (h : img.Passed) {x : Entry} (hx : x ∈ img.scannedEntries) :
    x.ent.inum < img.sb.ninodes := by
  rw [← filterMap_entryOf] at hx
  obtain ⟨t, ht, hx⟩ := List.mem_filterMap.1 hx
  obtain ⟨pre, post, -, hadm⟩ := h.admitted.of_mem ht
  cases t with
  | dirent i off =>
    by_cases h₀ : (img.dirent off).inum = 0
    · simp [entryOf, h₀] at hx
    · obtain rfl : ⟨i, img.dirent off⟩ = x := by simpa [entryOf, h₀] using hx
      exact (hadm.2 h₀).2
  | indirectDirent i off =>
    obtain rfl : ⟨i, img.dirent off.toNat⟩ = x := Option.some.inj hx
    exact hadm.2
  | _ => cases hx

theorem references_pos_iff {j : ℕ} :
    0 < img.references j ↔ ∃ x ∈ img.scannedEntries, x.ent.inum = j := by
  rw [references, List.countP_pos_iff]
  simp only [decide_eq_true_eq]

/-- **Link and reference counts of an accepted image.** -/
theorem accepted_links (h : img.Accepted) {i : ℕ} (hi : 1 ≤ i) :
    (img.InUse i ↔ ∃ x ∈ img.scannedEntries, x.ent.inum = i) ∧
      (i < img.sb.ninodes → (img.dinode i).type = tFile →
        (img.dinode i).nlink = img.references i) := by
  have hp := h.passed
  refine ⟨⟨fun hu ↦ ?_, ?_⟩, fun hlt hf ↦ (hp.linked i hlt).nlink hf⟩
  · exact references_pos_iff.1 ((hp.linked i hu.1).referred hu)
  · rintro ⟨x, hx, rfl⟩
    have hlt : x.ent.inum < img.sb.ninodes := hp.inum_lt hx
    exact (hp.linked _ hlt).inUse (references_pos_iff.2 ⟨x, hx, rfl⟩) (by omega)

/-- The file of the small image has one link, and one entry carries it. -/
theorem smallImage_links :
    (smallImage.InUse 3 ↔ ∃ x ∈ smallImage.scannedEntries, x.ent.inum = 3) ∧
      (smallImage.dinode 3).nlink = smallImage.references 3 := by
  have h := accepted_links smallImage_accepted (show 1 ≤ 3 by decide)
  exact ⟨h.1, h.2 (by decide) (by decide)⟩

end Image

end Fsck
