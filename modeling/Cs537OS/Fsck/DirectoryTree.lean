import Cs537OS.Fsck.Links
import Cs537OS.Fsck.Walk

/-!
# The directory tree of an accepted image

Rule 12, the rule on parents and the loop detection together say that the directories form a tree
under the root: every directory but the root is named once, by the directory it records as its
parent, and the recorded parents lead to the root.

Inode 0 needs an argument of its own, since an entry cannot refer to it: as a directory it could
hold no `"."` entry the scan accepts, so it would have no direct block and no recorded parent
(`Passed.dotDots_zero`), and a directory that recorded no parent would lead there and no further.

The parent walk terminates on every image, accepted or not (`checkMode_ne_outOfFuel`).
-/

namespace Fsck

namespace Image

variable {img : Image}

/-! ### Inode 0 -/

/-- The turns of a directory are turns of the scan. -/
theorem IsDir.mem_scanOrder {i : ℕ} (h : img.IsDir i) {t : Turn}
    (ht : t ∈ img.directTurns i) : t ∈ img.scanOrder := by
  refine List.mem_flatMap.2 ⟨i, List.mem_range.2 h.1, ?_⟩
  have hne : (img.dinode i).type ≠ 0 := h.inUse.2
  rw [inodeTurns, if_neg hne, if_pos h.2]
  simp [ht]

/-- A directory with a used entry in a direct block has a used `"."` entry there, which carries its
own inode number. -/
theorem Passed.ne_zero_of_directEntries (h : img.Passed) {i : ℕ} (hdir : img.IsDir i)
    (hne : img.directEntries i ≠ []) : i ≠ 0 := by
  have hblocks : ∃ k < ndirect, (img.dinode i).addrs k ≠ 0 := by
    by_contra hnone
    refine hne ?_
    have hempty : img.directBlocks i = [] := by
      rw [directBlocks, List.filter_eq_nil_iff]
      intro b hb
      obtain ⟨k, hk, rfl⟩ := List.mem_map.1 hb
      have hzero : (img.dinode i).addrs k = 0 := by
        by_contra hn
        exact hnone ⟨k, List.mem_range.1 hk, hn⟩
      simp [hzero]
    rw [directEntries, hempty, List.flatMap_nil, List.filter_nil]
  obtain ⟨k, hk, haddr⟩ := hblocks
  have hclose : Turn.closeBlock i ∈ img.directTurns i := by
    refine List.mem_flatMap.2 ⟨k, List.mem_range.2 hk, ?_⟩
    rw [if_neg haddr]
    exact List.mem_append_right _ (List.mem_singleton_self _)
  obtain ⟨pre, post, hl, -, hcur⟩ := h.admitted.of_mem (hdir.mem_scanOrder hclose)
  obtain ⟨off, hoff, hused, hdot⟩ := (img.after_findcur _ pre i).1 hcur
  have hmem : Turn.dirent i off ∈ img.scanOrder := hl ▸ List.mem_append_left _ hoff
  obtain ⟨pre', post', -, -, hadm⟩ := h.admitted.of_mem hmem
  rw [(hadm hused).1 hdot]
  exact hused

theorem Passed.dotDots_zero (h : img.Passed) : img.dotDots 0 = [] := by
  rw [dotDots]
  by_cases hdir : img.IsDir 0
  · have hnone : img.directEntries 0 = [] := by
      by_contra hne
      exact h.ne_zero_of_directEntries hdir hne rfl
    simp [hnone]
  · rw [if_neg hdir]

/-- Nothing leads from inode 0 to the root. -/
theorem Passed.iterate_recordedParent_zero (h : img.Passed) (n : ℕ) :
    img.recordedParent^[n] 0 = 0 := by
  have hzero : img.recordedParent 0 = 0 := by
    rw [recordedParent, h.dotDots_zero]
    rfl
  exact Function.iterate_fixed hzero n

/-! ### Accepted images -/

/-- The recorded parents lead from every directory to the root, in one step or more. -/
theorem Accepted.exists_iterate (h : img.Accepted) {j : ℕ} (hj : img.IsDir j) :
    ∃ n, img.recordedParent^[n + 1] j = rootino := by
  obtain ⟨-, ⟨fuel, marks, hwalk⟩, -⟩ := img.accepted_iff.1 h
  exact loopCheck_sound hwalk hj.1 (img.dirTable_ne_zero_iff.2 hj)

/-- The parent a directory of an accepted image records is its last used `".."` entry. -/
theorem Accepted.getLast?_dotDots (h : img.Accepted) {j : ℕ} (hj : img.IsDir j) :
    (img.dotDots j).getLast? = some (img.recordedParent j) := by
  rcases hlast : (img.dotDots j).getLast? with - | p
  · have hzero : img.recordedParent j = 0 := by
      rw [recordedParent, hlast]
      rfl
    obtain ⟨n, hn⟩ := h.exists_iterate hj
    rw [Function.iterate_succ_apply, hzero, h.passed.iterate_recordedParent_zero] at hn
    exact absurd hn (by decide)
  · rw [recordedParent, hlast]
    rfl

/-- No entry names the root directory. -/
theorem Passed.namings_rootino (h : img.Passed) : img.namings rootino = [] := by
  rw [← List.length_eq_zero_iff]
  by_cases hroot : img.IsDir rootino
  · exact (h.namedOnce rootino hroot).trans (if_pos rfl)
  · -- without a root directory the scan admits only entries with inode number 0
    rw [List.length_eq_zero_iff, List.eq_nil_iff_forall_not_mem]
    intro x hx
    obtain ⟨hx, hnum, -⟩ := img.mem_namings_iff.1 hx
    have hlt : rootino < img.sb.ninodes := hnum ▸ h.inum_lt hx
    have hmem : Turn.inode rootino ∈ img.scanOrder :=
      List.mem_flatMap.2 ⟨rootino, List.mem_range.2 hlt, List.mem_cons_self⟩
    obtain ⟨pre, post, -, -, -, htype⟩ := h.admitted.of_mem hmem
    exact hroot ⟨hlt, htype rfl⟩

/-! ### Termination -/

variable (img) in
theorem checkRootEntries_ne_outOfFuel (off : ℕ) (l : List ℕ) :
    img.checkRootEntries off l ≠ .error .outOfFuel := by
  induction l with
  | nil => exact fun h ↦ (by cases h)
  | cons e es ih =>
    rw [checkRootEntries]
    split_ifs <;> simp [ih]

variable (img) in
/-- No turn of the scan is a turn of the parent walk. -/
theorem step_ne_outOfFuel (dirarr : ℕ → ℕ) (s : Scan) (t : Turn) :
    img.step dirarr s t ≠ .error .outOfFuel := by
  cases t with
  | inode i =>
    rw [step, checkInode]
    split_ifs <;> simp
  | rootBlock addr =>
    have h := img.checkRootEntries_ne_outOfFuel (addrOff addr) (List.range dpb)
    rw [step, checkRootBlock]
    split_ifs
    · simp
    · rcases hr : img.checkRootEntries (addrOff addr) (List.range dpb) with e | ⟨⟩
      · rw [hr] at h
        simpa using h
      · simp
  | inuse i => simp [step]
  | direct addr =>
    rw [step, checkDirect]
    split_ifs <;> simp
  | indirect addr =>
    rw [step, checkIndirect]
    split_ifs <;> simp
  | entry off =>
    simp only [step, checkEntry]
    split_ifs <;> simp
  | dirent i off =>
    rw [step, scanDirent]
    split_ifs <;> simp
  | closeBlock i =>
    rw [step, closeBlock]
    split_ifs <;> simp
  | reread off =>
    rw [step, readWord]
    split_ifs <;> simp
  | indirectDirent i off =>
    rw [step, scanIndirectDirent]
    split_ifs <;> simp

/-- **The parent walk terminates**, on every image: check mode never needs more turns of a walk
than there are inodes, and one more. -/
theorem checkMode_ne_outOfFuel {fuel : ℕ} (hfuel : img.sb.ninodes < fuel) :
    img.checkMode fuel ≠ .error .outOfFuel := by
  have hmark : img.markDirs ≠ .error .outOfFuel := by
    refine GuardedLoop.foldlM_ne_error (fun d i ↦ ?_) _ _
    split_ifs <;> simp
  have hrules : ∀ s, img.rules s ≠ .error .outOfFuel := by
    refine fun s ↦ GuardedLoop.foldlM_ne_error (fun _ i ↦ ?_) _ _
    rw [checkRules]
    split_ifs <;> simp
  have hparents : ∀ s, img.parents s ≠ .error .outOfFuel := by
    refine fun s ↦ GuardedLoop.foldlM_ne_error (fun _ i ↦ ?_) _ _
    refine GuardedLoop.foldlM_ne_error (fun _ j ↦ ?_) _ _
    rw [checkParent]
    split_ifs <;> simp
  have hbits : ∀ visitblock, img.bitmapScan visitblock ≠ .error .outOfFuel := by
    refine fun visitblock ↦ GuardedLoop.foldlM_ne_error (fun _ addr ↦ ?_) _ _
    rw [scanBit]
    split_ifs <;> simp
  rw [checkMode, Ne, GuardedLoop.bind_eq_error_iff, earlierChecks, GuardedLoop.guard_eq_error_iff,
    GuardedLoop.guard_eq_error_iff]
  rintro ((⟨-, h⟩ | ⟨-, ⟨-, h⟩ | ⟨-, h⟩⟩) | ⟨s, -, h⟩)
  · cases h
  · cases h
  · rcases GuardedLoop.bind_eq_error_iff.1 h with h | ⟨d, -, h⟩
    · exact hmark h
    rcases GuardedLoop.bind_eq_error_iff.1 h with h | ⟨s, -, h⟩
    · rw [scanInodes_eq] at h
      exact GuardedLoop.foldlM_ne_error (img.step_ne_outOfFuel d) _ _ h
    rcases GuardedLoop.bind_eq_error_iff.1 h with h | ⟨-, -, h⟩
    · exact hrules s h
    rcases GuardedLoop.bind_eq_error_iff.1 h with h | ⟨-, -, h⟩
    · exact hparents s h
    rcases GuardedLoop.bind_eq_error_iff.1 h with h | ⟨marks, -, h⟩
    · exact loopCheck_ne_outOfFuel hfuel h
    · cases h
  · exact hbits _ h

/-! ### The tree -/

/-- **The directories of an accepted image form a tree under the root**, and the walk that checks
it terminates on every image. -/
theorem accepted_directory_tree (img : Image) :
    (img.Accepted →
      (∀ j, img.IsDir j → j ≠ 0 → j ≠ rootino → (img.namings j).length = 1) ∧
      img.namings rootino = [] ∧
      (∀ j, img.IsDir j → j ≠ 0 → j ≠ rootino →
        ∀ x ∈ img.namings j, (img.dotDots j).getLast? = some x.dir) ∧
      ∀ j, img.IsDir j → ∃ n, img.recordedParent^[n] j = rootino) ∧
    ∀ fuel, img.sb.ninodes < fuel → img.checkMode fuel ≠ .error .outOfFuel := by
  refine ⟨fun h ↦ ⟨fun j hj _ hroot ↦ ?_, h.passed.namings_rootino, fun j hj _ _ x hx ↦ ?_,
    fun j hj ↦ ?_⟩, fun fuel hfuel ↦ checkMode_ne_outOfFuel hfuel⟩
  · exact (h.passed.namedOnce j hj).trans (if_neg hroot)
  · rw [h.getLast?_dotDots hj, h.passed.parents j hj x hx]
  · obtain ⟨n, hn⟩ := h.exists_iterate hj
    exact ⟨n + 1, hn⟩

/-- The subdirectory of the small image is named once, by the root. -/
theorem smallImage_directory_tree :
    (smallImage.namings 2).length = 1 ∧ smallImage.namings rootino = [] ∧
      (∀ x ∈ smallImage.namings 2, (smallImage.dotDots 2).getLast? = some x.dir) ∧
      (∃ n, smallImage.recordedParent^[n] 2 = rootino) ∧
      smallImage.checkMode 5 ≠ .error .outOfFuel := by
  have hdir : smallImage.IsDir 2 := by decide
  have h := accepted_directory_tree smallImage
  obtain ⟨honce, hroot, hparent, hreach⟩ := h.1 smallImage_accepted
  exact ⟨honce 2 hdir (by decide) (by decide), hroot, hparent 2 hdir (by decide) (by decide),
    hreach 2 hdir, h.2 5 (by decide)⟩

end Image

end Fsck
