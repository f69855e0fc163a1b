import Cs537OS.Fsck.Links

/-!
# The blocks of an accepted image

The scan tests the use count and the bitmap bit of every direct address and of every entry of an
indirect block, at the moment it meets the address. For the address of an indirect block itself,
`addrs[NDIRECT]`, it only raises the count.

* `accepted_used_once_iff` — the blocks of an accepted image are used once exactly when no indirect
  block was in use already when the scan met it: a later use as a direct block or as an entry is
  caught, an earlier one is not;
* `accepted_marked_iff` — they are marked in the bitmap exactly when the indirect blocks are.
-/

namespace Fsck

namespace Image

variable (img : Image)

/-! ### The turn of an indirect block -/

/-- The turns of inode `i` before its indirect block is counted. -/
def turnsBeforeIndirect (i : ℕ) : List Turn :=
  .inode i :: (img.rootTurns i ++
    .inuse i :: (List.range ndirect).map fun j ↦ .direct ((img.dinode i).addrs j))

/-- The turns of inode `i` after its indirect block is counted. -/
def turnsAfterIndirect (i : ℕ) : List Turn :=
  ((List.range nindirect).map fun k ↦ .entry (img.entryAt i k)) ++
    if (img.dinode i).type = tDir then img.directTurns i ++ img.indirectTurns i else []

theorem inodeTurns_of_indirect {i : ℕ} (hu : (img.dinode i).type ≠ 0)
    (hne : img.indirectAddr i ≠ 0) :
    img.inodeTurns i = img.turnsBeforeIndirect i ++
      .indirect (img.indirectAddr i) :: img.turnsAfterIndirect i := by
  rw [inodeTurns, if_neg hu, addrTurns, if_neg hne, turnsBeforeIndirect, turnsAfterIndirect]
  simp only [List.append_assoc, List.cons_append]

theorem filterMap_blockOf_turnsBeforeIndirect (i : ℕ) :
    (img.turnsBeforeIndirect i).filterMap img.blockOf = img.directBlocks i := by
  have hroot : (img.rootTurns i).filterMap img.blockOf = [] := by
    rw [List.filterMap_eq_nil_iff]
    intro t ht
    obtain ⟨addr, rfl⟩ := img.mem_rootTurns ht
    rfl
  rw [turnsBeforeIndirect, List.filterMap_cons_none rfl, List.filterMap_append, hroot,
    List.nil_append, List.filterMap_cons_none rfl, directBlocks, ← List.filterMap_eq_filter,
    List.filterMap_map, List.filterMap_map]
  rfl

/-- Inode `i` has one turn of this kind. -/
theorem indirect_notMem (i a : ℕ) :
    .indirect a ∉ img.turnsBeforeIndirect i ∧ .indirect a ∉ img.turnsAfterIndirect i := by
  constructor
  · intro h
    rcases List.mem_cons.1 h with h | h
    · cases h
    rcases List.mem_append.1 h with h | h
    · obtain ⟨addr, h⟩ := img.mem_rootTurns h
      cases h
    rcases List.mem_cons.1 h with h | h
    · cases h
    · obtain ⟨j, -, h⟩ := List.mem_map.1 h
      cases h
  · intro h
    rcases List.mem_append.1 h with h | h
    · obtain ⟨k, -, h⟩ := List.mem_map.1 h
      cases h
    split at h
    · rcases List.mem_append.1 h with h | h
      · rcases img.mem_directTurns h with ⟨off, h⟩ | h <;> cases h
      · rcases img.mem_indirectTurns h with ⟨off, h⟩ | ⟨off, h⟩ <;> cases h
    · exact absurd h List.not_mem_nil

/-- An inode without an indirect block has no such turn. -/
theorem indirect_notMem_inodeTurns {i : ℕ}
    (h : (img.dinode i).type = 0 ∨ img.indirectAddr i = 0) (a : ℕ) :
    .indirect a ∉ img.inodeTurns i := by
  intro hmem
  rcases List.mem_cons.1 hmem with hmem | hmem
  · cases hmem
  rcases List.mem_append.1 hmem with hmem | hmem
  · obtain ⟨addr, hmem⟩ := img.mem_rootTurns hmem
    cases hmem
  split at hmem
  · exact absurd hmem List.not_mem_nil
  case isFalse hu =>
    have hzero : img.indirectAddr i = 0 := h.resolve_left hu
    rcases List.mem_cons.1 hmem with hmem | hmem
    · cases hmem
    rcases List.mem_append.1 hmem with hmem | hmem
    · rw [addrTurns, if_pos hzero, List.append_nil] at hmem
      obtain ⟨j, -, hmem⟩ := List.mem_map.1 hmem
      cases hmem
    · have hafter : .indirect a ∈ img.turnsAfterIndirect i := List.mem_append_right _ hmem
      exact (img.indirect_notMem i a).2 hafter

/-- When the scan counts an indirect block, it has counted the blocks of the lower-numbered in-use
inodes and the direct blocks of the inode at hand. -/
theorem filterMap_blockOf_of_indirect {pre post : List Turn} {a : ℕ}
    (h : img.scanOrder = pre ++ .indirect a :: post) :
    ∃ i, img.InUse i ∧ img.indirectAddr i ≠ 0 ∧ a = img.indirectAddr i ∧
      pre.filterMap img.blockOf = img.blocksBelow i ++ img.directBlocks i := by
  obtain ⟨i, hi, p, q, hsplit, rfl⟩ := GuardedLoop.flatMap_range_eq_append_cons h
  have hmem : .indirect a ∈ img.inodeTurns i := by
    rw [hsplit]
    exact List.mem_append_right _ List.mem_cons_self
  have hu : (img.dinode i).type ≠ 0 := fun h₀ ↦ img.indirect_notMem_inodeTurns (.inl h₀) a hmem
  have hne : img.indirectAddr i ≠ 0 := fun h₀ ↦ img.indirect_notMem_inodeTurns (.inr h₀) a hmem
  rw [img.inodeTurns_of_indirect hu hne] at hsplit
  obtain ⟨hbefore, hafter⟩ := img.indirect_notMem i a
  obtain ⟨hp, ha, -⟩ := (List.append_cons_inj_of_notMem hbefore hafter).1 hsplit
  refine ⟨i, ⟨hi, hu⟩, hne, (Turn.indirect.inj ha).symm, ?_⟩
  rw [List.filterMap_append, ← hp, filterMap_blockOf_turnsBeforeIndirect, ← filterMap_blockOf]
  rfl

/-! ### Blocks used twice -/

/-- The uses of blocks, split at the indirect block of an in-use inode. -/
theorem blockUses_eq_append {i : ℕ} (hu : img.InUse i) (hne : img.indirectAddr i ≠ 0) :
    ∃ rest, img.blockUses =
      (img.blocksBelow i ++ img.directBlocks i) ++ img.indirectAddr i :: rest := by
  obtain ⟨k, hk⟩ := Nat.exists_eq_add_of_lt hu.1
  have hrange : List.range img.sb.ninodes = List.range i ++ i :: List.range' (i + 1) k := by
    rw [hk, List.range_eq_range', List.range_eq_range', ← List.range'_succ, Nat.add_assoc,
      ← List.range'_append_1, Nat.zero_add]
  refine ⟨img.indirectBlocks i ++ (List.range' (i + 1) k).flatMap fun i ↦
    if (img.dinode i).type = 0 then [] else img.inodeBlocks i, ?_⟩
  rw [blockUses, blocksBelow, hrange, List.flatMap_append, List.flatMap_cons, if_neg hu.2,
    inodeBlocks, if_neg hne]
  simp only [blocksBelow, List.append_assoc, List.cons_append]

/-- A turn that tests the use count met no earlier use. -/
theorem Passed.notMem_of_ne_indirect {img : Image} (h : img.Passed) {pre post : List Turn}
    {t : Turn} {b : ℕ} (hl : img.scanOrder = pre ++ t :: post) (hb : img.blockOf t = some b)
    (ht : ∀ a, t ≠ .indirect a) : b ∉ pre.filterMap img.blockOf := by
  have hadm := h.admitted pre t post hl
  rw [← List.count_eq_zero, ← img.after_visitblock img.dirTable]
  cases t with
  | direct addr =>
    obtain ⟨hne, rfl⟩ : addr ≠ 0 ∧ addr = b := by simpa [blockOf, Option.guard] using hb
    exact (hadm hne).2.2.1
  | entry off =>
    obtain ⟨hne, rfl⟩ : img.u32 off ≠ 0 ∧ img.u32 off = b := by
      simpa [blockOf, Option.guard] using hb
    exact (hadm.2 hne).2.2.2.1
  | indirect a => exact absurd rfl (ht a)
  | _ => cases hb

/-- **When the blocks of an accepted image are used once**, over all in-use inodes and all three
roles: no indirect block may be a block of a lower-numbered in-use inode, or a direct block of its
own inode. -/
theorem accepted_used_once_iff (h : img.Accepted) :
    (∀ b, img.blockUses.count b ≤ 1) ↔
      ∀ i, img.InUse i → img.indirectAddr i ≠ 0 →
        img.indirectAddr i ∉ img.blocksBelow i ∧ img.indirectAddr i ∉ img.directBlocks i := by
  rw [← List.nodup_iff_count_le_one]
  constructor
  · intro hnodup i hu hne
    obtain ⟨rest, huses⟩ := img.blockUses_eq_append hu hne
    rw [huses, List.nodup_append] at hnodup
    obtain ⟨-, -, hdisj⟩ := hnodup
    have hnot : img.indirectAddr i ∉ img.blocksBelow i ++ img.directBlocks i :=
      fun hmem ↦ hdisj _ hmem _ List.mem_cons_self rfl
    rwa [List.mem_append, not_or] at hnot
  · intro hfresh
    rw [blockUses, ← filterMap_blockOf]
    refine GuardedLoop.nodup_filterMap_of_forall_prefix img.blockOf fun pre t post b hl hb ↦ ?_
    by_cases ht : ∃ a, t = .indirect a
    · obtain ⟨a, rfl⟩ := ht
      obtain ⟨i, hu, hne, rfl, hpre⟩ := img.filterMap_blockOf_of_indirect hl
      obtain rfl : img.indirectAddr i = b := Option.some.inj hb
      rw [hpre, List.mem_append, not_or]
      exact hfresh i hu hne
    · exact h.passed.notMem_of_ne_indirect hl hb fun a hta ↦ ht ⟨a, hta⟩

/-- The small image is accepted and its blocks are used once, the indirect block among them. -/
theorem smallImage_used_once :
    smallImage.Accepted ∧ 7 ∈ smallImage.blockUses ∧
      ∀ b, smallImage.blockUses.count b ≤ 1 := by
  refine ⟨smallImage_accepted, by decide +kernel, ?_⟩
  refine (accepted_used_once_iff smallImage smallImage_accepted).2 fun i hu hne ↦ ?_
  have hall : ∀ i < 4, smallImage.indirectAddr i ≠ 0 →
      smallImage.indirectAddr i ∉ smallImage.blocksBelow i ∧
        smallImage.indirectAddr i ∉ smallImage.directBlocks i := by decide +kernel
  exact hall i hu.1 hne

/-- The file of this image has one block, which is also its indirect block. -/
def pointerReusedImage : Image :=
  ofChunks 7
    [sbChunk 7 3 4, inodeChunk 1 1 1 [4], inodeChunk 2 1 1 [5],
      inodeChunk 3 2 1 [6, 0, 0, 0, 0, 0, 0, 0, 0, 0, 0, 0, 6], (3 * bsize, [0x7f]),
      direntChunk 4 0 1 [46], direntChunk 4 1 1 [46, 46], direntChunk 4 2 2 [100],
      direntChunk 4 3 3 [102], direntChunk 5 0 2 [46], direntChunk 5 1 1 [46, 46]]

set_option maxRecDepth 100000 in
/-- The checker accepts the block used twice. -/
theorem pointerReusedImage_used_twice :
    pointerReusedImage.checkMode 5 = .ok () ∧ pointerReusedImage.blockUses.count 6 = 2 := by
  refine ⟨by decide +kernel, by decide +kernel⟩

/-! ### Blocks marked in the bitmap -/

/-- The turns of the addresses of an in-use inode are turns of the scan. -/
theorem InUse.mem_scanOrder {img : Image} {i : ℕ} (h : img.InUse i) {t : Turn}
    (ht : t ∈ img.addrTurns i) : t ∈ img.scanOrder := by
  refine List.mem_flatMap.2 ⟨i, List.mem_range.2 h.1, ?_⟩
  rw [inodeTurns, if_neg h.2]
  simp [ht]

/-- The direct blocks of an in-use inode are marked. -/
theorem Passed.marked_of_mem_directBlocks {img : Image} (h : img.Passed) {i b : ℕ}
    (hu : img.InUse i) (hb : b ∈ img.directBlocks i) : img.Marked b := by
  obtain ⟨hb, hne⟩ := List.mem_filter.1 hb
  obtain ⟨j, hj, rfl⟩ := List.mem_map.1 hb
  have hturn : Turn.direct ((img.dinode i).addrs j) ∈ img.addrTurns i :=
    List.mem_append_left _ (List.mem_map.2 ⟨j, hj, rfl⟩)
  obtain ⟨pre, post, -, hadm⟩ := h.admitted.of_mem (hu.mem_scanOrder hturn)
  exact (hadm (of_decide_eq_true hne)).2.2.2

/-- The blocks that the indirect block of an in-use inode lists are marked. -/
theorem Passed.marked_of_mem_indirectBlocks {img : Image} (h : img.Passed) {i b : ℕ}
    (hu : img.InUse i) (hind : img.indirectAddr i ≠ 0) (hb : b ∈ img.indirectBlocks i) :
    img.Marked b := by
  obtain ⟨hb, hne⟩ := List.mem_filter.1 hb
  obtain ⟨k, hk, rfl⟩ := List.mem_map.1 hb
  have hturn : Turn.entry (img.entryAt i k) ∈ img.addrTurns i := by
    refine List.mem_append_right _ ?_
    rw [if_neg hind]
    exact List.mem_cons_of_mem _ (List.mem_map.2 ⟨k, hk, rfl⟩)
  obtain ⟨pre, post, -, -, hadm⟩ := h.admitted.of_mem (hu.mem_scanOrder hturn)
  exact (hadm (of_decide_eq_true hne)).2.2.2.2

/-- **When the blocks of an accepted image are marked**: when its indirect blocks are. -/
theorem accepted_marked_iff (h : img.Accepted) :
    (∀ b ∈ img.blockUses, img.Marked b) ↔
      ∀ i, img.InUse i → img.indirectAddr i ≠ 0 → img.Marked (img.indirectAddr i) := by
  constructor
  · intro hall i hu hne
    refine hall _ (img.mem_blockUses_iff.2 ⟨i, hu, List.mem_append_right _ ?_⟩)
    rw [if_neg hne]
    exact List.mem_cons_self
  · intro hind b hb
    obtain ⟨i, hu, hb⟩ := img.mem_blockUses_iff.1 hb
    rcases List.mem_append.1 hb with hb | hb
    · exact h.passed.marked_of_mem_directBlocks hu hb
    · by_cases hne : img.indirectAddr i = 0
      · rw [if_pos hne] at hb
        exact absurd hb List.not_mem_nil
      · rw [if_neg hne] at hb
        rcases List.mem_cons.1 hb with rfl | hb
        · exact hind i hu hne
        · exact h.passed.marked_of_mem_indirectBlocks hu hne hb

/-- The small image is accepted and its blocks are marked, the indirect block among them. -/
theorem smallImage_marked : smallImage.Accepted ∧ 7 ∈ smallImage.blockUses ∧
    ∀ b ∈ smallImage.blockUses, smallImage.Marked b := by
  refine ⟨smallImage_accepted, by decide +kernel, ?_⟩
  refine (accepted_marked_iff smallImage smallImage_accepted).2 fun i hu hne ↦ ?_
  have hall : ∀ i < 4, smallImage.indirectAddr i ≠ 0 →
      smallImage.Marked (smallImage.indirectAddr i) := by decide +kernel
  exact hall i hu.1 hne

/-- The file of this image has an empty indirect block, which the bitmap calls free. -/
def pointerUnmarkedImage : Image :=
  ofChunks 7
    [sbChunk 7 3 4, inodeChunk 1 1 1 [4], inodeChunk 2 1 1 [5],
      inodeChunk 3 2 1 [0, 0, 0, 0, 0, 0, 0, 0, 0, 0, 0, 0, 6], (3 * bsize, [0x3f]),
      direntChunk 4 0 1 [46], direntChunk 4 1 1 [46, 46], direntChunk 4 2 2 [100],
      direntChunk 4 3 3 [102], direntChunk 5 0 2 [46], direntChunk 5 1 1 [46, 46]]

set_option maxRecDepth 100000 in
/-- The checker accepts the block used and not marked. -/
theorem pointerUnmarkedImage_not_marked :
    pointerUnmarkedImage.checkMode 5 = .ok () ∧ 6 ∈ pointerUnmarkedImage.blockUses ∧
      ¬ pointerUnmarkedImage.Marked 6 := by
  refine ⟨by decide +kernel, by decide +kernel, by decide +kernel⟩

end Image

end Fsck
