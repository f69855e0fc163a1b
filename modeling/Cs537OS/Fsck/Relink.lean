import Cs537OS.Fsck.Survey

/-!
# What the repairer writes

The specification of the second half of a repair run. The repairer writes one link for each lost
inode, into consecutive entries from the third of the first block of `lostFound` on whatever is
there (`Image.links`), and then `"."` and `".."` into the first two entries of the first block of
each lost directory (`Image.dots`).

The loops read their bounds and the inodes of the lost directories from the image they are
writing. When no write changes a byte of the superblock or of the inode table
(`Image.Quiet`) that makes no difference, and the result is the image with all `writes` made
(`Image.repair_eq_ok_iff_of_quiet`).
-/

namespace Fsck

/-! ### Images that agree -/

/-- The images hold the same bytes from offset `off` on, for `len` bytes. -/
def AgreeOn (img img' : Image) (off len : ℕ) : Prop :=
  ∀ a, off ≤ a → a < off + len → img'.byte a = img.byte a

namespace AgreeOn

variable {img img' : Image} {off len : ℕ}

theorem mono {off' len' : ℕ} (h : AgreeOn img img' off len) (h₁ : off ≤ off')
    (h₂ : off' + len' ≤ off + len) : AgreeOn img img' off' len' :=
  fun a ha ha' ↦ h a (by omega) (by omega)

theorem u16_eq (h : AgreeOn img img' off 2) : img'.u16 off = img.u16 off := by
  rw [Image.u16, Image.u16, h off (by omega) (by omega), h (off + 1) (by omega) (by omega)]

theorem u32_eq (h : AgreeOn img img' off 4) : img'.u32 off = img.u32 off := by
  rw [Image.u32, Image.u32, (h.mono (by omega) (by omega) : AgreeOn img img' off 2).u16_eq,
    (h.mono (by omega) (by omega) : AgreeOn img img' (off + 2) 2).u16_eq]

theorem word_eq (h : AgreeOn img img' off 4) : img'.word off = img.word off := by
  rw [Image.word, Image.word, h.u32_eq]

theorem dirent_eq (h : AgreeOn img img' off 16) : img'.dirent off = img.dirent off := by
  have hname : ∀ k ∈ List.range dirsiz, img'.byte (off + 2 + k) = img.byte (off + 2 + k) := by
    intro k hk
    have hk : k < 14 := List.mem_range.1 hk
    exact h _ (by omega) (by omega)
  rw [Image.dirent, Image.dirent, (h.mono (by omega) (by omega) : AgreeOn img img' off 2).u16_eq,
    List.map_congr_left hname]

end AgreeOn

namespace Image

/-- Superblock, inode table and bitmap are the same. -/
def SameMeta (img img' : Image) : Prop :=
  img'.stSize = img.stSize ∧ ∀ a, bsize ≤ a → a < img.dataStart → img'.byte a = img.byte a

variable {img img' : Image}

/-- The inode table ends before the data blocks start. -/
theorem inodeOff_add_le {i : ℕ} (hi : i < img.sb.ninodes) : inodeOff i + 64 ≤ img.dataStart := by
  have hb : 1 ≤ img.bitblocks := Nat.le_add_left _ _
  rw [dataStart, bblock, inodeOff, ipb, bpb, bsize]
  omega

namespace SameMeta

variable (h : img.SameMeta img')
include h

theorem agreeOn {off len : ℕ} (h₁ : bsize ≤ off) (h₂ : off + len ≤ img.dataStart) :
    AgreeOn img img' off len :=
  fun a ha ha' ↦ h.2 a (by omega) (by omega)

theorem sb_eq : img'.sb = img.sb := by
  have hd : bsize + 12 ≤ img.dataStart := by
    rw [dataStart, bblock, bpb, ipb, bsize]
    omega
  have ha : AgreeOn img img' bsize 12 := h.agreeOn (Nat.le_refl _) hd
  rw [sb, sb, (ha.mono (by omega) (by omega) : AgreeOn img img' bsize 4).u32_eq,
    (ha.mono (by omega) (by omega) : AgreeOn img img' (bsize + 4) 4).u32_eq,
    (ha.mono (by omega) (by omega) : AgreeOn img img' (bsize + 8) 4).u32_eq]

theorem inode_agreeOn {i : ℕ} (hi : i < img.sb.ninodes) : AgreeOn img img' (inodeOff i) 64 :=
  h.agreeOn (by unfold inodeOff; omega) (inodeOff_add_le hi)

theorem type_eq {i : ℕ} (hi : i < img.sb.ninodes) :
    (img'.dinode i).type = (img.dinode i).type := by
  show img'.i16 _ = img.i16 _
  rw [i16, i16, ((h.inode_agreeOn hi).mono (Nat.le_refl _) (by omega) :
    AgreeOn img img' (inodeOff i) 2).u16_eq]

theorem addrs_eq {i k : ℕ} (hi : i < img.sb.ninodes) (hk : k ≤ ndirect) :
    (img'.dinode i).addrs k = (img.dinode i).addrs k := by
  have hk : k ≤ 12 := hk
  exact ((h.inode_agreeOn hi).mono (by omega) (by omega)).u32_eq

theorem readable_iff {off : ℤ} {len : ℕ} : img'.Readable off len ↔ img.Readable off len := by
  rw [Readable, Readable, h.1]

theorem isDir_iff {i : ℕ} : img'.IsDir i ↔ img.IsDir i := by
  rw [IsDir, IsDir, h.sb_eq]
  exact and_congr_right fun hi ↦ by rw [h.type_eq hi]

theorem inUse_iff {i : ℕ} : img'.InUse i ↔ img.InUse i := by
  rw [InUse, InUse, h.sb_eq]
  exact and_congr_right fun hi ↦ by rw [h.type_eq hi]

theorem directBlocks_eq {i : ℕ} (hi : i < img.sb.ninodes) :
    img'.directBlocks i = img.directBlocks i := by
  rw [directBlocks, directBlocks, List.map_congr_left fun k hk ↦
    h.addrs_eq hi (Nat.le_of_lt (List.mem_range.1 hk))]

theorem directOffs_eq {i : ℕ} (hi : i < img.sb.ninodes) :
    img'.directOffs i = img.directOffs i := by
  rw [directOffs, directOffs, h.directBlocks_eq hi]

theorem indirectAddr_eq {i : ℕ} (hi : i < img.sb.ninodes) :
    img'.indirectAddr i = img.indirectAddr i := h.addrs_eq hi (Nat.le_refl _)

/-- The listing of an inode is the same when its indirect block is. -/
theorem listedWords_eq {i : ℕ} (hi : i < img.sb.ninodes)
    (hx : img.indirectAddr i ≠ 0 → AgreeOn img img' (addrOff (img.indirectAddr i)) bsize) :
    img'.listedWords i = img.listedWords i := by
  rw [listedWords, listedWords, h.indirectAddr_eq hi]
  rcases eq_or_ne (img.indirectAddr i) 0 with h₀ | h₀
  · rw [if_pos h₀, if_pos h₀]
  · rw [if_neg h₀, if_neg h₀]
    refine congrArg _ (List.map_congr_left fun m hm ↦ ?_)
    have hm : m < 128 := List.mem_range.1 hm
    have he : img'.entryAt i m = img.entryAt i m := by rw [entryAt, entryAt, h.indirectAddr_eq hi]
    rw [he]
    refine ((hx h₀).mono ?_ ?_).word_eq
    · rw [entryAt]
      omega
    · rw [entryAt, bsize]
      omega

end SameMeta

variable (img)

/-! ### The places written -/

/-- The offset of the first block of inode `j`. -/
def firstOff (j : ℕ) : ℕ := addrOff ((img.dinode j).addrs 0)

/-- The lost inodes below `m`. -/
def lostBelow (m : ℕ) : List ℕ := (List.range m).filter (· ∈ img.lost)

/-- The number of lost inodes before `j`. -/
def rank (j : ℕ) : ℕ := (img.lostBelow j).length

/-- The place of the link of rank `k`. -/
def linkOff (k : ℕ) : ℕ := img.firstOff img.lostFound + 2 * 16 + 16 * k

/-- The link written for the lost inode `j`: its name is the number of inodes still to be
linked. -/
def link (j : ℕ) : Patch UInt8 :=
  direntPatch (img.linkOff (img.rank j)) j (decimal (img.lost.length - img.rank j))

/-- The links, in the order in which they are written. -/
def links : List (Patch UInt8) := img.lost.map img.link

/-- `"."` and `".."` of the lost directory `j`. -/
def dots (j : ℕ) : List (Patch UInt8) :=
  [direntPatch (img.firstOff j) j [46], direntPatch (img.firstOff j + 16) img.lostFound [46, 46]]

/-- The directories being relinked. -/
def relinked : List ℕ := img.lost.filter fun j ↦ img.IsDir j

/-- All that a run writes. -/
def writes : List (Patch UInt8) := img.links ++ img.relinked.flatMap img.dots

/-- The image with the given patches written into it. -/
def written (ws : List (Patch UInt8)) : Image := { img with byte := Patch.writeAll img.byte ws }

/-- No write changes the superblock, the inode table or the bitmap. -/
def Quiet : Prop :=
  ∀ w ∈ img.writes, ∀ a v, w.at? a = some v → bsize ≤ a → a < img.dataStart → img.byte a = v

theorem written_append (vs ws : List (Patch UInt8)) :
    img.written (vs ++ ws) = (img.written vs).written ws := by
  rw [written, Patch.writeAll_append]
  rfl

theorem mem_relinked_iff {j : ℕ} : j ∈ img.relinked ↔ j ∈ img.lost ∧ img.IsDir j := by
  simp [relinked]

/-- A write is a link, or one of the two entries of a relinked directory. -/
theorem mem_writes_iff {w : Patch UInt8} :
    w ∈ img.writes ↔
      (∃ j ∈ img.lost, w = img.link j) ∨
        ∃ j ∈ img.lost, img.IsDir j ∧ w ∈ img.dots j := by
  simp only [writes, links, List.mem_append, List.mem_map, List.mem_flatMap, mem_relinked_iff,
    and_assoc, eq_comm]

theorem writes_eq_nil (h : img.lost = []) : img.writes = [] := by
  rw [writes, links, relinked, h]
  rfl

theorem lostBelow_succ (m : ℕ) :
    img.lostBelow (m + 1) = img.lostBelow m ++ if m ∈ img.lost then [m] else [] := by
  rw [lostBelow, List.range_succ, List.filter_append, ← lostBelow]
  split
  next h => simp [h]
  next h => simp [h]

theorem lostBelow_ninodes : img.lostBelow img.sb.ninodes = img.lost := by
  refine List.filter_congr fun i hi ↦ ?_
  rw [decide_eq_decide, mem_lost_iff, InUse, and_assoc]
  exact and_iff_right (List.mem_range.1 hi)

theorem length_lostBelow_le {m m' : ℕ} (h : m ≤ m') :
    (img.lostBelow m).length ≤ (img.lostBelow m').length :=
  (((List.range_sublist.2 h).filter _).length_le)

/-- Ranks grow along the lost inodes. -/
theorem rank_lt {j m : ℕ} (hj : j ∈ img.lost) (h : j < m) :
    img.rank j < (img.lostBelow m).length := by
  have hs : (img.lostBelow (j + 1)).length = img.rank j + 1 := by
    rw [lostBelow_succ, if_pos hj, List.length_append]
    rfl
  have hle := img.length_lostBelow_le (show j + 1 ≤ m from h)
  omega

theorem rank_lt_length {j : ℕ} (hj : j ∈ img.lost) : img.rank j < img.lost.length := by
  have h := img.rank_lt hj (img.mem_lost_iff.1 hj).1.1
  rwa [lostBelow_ninodes] at h

theorem rank_inj {i j : ℕ} (hi : i ∈ img.lost) (hj : j ∈ img.lost)
    (h : img.rank i = img.rank j) : i = j := by
  rcases Nat.lt_trichotomy i j with hlt | heq | hgt
  · exact absurd h (Nat.ne_of_lt (img.rank_lt hi hlt))
  · exact heq
  · exact absurd h.symm (Nat.ne_of_lt (img.rank_lt hj hgt))

variable {img}

theorem Quiet.sameMeta (hq : img.Quiet) {ws : List (Patch UInt8)}
    (hws : ∀ w ∈ ws, w ∈ img.writes) : img.SameMeta (img.written ws) :=
  ⟨rfl, fun _ h₁ h₂ ↦ Patch.writeAll_of_forall fun w hw v hv ↦ hq w (hws w hw) _ v hv h₁ h₂⟩

theorem store_eq_ok_iff {p : Patch UInt8} :
    img.store p = .ok img' ↔ img.Readable p.off p.vals.length ∧ img' = img.written [p] := by
  rw [store, GuardedLoop.guard_eq_ok_iff, not_not]
  exact and_congr_right fun _ ↦ ⟨fun h ↦ (Except.ok.inj h).symm, fun h ↦ congrArg _ h.symm⟩

/-! ### The loop that writes the links -/

variable (img)

/-- The variables of the loop before turn `m`. -/
def linkState (m : ℕ) : Relink :=
  ⟨img.written ((img.lostBelow m).map img.link), img.lost.length - (img.lostBelow m).length,
    img.linkOff (img.lostBelow m).length⟩

variable {img}

private theorem map_link_subset {m : ℕ} : ∀ w ∈ (img.lostBelow m).map img.link, w ∈ img.writes := by
  intro w hw
  obtain ⟨j, hj, rfl⟩ := List.mem_map.1 hw
  exact img.mem_writes_iff.2 (.inl ⟨j, by simpa using (List.mem_filter.1 hj).2, rfl⟩)

/-- One turn of the loop that writes the links. -/
theorem linkTarget_eq_ok_iff (hq : img.Quiet) {m : ℕ} (hm : m < img.sb.ninodes) {s : Relink} :
    linkTarget img.sb.ninodes img.lostTable (img.linkState m) m = .ok s ↔
      (m ∈ img.lost → img.Readable (img.link m).off (img.link m).vals.length) ∧
        s = img.linkState (m + 1) := by
  have hmeta : img.SameMeta (img.linkState m).img := hq.sameMeta map_link_subset
  have hlt : m < (img.linkState m).img.sb.ninodes := by rwa [hmeta.sb_eq]
  by_cases hlost : m ∈ img.lost
  · have hrank : (img.lostBelow m).length < img.lost.length := img.rank_lt_length hlost
    have herr : 0 < (img.linkState m).error := Nat.sub_pos_of_lt hrank
    have hnext : img.linkState (m + 1) = ⟨(img.linkState m).img.written [img.link m],
        (img.linkState m).error - 1, (img.linkState m).dircur + 16⟩ := by
      rw [linkState, lostBelow_succ, if_pos hlost, List.map_append, written_append,
        List.length_append]
      rfl
    rw [linkTarget, if_neg (not_not.2 ⟨herr, hlt⟩), if_neg (not_not.2 hm),
      if_pos (img.lostTable_targetinode.2 hlost), GuardedLoop.bind_eq_ok_iff, hnext]
    simp only [store_eq_ok_iff, hmeta.readable_iff]
    constructor
    · rintro ⟨_, ⟨hr, rfl⟩, hs⟩
      exact ⟨fun _ ↦ hr, (Except.ok.inj hs).symm⟩
    · rintro ⟨hr, rfl⟩
      exact ⟨_, ⟨hr hlost, rfl⟩, rfl⟩
  · have htarget : ¬ img.lostTable.targetinode m ≠ 0 := fun h ↦
      hlost (img.lostTable_targetinode.1 h)
    have hnext : img.linkState (m + 1) = img.linkState m := by
      rw [linkState, lostBelow_succ, if_neg hlost, List.append_nil]
      rfl
    have hstay : linkTarget img.sb.ninodes img.lostTable (img.linkState m) m =
        .ok (img.linkState m) := by
      rw [linkTarget, if_neg (not_not.2 hm), if_neg htarget, ite_self]
    rw [hstay, hnext]
    simp [hlost, eq_comm]

/-- The loop over the first `m` inodes. -/
theorem foldlM_linkTarget (hq : img.Quiet) {m : ℕ} (hm : m ≤ img.sb.ninodes) {s : Relink} :
    (List.range m).foldlM (linkTarget img.sb.ninodes img.lostTable) (img.linkState 0) = .ok s ↔
      (∀ j < m, j ∈ img.lost → img.Readable (img.link j).off (img.link j).vals.length) ∧
        s = img.linkState m := by
  induction m generalizing s with
  | zero => simp [eq_comm, pure, Except.pure]
  | succ m ih =>
    rw [List.range_succ, List.foldlM_append, GuardedLoop.bind_eq_ok_iff]
    simp only [ih (Nat.le_of_succ_le hm), List.foldlM_cons, List.foldlM_nil, bind_pure]
    constructor
    · rintro ⟨_, ⟨hr, rfl⟩, hs⟩
      obtain ⟨hr', rfl⟩ := (linkTarget_eq_ok_iff hq hm).1 hs
      refine ⟨fun j hj hl ↦ ?_, rfl⟩
      rcases Nat.lt_succ_iff_lt_or_eq.1 hj with hj | rfl
      · exact hr j hj hl
      · exact hr' hl
    · rintro ⟨hr, rfl⟩
      exact ⟨_, ⟨fun j hj ↦ hr j (Nat.lt_succ_of_lt hj), rfl⟩,
        (linkTarget_eq_ok_iff hq hm).2 ⟨hr m (Nat.lt_succ_self m), rfl⟩⟩

/-! ### The loop that relinks the lost directories -/

variable (img)

/-- The lost directories below `m`. -/
def relinkedBelow (m : ℕ) : List ℕ := (img.lostBelow m).filter fun j ↦ img.IsDir j

/-- The image before turn `m` of the second loop. -/
def dotState (m : ℕ) : Image := img.written (img.links ++ (img.relinkedBelow m).flatMap img.dots)

variable {img}

private theorem links_dots_subset {m : ℕ} :
    ∀ w ∈ img.links ++ (img.relinkedBelow m).flatMap img.dots, w ∈ img.writes := by
  intro w hw
  rw [mem_writes_iff]
  rcases List.mem_append.1 hw with hw | hw
  · obtain ⟨j, hj, rfl⟩ := List.mem_map.1 hw
    exact .inl ⟨j, hj, rfl⟩
  · obtain ⟨j, hj, hw⟩ := List.mem_flatMap.1 hw
    obtain ⟨hlost, hdir⟩ := List.mem_filter.1 hj
    exact .inr ⟨j, by simpa using (List.mem_filter.1 hlost).2, by simpa using hdir, hw⟩

/-- The two stores into the first block of a directory. -/
private theorem store_dots_eq_ok_iff {cur : Image} (hmeta : img.SameMeta cur) {j : ℕ}
    (hj : j < img.sb.ninodes) :
    (do
      let direntpar := addrOff ((cur.dinode j).addrs 0)
      let cur ← cur.store (direntPatch direntpar j [46])
      cur.store (direntPatch (direntpar + 16) img.lostFound [46, 46])) = .ok img' ↔
      (∀ w ∈ img.dots j, img.Readable w.off w.vals.length) ∧ img' = cur.written (img.dots j) := by
  have hfirst : addrOff ((cur.dinode j).addrs 0) = img.firstOff j := by
    rw [firstOff, hmeta.addrs_eq hj (Nat.zero_le _)]
  rw [hfirst, GuardedLoop.bind_eq_ok_iff]
  simp only [store_eq_ok_iff, dots, List.forall_mem_cons]
  constructor
  · rintro ⟨_, ⟨h₁, rfl⟩, h₂, rfl⟩
    rw [hmeta.readable_iff] at h₁
    have h₂ : cur.Readable _ _ := h₂
    rw [hmeta.readable_iff] at h₂
    exact ⟨⟨h₁, h₂, by simp⟩, rfl⟩
  · rintro ⟨⟨h₁, h₂, -⟩, rfl⟩
    refine ⟨_, ⟨hmeta.readable_iff.2 h₁, rfl⟩, ?_, rfl⟩
    show cur.Readable _ _
    exact hmeta.readable_iff.2 h₂

/-- One turn of the loop that relinks the lost directories. -/
theorem relinkDir_eq_ok_iff (hs : img.Surveyed) (hq : img.Quiet) {m : ℕ}
    (hm : m < img.sb.ninodes) :
    relinkDir img.sb.ninodes img.tables img.lostTable (img.dotState m) m = .ok img' ↔
      (m ∈ img.lost → img.IsDir m → ∀ w ∈ img.dots m, img.Readable w.off w.vals.length) ∧
        img' = img.dotState (m + 1) := by
  have hmeta : img.SameMeta (img.dotState m) := hq.sameMeta links_dots_subset
  have hlt : m < (img.dotState m).sb.ninodes := by rwa [hmeta.sb_eq]
  have htarget : (img.lostTable.targetinode m ≠ 0 ∧ img.tables.dirinode m ≠ 0) ↔
      m ∈ img.lost ∧ img.IsDir m := by
    rw [img.lostTable_targetinode, img.tables_dirinode]
  rw [relinkDir, if_neg (not_not.2 hlt), if_neg (not_not.2 hm)]
  by_cases hdir : m ∈ img.lost ∧ img.IsDir m
  · have hnext : img.dotState (m + 1) = (img.dotState m).written (img.dots m) := by
      rw [dotState, relinkedBelow, lostBelow_succ, if_pos hdir.1, List.filter_append,
        List.flatMap_append, ← List.append_assoc, written_append]
      simp [dotState, relinkedBelow, hdir.2]
    rw [if_pos (htarget.2 hdir), if_neg (not_not.2 (hmeta.readable_iff.2 (hs.inodes m hm))),
      img.tables_lfinum, store_dots_eq_ok_iff hmeta hm, hnext]
    simp [hdir.1, hdir.2]
  · have hnext : img.dotState (m + 1) = img.dotState m := by
      rw [dotState, relinkedBelow, lostBelow_succ, List.filter_append]
      split
      next hl =>
        have hnd : ¬ img.IsDir m := fun hd ↦ hdir ⟨hl, hd⟩
        simp [dotState, relinkedBelow, hnd]
      next => simp [dotState, relinkedBelow]
    rw [if_neg (mt htarget.1 hdir), hnext]
    have hskip : m ∈ img.lost → img.IsDir m → ∀ w ∈ img.dots m, img.Readable w.off w.vals.length :=
      fun hl hd ↦ absurd ⟨hl, hd⟩ hdir
    exact ⟨fun h ↦ ⟨hskip, (Except.ok.inj h).symm⟩, fun h ↦ congrArg _ h.2.symm⟩

/-- The loop over the first `m` inodes. -/
theorem foldlM_relinkDir (hs : img.Surveyed) (hq : img.Quiet) {m : ℕ} (hm : m ≤ img.sb.ninodes) :
    (List.range m).foldlM (relinkDir img.sb.ninodes img.tables img.lostTable) (img.dotState 0) =
        .ok img' ↔
      (∀ j < m, j ∈ img.lost → img.IsDir j → ∀ w ∈ img.dots j,
        img.Readable w.off w.vals.length) ∧ img' = img.dotState m := by
  induction m generalizing img' with
  | zero => simp [eq_comm, pure, Except.pure]
  | succ m ih =>
    rw [List.range_succ, List.foldlM_append, GuardedLoop.bind_eq_ok_iff]
    simp only [ih (Nat.le_of_succ_le hm), List.foldlM_cons, List.foldlM_nil, bind_pure]
    constructor
    · rintro ⟨_, ⟨hr, rfl⟩, hstep⟩
      obtain ⟨hr', rfl⟩ := (relinkDir_eq_ok_iff hs hq hm).1 hstep
      refine ⟨fun j hj hl ↦ ?_, rfl⟩
      rcases Nat.lt_succ_iff_lt_or_eq.1 hj with hj | rfl
      · exact hr j hj hl
      · exact hr' hl
    · rintro ⟨hr, rfl⟩
      exact ⟨_, ⟨fun j hj ↦ hr j (Nat.lt_succ_of_lt hj), rfl⟩,
        (relinkDir_eq_ok_iff hs hq hm).2 ⟨hr m (Nat.lt_succ_self m), rfl⟩⟩

/-! ### The whole run -/

/-- A last turn that changes nothing. -/
private theorem foldlM_range_succ_of_stay {σ : Type} {f : σ → ℕ → Except Stop σ} {n : ℕ}
    {s s' : σ} (hstay : ∀ s₁, (List.range n).foldlM f s = .ok s₁ → f s₁ n = .ok s₁) :
    (List.range (n + 1)).foldlM f s = .ok s' ↔ (List.range n).foldlM f s = .ok s' := by
  rw [List.range_succ, List.foldlM_append, GuardedLoop.bind_eq_ok_iff]
  simp only [List.foldlM_cons, List.foldlM_nil, bind_pure]
  constructor
  · rintro ⟨s₁, h₁, h⟩
    rw [hstay s₁ h₁] at h
    rwa [← Except.ok.inj h]
  · exact fun h ↦ ⟨s', h, hstay s' h⟩

variable (img) in
/-- The image after a run. -/
def patched : Image := img.written img.writes

/-- The two loops together, when the tables are those of the image. -/
private theorem relink_eq_ok_iff (hs : img.Surveyed) (hq : img.Quiet) :
    img.relink img.tables img.lostTable = .ok img' ↔
      img.Readable (inodeOff img.lostFound + 12 : ℕ) 4 ∧
        (∀ w ∈ img.writes, img.Readable w.off w.vals.length) ∧ img' = img.patched := by
  have hlinks : ∀ s', (List.range (img.sb.ninodes + 1)).foldlM
      (linkTarget img.sb.ninodes img.lostTable) (img.linkState 0) = .ok s' ↔
        (∀ j < img.sb.ninodes, j ∈ img.lost →
          img.Readable (img.link j).off (img.link j).vals.length) ∧
            s' = img.linkState img.sb.ninodes := by
    intro s'
    rw [foldlM_range_succ_of_stay, foldlM_linkTarget hq (Nat.le_refl _)]
    -- past the last inode the loop is left, the bound being the one it started with
    intro s₁ h₁
    rw [((foldlM_linkTarget hq (Nat.le_refl _)).1 h₁).2]
    have hmeta : img.SameMeta (img.linkState img.sb.ninodes).img := hq.sameMeta map_link_subset
    rw [linkTarget, if_pos (fun h ↦ Nat.lt_irrefl _ (hmeta.sb_eq ▸ h.2))]
  have hdots : (List.range (img.sb.ninodes + 1)).foldlM
      (relinkDir img.sb.ninodes img.tables img.lostTable) (img.dotState 0) = .ok img' ↔
        (∀ j < img.sb.ninodes, j ∈ img.lost → img.IsDir j → ∀ w ∈ img.dots j,
          img.Readable w.off w.vals.length) ∧ img' = img.dotState img.sb.ninodes := by
    rw [foldlM_range_succ_of_stay, foldlM_relinkDir hs hq (Nat.le_refl _)]
    intro img₁ h₁
    rw [((foldlM_relinkDir hs hq (Nat.le_refl _)).1 h₁).2]
    have hmeta : img.SameMeta (img.dotState img.sb.ninodes) := hq.sameMeta links_dots_subset
    rw [relinkDir, if_pos (fun h ↦ Nat.lt_irrefl _ (hmeta.sb_eq ▸ h))]
  have hend : (img.linkState img.sb.ninodes).img = img.dotState 0 := by
    rw [linkState, lostBelow_ninodes, dotState]
    show img.written img.links = img.written (img.links ++ [])
    rw [List.append_nil]
  have hpatched : img.dotState img.sb.ninodes = img.patched := by
    rw [dotState, relinkedBelow, lostBelow_ninodes]
    rfl
  have hstart : img.linkState 0 = ⟨img, img.lostTable.error,
      addrOff ((img.dinode img.tables.lfinum).addrs 0) + 2 * 16⟩ := by
    rw [img.lostTable_error, img.tables_lfinum]
    rfl
  rw [relink, GuardedLoop.guard_eq_ok_iff, not_not, img.tables_lfinum]
  refine and_congr_right fun _ ↦ ?_
  show (_ >>= _ = _) ↔ _
  rw [← img.tables_lfinum, ← hstart, GuardedLoop.bind_eq_ok_iff]
  simp only [hlinks]
  constructor
  · rintro ⟨_, ⟨hl, rfl⟩, h⟩
    rw [hend, hdots, hpatched] at h
    refine ⟨fun w hw ↦ ?_, h.2⟩
    rcases img.mem_writes_iff.1 hw with ⟨j, hj, rfl⟩ | ⟨j, hj, hd, hw⟩
    · exact hl j (img.mem_lost_iff.1 hj).1.1 hj
    · exact h.1 j hd.1 hj hd w hw
  · rintro ⟨hw, rfl⟩
    refine ⟨_, ⟨fun j _ hj ↦ hw _ (img.mem_writes_iff.2 (.inl ⟨j, hj, rfl⟩)), rfl⟩, ?_⟩
    rw [hend, hdots, hpatched]
    exact ⟨fun j _ hj hd w hwj ↦ hw w (img.mem_writes_iff.2 (.inr ⟨j, hj, hd, hwj⟩)), rfl⟩

/-- **A quiet run.** It goes through when all it reads and writes lies in the image, and then the
writes are made. -/
theorem repair_eq_ok_iff_of_quiet (hq : img.Quiet) :
    img.repair = .ok img' ↔
      img.Surveyed ∧
        (img.lost ≠ [] → img.Readable (inodeOff img.lostFound + 12 : ℕ) 4 ∧
          ∀ w ∈ img.writes, img.Readable w.off w.vals.length) ∧
        img' = img.patched := by
  rw [repair_eq_ok_iff]
  refine and_congr_right fun hs ↦ ?_
  rcases eq_or_ne img.lost [] with h₀ | h₀
  · have hp : img.patched = img := by rw [patched, img.writes_eq_nil h₀]; rfl
    simp [h₀, hp]
  · rw [if_neg h₀, relink_eq_ok_iff hs hq, ← and_assoc]
    simp [h₀]

end Image

end Fsck
