import Cs537OS.Fsck.DirBlocks
import Mathlib.Tactic.SplitIfs

/-!
# What the repairer reads

The specification of the first half of a repair run, in the terms of `Cs537OS.Fsck.DirBlocks`.
The loop over the inode table goes through exactly when every inode, every block of a directory
and every counted number lies within its bounds (`Image.Surveyed`), and then

* `inoderefer[j]` is not zero exactly for the `Counted` numbers `j`;
* `lfinum` is `lostFound`;
* the lost inodes that the next loop marks are those of `lost`, and `error` is their number.
-/

namespace Fsck

namespace Image

variable (img : Image)

/-! ### One block -/

/-- A block the count goes through: readable, and the numbers counted in it are within the inode
table. -/
def BlockOk (first : ℕ) (off : ℤ) : Prop :=
  img.Readable off bsize ∧
    ∀ p ∈ entriesFrom first off.toNat, (img.dirent p).inum ≠ 0 →
      (img.dirent p).inum < img.sb.ninodes

/-- The numbers carried by the used entries at the given places. -/
def usedNums (ps : List ℕ) : List ℕ := (ps.map fun p ↦ (img.dirent p).inum).filter (· ≠ 0)

theorem mem_usedNums_iff {ps : List ℕ} {j : ℕ} :
    j ∈ img.usedNums ps ↔ j ≠ 0 ∧ ∃ p ∈ ps, (img.dirent p).inum = j := by
  simp [usedNums, and_comm]

theorem usedNums_append (ps qs : List ℕ) :
    img.usedNums (ps ++ qs) = img.usedNums ps ++ img.usedNums qs := by
  simp [usedNums]

theorem usedNums_flatMap {α : Type*} (l : List α) (g : α → List ℕ) :
    img.usedNums (l.flatMap g) = l.flatMap fun a ↦ img.usedNums (g a) := by
  simp [usedNums, List.map_flatMap, List.filter_flatMap]

/-- A block is readable when its entries are. -/
theorem readable_block_iff {off : ℤ} :
    img.Readable off bsize ↔ ∀ e < dpb, img.Readable (off + 16 * e) 16 := by
  constructor
  · intro h e he
    unfold Readable bsize dpb dirsiz at *
    rw [bsize] at he
    omega
  · intro h
    have h₀ := h 0 (by decide)
    have h₁ := h 31 (by decide)
    unfold Readable bsize at *
    omega

/-- An entry of a readable block, as a place. -/
theorem toNat_add_slot {off : ℤ} {e : ℕ} (h : 0 ≤ off) :
    (off + 16 * e).toNat = off.toNat + 16 * e := by
  omega

private theorem countDirent_eq_ok_iff {counts : ℕ → Bool} {off : ℤ} {r r' : ℕ → ℕ} {e : ℕ} :
    img.countDirent counts off r e = .ok r' ↔
      (img.Readable (off + 16 * e) 16 ∧
        ((img.dirent (off + 16 * e).toNat).inum ≠ 0 ∧ counts e →
          (img.dirent (off + 16 * e).toNat).inum < img.sb.ninodes)) ∧
      r' = if (img.dirent (off + 16 * e).toNat).inum ≠ 0 ∧ counts e then
        bump r (img.dirent (off + 16 * e).toNat).inum else r := by
  rw [countDirent]
  split_ifs <;> grind

/-- Counting the used entries that are selected counts their numbers. -/
private theorem foldl_bump_ite (counts : ℕ → Bool) (num : ℕ → ℕ) (r : ℕ → ℕ) (l : List ℕ) :
    l.foldl (fun r e ↦ if num e ≠ 0 ∧ counts e then bump r (num e) else r) r =
      (((l.filter counts).map num).filter (· ≠ 0)).foldl bump r := by
  induction l generalizing r with
  | nil => rfl
  | cons e l ih =>
    rw [List.foldl_cons, ih, List.filter_cons]
    split_ifs <;> simp_all

/-- **One block of the count.** -/
theorem countBlock_eq_ok_iff {counts : ℕ → Bool} (first : ℕ) {off : ℤ} {r r' : ℕ → ℕ}
    (hc : (List.range dpb).filter counts = List.range' first (dpb - first)) :
    img.countBlock counts off r = .ok r' ↔
      img.BlockOk first off ∧
        r' = (img.usedNums (entriesFrom first off.toNat)).foldl bump r := by
  have hmem : ∀ e, e ∈ List.range' first (dpb - first) ↔ e < dpb ∧ counts e := by
    intro e
    rw [← hc]
    simp
  rw [countBlock, GuardedLoop.foldlM_eq_ok_iff_forall fun s e s' ↦ img.countDirent_eq_ok_iff,
    BlockOk, readable_block_iff]
  by_cases h₀ : 0 ≤ off
  · simp only [toNat_add_slot h₀]
    refine and_congr ?_ ?_
    · constructor
      · intro hall
        refine ⟨fun e he ↦ (hall e (List.mem_range.2 he)).1, fun p hp hne ↦ ?_⟩
        obtain ⟨e, he, rfl⟩ := List.mem_map.1 hp
        obtain ⟨hlt, hce⟩ := (hmem e).1 he
        exact (hall e (List.mem_range.2 hlt)).2 ⟨hne, hce⟩
      · rintro ⟨hr, hb⟩ e he
        have hlt : e < dpb := List.mem_range.1 he
        exact ⟨hr e hlt, fun h ↦ hb _ (List.mem_map.2 ⟨e, (hmem e).2 ⟨hlt, h.2⟩, rfl⟩) h.1⟩
    · rw [foldl_bump_ite counts (fun e ↦ (img.dirent (off.toNat + 16 * e)).inum), hc, usedNums,
        entriesFrom, List.map_map]
      rfl
  · -- neither side holds: the first entry is not readable
    have hno : ¬ img.Readable (off + 16 * (0 : ℕ)) 16 := fun h ↦ h₀ (by simpa using h.1)
    exact ⟨fun h ↦ absurd (h.1 0 (by decide)).1 hno, fun h ↦ absurd (h.1.1 0 (by decide)) hno⟩

/-! ### One directory -/

/-- What the count needs of directory `i`. -/
structure DirReadable (i : ℕ) : Prop where
  direct : ∀ addr ∈ img.directBlocks i, img.BlockOk 2 (addrOff addr)
  index : img.indirectAddr i ≠ 0 → img.Readable (addrOff (img.indirectAddr i)) bsize
  listed : ∀ v ∈ img.listedWords i, img.BlockOk 0 (entryOff v)

private theorem countDirect_eq_ok_iff {addr : ℕ} {r r' : ℕ → ℕ} :
    img.countDirect r addr = .ok r' ↔
      (addr ≠ 0 → img.BlockOk 2 (addrOff addr)) ∧
        r' = if addr = 0 then r
          else (img.usedNums (entriesFrom 2 (addrOff addr))).foldl bump r := by
  rw [countDirect]
  split_ifs with h
  · simp [h, eq_comm]
  · rw [countBlock_eq_ok_iff img 2 (by decide)]
    simp [h]

private theorem countListed_eq_ok_iff {off : ℕ} {r r' : ℕ → ℕ} :
    img.countListed r off = .ok r' ↔
      (img.Readable off 4 ∧ (img.word off ≠ 0 → img.BlockOk 0 (entryOff (img.word off)))) ∧
        r' = if img.word off = 0 then r
          else (img.usedNums (entriesFrom 0 (entryOff (img.word off)).toNat)).foldl bump r := by
  rw [countListed, GuardedLoop.guard_eq_ok_iff, not_not, and_assoc]
  refine and_congr_right fun _ ↦ ?_
  split_ifs with h
  · simp [h, eq_comm]
  · rw [countBlock_eq_ok_iff img 0 (by decide)]
    simp [h]

/-- Skipped items of a loop over mapped values contribute nothing. -/
private theorem foldl_ite_skip {σ α β : Type*} (f : α → β) (skip : β → Prop)
    [DecidablePred skip] (g : σ → β → σ) (r : σ) (l : List α) :
    l.foldl (fun r a ↦ if skip (f a) then r else g r (f a)) r =
      ((l.map f).filter fun b ↦ ¬ skip b).foldl g r := by
  induction l generalizing r with
  | nil => rfl
  | cons a l ih =>
    rw [List.foldl_cons, ih, List.map_cons, List.filter_cons]
    split_ifs <;> simp_all

/-- An index block is readable when its words are. -/
private theorem readable_index_iff {off : ℕ} :
    img.Readable off bsize ↔ ∀ m < nindirect, img.Readable (off + 4 * m : ℕ) 4 := by
  constructor
  · intro h m hm
    unfold Readable nindirect bsize at *
    omega
  · intro h
    have h₀ := h 0 (by decide)
    have h₁ := h 127 (by decide)
    unfold Readable bsize at *
    omega

/-- The count over the direct addresses of inode `i`. -/
private theorem countDirects_eq_ok_iff {i : ℕ} {r r' : ℕ → ℕ} :
    (List.range ndirect).foldlM (fun r k ↦ img.countDirect r ((img.dinode i).addrs k)) r = .ok r' ↔
      (∀ addr ∈ img.directBlocks i, img.BlockOk 2 (addrOff addr)) ∧
        r' = (img.usedNums ((img.directOffs i).flatMap (entriesFrom 2))).foldl bump r := by
  rw [GuardedLoop.foldlM_eq_ok_iff_forall
      (f := fun r k ↦ img.countDirect r ((img.dinode i).addrs k))
      fun r k r' ↦ img.countDirect_eq_ok_iff,
    foldl_ite_skip (img.dinode i).addrs (· = 0) fun r addr ↦
      (img.usedNums (entriesFrom 2 (addrOff addr))).foldl bump r,
    usedNums_flatMap, directOffs, List.flatMap_map, List.foldl_flatMap, directBlocks]
  refine and_congr ?_ Iff.rfl
  simp

/-- The count over the addresses listed in the indirect block of inode `i`. -/
private theorem countListeds_eq_ok_iff {i : ℕ} {r r' : ℕ → ℕ} (hi : img.indirectAddr i ≠ 0) :
    (List.range nindirect).foldlM (fun r m ↦ img.countListed r (img.entryAt i m)) r = .ok r' ↔
      (img.Readable (addrOff (img.indirectAddr i)) bsize ∧
        ∀ v ∈ img.listedWords i, img.BlockOk 0 (entryOff v)) ∧
        r' = (img.usedNums ((img.listedOffs i).flatMap (entriesFrom 0))).foldl bump r := by
  rw [GuardedLoop.foldlM_eq_ok_iff_forall
      (f := fun r m ↦ img.countListed r (img.entryAt i m))
      fun r m r' ↦ img.countListed_eq_ok_iff,
    foldl_ite_skip (fun m ↦ img.word (img.entryAt i m)) (· = 0) fun r v ↦
      (img.usedNums (entriesFrom 0 (entryOff v).toNat)).foldl bump r,
    usedNums_flatMap, listedOffs, List.flatMap_map, List.foldl_flatMap, listedWords, if_neg hi,
    readable_index_iff]
  refine and_congr ?_ Iff.rfl
  simp only [List.mem_range, List.mem_filter, List.mem_map]
  constructor
  · intro h
    refine ⟨fun m hm ↦ (h m hm).1, ?_⟩
    rintro v ⟨⟨m, hm, rfl⟩, hv⟩
    exact (h m hm).2 (by simpa using hv)
  · rintro ⟨hr, hl⟩ m hm
    exact ⟨hr m hm, fun hv ↦ hl _ ⟨⟨m, hm, rfl⟩, by simpa using hv⟩⟩

/-- **The count in one directory.** -/
theorem countDir_eq_ok_iff {i : ℕ} {r r' : ℕ → ℕ} (hi : (img.dinode i).type = tDir) :
    img.countDir i r = .ok r' ↔
      img.DirReadable i ∧ r' = (img.usedNums (img.countedOffs i)).foldl bump r := by
  rw [countDir, if_pos hi, GuardedLoop.bind_eq_ok_iff, countedOffs, usedNums_append,
    List.foldl_append]
  simp only [countDirects_eq_ok_iff]
  show (∃ r₁, _ ∧ (if img.indirectAddr i = 0 then Except.ok r₁ else
    (List.range nindirect).foldlM (fun r m ↦ img.countListed r (img.entryAt i m)) r₁) = .ok r') ↔ _
  rcases eq_or_ne (img.indirectAddr i) 0 with h₀ | h₀
  · have hl : img.listedWords i = [] := if_pos h₀
    rw [listedOffs, hl]
    simp only [if_pos h₀]
    constructor
    · rintro ⟨r₁, ⟨hd, rfl⟩, hr⟩
      exact ⟨⟨hd, fun h ↦ absurd h₀ h, by simp [hl]⟩, (Except.ok.inj hr).symm⟩
    · rintro ⟨hd, rfl⟩
      exact ⟨_, ⟨hd.direct, rfl⟩, rfl⟩
  · simp only [if_neg h₀, img.countListeds_eq_ok_iff h₀]
    constructor
    · rintro ⟨r₁, ⟨hd, rfl⟩, ⟨hx, hl⟩, rfl⟩
      exact ⟨⟨hd, fun _ ↦ hx, hl⟩, rfl⟩
    · rintro ⟨hd, rfl⟩
      exact ⟨_, ⟨hd.direct, rfl⟩, ⟨hd.index h₀, hd.listed⟩, rfl⟩

/-! ### The lookup -/

private theorem findLostFound_eq_ok {off : ℤ} {es : List ℕ} {found : Option ℕ}
    (h : img.findLostFound off es = .ok found) :
    found = ((es.map fun e : ℕ ↦ (off + 16 * e).toNat).find?
      fun p ↦ nameIs (img.dirent p).name lostFoundName).map fun p ↦ (img.dirent p).inum := by
  induction es with
  | nil =>
    cases h
    rfl
  | cons e es ih =>
    rw [findLostFound, GuardedLoop.guard_eq_ok_iff] at h
    obtain ⟨-, h⟩ := h
    rw [List.map_cons, List.find?_cons]
    split_ifs at h with hn
    · cases h
      simp [hn]
    · simpa [hn] using ih h

private theorem exists_findLostFound (off : ℤ) (es : List ℕ)
    (h : ∀ e ∈ es, img.Readable (off + 16 * e) 16) :
    ∃ found, img.findLostFound off es = .ok found := by
  induction es with
  | nil => exact ⟨none, rfl⟩
  | cons e es ih =>
    rw [findLostFound, if_neg (not_not.2 (h e List.mem_cons_self))]
    split_ifs
    · exact ⟨_, rfl⟩
    · exact ih fun e he ↦ h e (List.mem_cons_of_mem _ he)

private theorem lookupBlock_eq_ok {off : ℤ} {lf : ℕ} (h : img.lookupBlock 0 off = .ok lf) :
    lf = img.firstNamed off.toNat := by
  obtain ⟨found, hfound, hlf⟩ := GuardedLoop.bind_eq_ok_iff.1 h
  -- the first entry was read, so the block does not start before the image
  have h₀ : 0 ≤ off := by
    have hr : List.range dpb = 0 :: List.range' 1 31 := by decide
    rw [hr, findLostFound, GuardedLoop.guard_eq_ok_iff, not_not] at hfound
    simpa using hfound.1.1
  rw [← Except.ok.inj hlf, img.findLostFound_eq_ok hfound, firstNamed, entriesFrom]
  simp only [toNat_add_slot h₀, List.range_eq_range', Nat.sub_zero]

private theorem exists_lookupBlock {off : ℤ} (h : img.Readable off bsize) (lf : ℕ) :
    ∃ lf', img.lookupBlock lf off = .ok lf' := by
  obtain ⟨found, hfound⟩ := img.exists_findLostFound off (List.range dpb)
    fun e he ↦ img.readable_block_iff.1 h e (List.mem_range.1 he)
  exact ⟨_, GuardedLoop.bind_eq_ok_iff.2 ⟨found, hfound, rfl⟩⟩

/-- One block of the lookup: a number once found is kept. -/
private def pick (lf off : ℕ) : ℕ := if lf ≠ 0 then lf else img.firstNamed off

private theorem foldl_pick (lf : ℕ) (offs : List ℕ) :
    offs.foldl img.pick lf =
      if lf ≠ 0 then lf else ((offs.map img.firstNamed).find? (· ≠ 0)).getD 0 := by
  induction offs generalizing lf with
  | nil =>
    split_ifs with h
    · rfl
    · simpa using h
  | cons off offs ih =>
    rw [List.foldl_cons, ih, pick, List.map_cons, List.find?_cons]
    split_ifs <;> simp_all

private theorem lookupDirect_tracks :
    GuardedLoop.Tracks img.lookupDirect
      fun lf addr ↦ if addr = 0 then lf else img.pick lf (addrOff addr) := by
  intro lf addr lf' h
  show lf' = if addr = 0 then lf else img.pick lf (addrOff addr)
  rw [lookupDirect] at h
  split at h
  next hskip =>
    cases h
    rcases hskip with hlf | ha
    · simp [pick, hlf]
    · exact (if_pos ha).symm
  next hread =>
    obtain ⟨hlf, ha⟩ := not_or.1 hread
    rw [not_not.1 hlf] at h ⊢
    rw [if_neg ha, pick, if_neg (not_not.2 rfl)]
    exact img.lookupBlock_eq_ok h

private theorem lookupListed_tracks :
    GuardedLoop.Tracks img.lookupListed fun lf off ↦
      if img.word off = 0 then lf else img.pick lf (entryOff (img.word off)).toNat := by
  intro lf off lf' h
  show lf' = if img.word off = 0 then lf else img.pick lf (entryOff (img.word off)).toNat
  rw [lookupListed] at h
  split at h
  next hlf =>
    cases h
    simp [pick, hlf]
  next hlf =>
    rw [GuardedLoop.guard_eq_ok_iff] at h
    obtain ⟨-, h⟩ := h
    rw [not_not.1 hlf] at h ⊢
    split at h
    next h₀ => rw [if_pos h₀, Except.ok.inj h]
    next h₀ =>
      rw [if_neg h₀, pick, if_neg (not_not.2 rfl)]
      exact img.lookupBlock_eq_ok h

/-- **The lookup finds the first number.** -/
theorem eq_of_lookup {i lf : ℕ} (h : img.lookup i = .ok lf) : lf = img.lookupValue i := by
  obtain ⟨lf₁, h₁, h₂⟩ := GuardedLoop.bind_eq_ok_iff.1 h
  obtain ⟨-, hdirect⟩ := (GuardedLoop.foldlM_eq_ok_iff
    (f := fun lf j ↦ img.lookupDirect lf ((img.dinode i).addrs j))
    fun lf j lf' ↦ img.lookupDirect_tracks lf ((img.dinode i).addrs j) lf').1 h₁
  rw [foldl_ite_skip (img.dinode i).addrs (· = 0) fun lf addr ↦ img.pick lf (addrOff addr)]
    at hdirect
  have hd : lf₁ = (img.directOffs i).foldl img.pick 0 := by
    rw [hdirect, directOffs, directBlocks, List.foldl_map]
  have hvalue : img.lookupValue i = (img.dataOffs i).foldl img.pick 0 := (img.foldl_pick 0 _).symm
  rw [hvalue, dataOffs, List.foldl_append, ← hd]
  split at h₂
  next hind =>
    obtain ⟨-, hind⟩ : lf₁ = 0 ∧ img.indirectAddr i ≠ 0 := hind
    obtain ⟨-, hlisted⟩ := (GuardedLoop.foldlM_eq_ok_iff
      (f := fun lf j ↦ img.lookupListed lf (img.entryAt i j))
      fun lf j lf' ↦ img.lookupListed_tracks lf (img.entryAt i j) lf').1 h₂
    rw [hlisted, foldl_ite_skip (fun m ↦ img.word (img.entryAt i m)) (· = 0) fun lf v ↦
      img.pick lf (entryOff v).toNat, listedOffs, listedWords, if_neg hind, List.foldl_map]
  next hind =>
    rw [← Except.ok.inj h₂]
    rcases not_and_or.1 hind with hlf | h₀
    · rw [foldl_pick, if_pos hlf]
    · have hl : img.listedWords i = [] := if_pos (not_not.1 h₀)
      rw [listedOffs, hl]
      rfl

/-- The lookup goes through in an inode whose blocks are readable. -/
theorem exists_lookup {i : ℕ}
    (hdirect : ∀ addr ∈ img.directBlocks i, img.Readable (addrOff addr) bsize)
    (hindex : img.indirectAddr i ≠ 0 → img.Readable (addrOff (img.indirectAddr i)) bsize)
    (hlisted : ∀ v ∈ img.listedWords i, img.Readable (entryOff v) bsize) :
    ∃ lf, img.lookup i = .ok lf := by
  obtain ⟨lf₁, h₁⟩ := GuardedLoop.exists_foldlM_eq_ok
    (f := fun lf j ↦ img.lookupDirect lf ((img.dinode i).addrs j)) (l := List.range ndirect)
    (fun j hj lf ↦ by
      rw [lookupDirect]
      split
      next => exact ⟨lf, rfl⟩
      next hread =>
        have ha : (img.dinode i).addrs j ∈ img.directBlocks i :=
          List.mem_filter.2 ⟨List.mem_map_of_mem hj, by simpa using (not_or.1 hread).2⟩
        exact img.exists_lookupBlock (hdirect _ ha) lf) 0
  rw [lookup, h₁]
  show ∃ lf, (if lf₁ = 0 ∧ img.indirectAddr i ≠ 0 then (List.range nindirect).foldlM
    (fun lf j ↦ img.lookupListed lf (img.entryAt i j)) lf₁ else .ok lf₁) = .ok lf
  split
  next hind =>
    refine GuardedLoop.exists_foldlM_eq_ok (fun m hm lf ↦ ?_) lf₁
    have hword : img.Readable (img.entryAt i m) 4 :=
      img.readable_index_iff.1 (hindex hind.2) m (List.mem_range.1 hm)
    rw [lookupListed, if_neg (not_not.2 hword)]
    split
    next => exact ⟨lf, rfl⟩
    next =>
      split
      next => exact ⟨lf, rfl⟩
      next h₀ =>
        have hv : img.word (img.entryAt i m) ∈ img.listedWords i := by
          rw [listedWords, if_neg hind.2]
          exact List.mem_filter.2 ⟨List.mem_map_of_mem hm, by simpa using h₀⟩
        exact img.exists_lookupBlock (hlisted _ hv) lf
  next => exact ⟨lf₁, rfl⟩

theorem DirReadable.exists_lookup {img : Image} {i : ℕ} (h : img.DirReadable i) :
    ∃ lf, img.lookup i = .ok lf :=
  img.exists_lookup (fun addr ha ↦ (h.direct addr ha).1) h.index fun v hv ↦ (h.listed v hv).1

/-! ### The loop over the inode table -/

/-- What the loop over the inode table needs. -/
structure Surveyed : Prop where
  sbReadable : img.Readable bsize 12
  ninodes_le : img.sb.ninodes ≤ 2 ^ 31
  inodes : ∀ i < img.sb.ninodes, img.Readable (inodeOff i) 64
  lookup : rootino < img.sb.ninodes → ∃ lf, img.lookup rootino = .ok lf
  dirs : ∀ i, img.IsDir i → img.DirReadable i

/-- What one turn does to the tables. -/
def surveyUpdate (t : Survey) (i : ℕ) : Survey where
  lfinum := if i = rootino then img.lookupValue i else t.lfinum
  inoderefer :=
    if (img.dinode i).type = tDir then (img.usedNums (img.countedOffs i)).foldl bump t.inoderefer
    else t.inoderefer
  dirinode := if (img.dinode i).type = tDir then Function.update t.dirinode i 1 else t.dirinode
  inodeinuse := if (img.dinode i).type ≠ 0 then Function.update t.inodeinuse i 1 else t.inodeinuse

/-- The tables the loop ends with. -/
def tables : Survey := (List.range img.sb.ninodes).foldl img.surveyUpdate Survey.zero

private theorem lookupAt_eq_ok_iff {i lf lf' : ℕ} :
    img.lookupAt i lf = .ok lf' ↔
      (i = rootino → ∃ v, img.lookup i = .ok v) ∧
        lf' = if i = rootino then img.lookupValue i else lf := by
  rw [lookupAt]
  split
  next hi =>
    constructor
    · intro h
      exact ⟨fun _ ↦ ⟨_, h⟩, img.eq_of_lookup h⟩
    · rintro ⟨h, rfl⟩
      obtain ⟨v, hv⟩ := h hi
      rw [← img.eq_of_lookup hv, hv]
  next hi => simp [hi, eq_comm]

private theorem surveyInode_eq_ok_iff {t t' : Survey} {i : ℕ} :
    img.surveyInode t i = .ok t' ↔
      (img.Readable (inodeOff i) 64 ∧ (i = rootino → ∃ lf, img.lookup i = .ok lf) ∧
        ((img.dinode i).type = tDir → img.DirReadable i)) ∧
      t' = img.surveyUpdate t i := by
  have hdir : ∀ r', img.countDir i t.inoderefer = .ok r' ↔
      ((img.dinode i).type = tDir → img.DirReadable i) ∧
        r' = (img.surveyUpdate t i).inoderefer := by
    intro r'
    rcases eq_or_ne (img.dinode i).type tDir with hd | hd
    · rw [countDir_eq_ok_iff img hd, surveyUpdate, if_pos hd]
      simp [hd]
    · rw [countDir, if_neg hd, surveyUpdate, if_neg hd]
      simp [hd, eq_comm]
  rw [surveyInode, GuardedLoop.guard_eq_ok_iff, not_not, and_assoc]
  refine and_congr_right fun _ ↦ ?_
  simp only [GuardedLoop.bind_eq_ok_iff, lookupAt_eq_ok_iff, hdir]
  constructor
  · rintro ⟨lf, ⟨hl, rfl⟩, r, ⟨hd, rfl⟩, ht⟩
    exact ⟨⟨hl, hd⟩, (Except.ok.inj ht).symm⟩
  · rintro ⟨⟨hl, hd⟩, rfl⟩
    exact ⟨_, ⟨hl, rfl⟩, _, ⟨hd, rfl⟩, rfl⟩

/-- **The loop over the inode table.** -/
theorem survey_eq_ok_iff {t : Survey} : img.survey = .ok t ↔ img.Surveyed ∧ t = img.tables := by
  rw [survey, GuardedLoop.guard_eq_ok_iff, GuardedLoop.guard_eq_ok_iff, not_not, not_lt,
    GuardedLoop.foldlM_eq_ok_iff_forall
      (f := img.surveyInode) fun t i t' ↦ img.surveyInode_eq_ok_iff]
  constructor
  · rintro ⟨hsb, hn, hall, rfl⟩
    simp only [List.mem_range] at hall
    exact ⟨⟨hsb, hn, fun i hi ↦ (hall i hi).1, fun hr ↦ (hall _ hr).2.1 rfl,
      fun i hi ↦ (hall i hi.1).2.2 hi.2⟩, rfl⟩
  · rintro ⟨h, rfl⟩
    refine ⟨h.sbReadable, h.ninodes_le, fun i hi ↦ ?_, rfl⟩
    have hi : i < img.sb.ninodes := List.mem_range.1 hi
    exact ⟨h.inodes i hi, fun hr ↦ hr ▸ h.lookup (hr ▸ hi), fun hd ↦ h.dirs i ⟨hi, hd⟩⟩

/-! ### What the tables hold -/

theorem tables_lfinum : img.tables.lfinum = img.lostFound := by
  have h : ∀ n, ((List.range n).foldl img.surveyUpdate Survey.zero).lfinum =
      if rootino < n then img.lookupValue rootino else 0 := by
    intro n
    induction n with
    | zero => rfl
    | succ n ih =>
      rw [List.range_succ, List.foldl_append, List.foldl_cons, List.foldl_nil, surveyUpdate, ih]
      rcases eq_or_ne n rootino with rfl | hn
      · simp
      · have : rootino < n + 1 ↔ rootino < n := by omega
        simp [hn, this]
  exact h _

theorem tables_inodeinuse {j : ℕ} : img.tables.inodeinuse j = 1 ↔ img.InUse j := by
  rw [tables, GuardedLoop.foldl_flag img.surveyUpdate (fun t ↦ t.inodeinuse j = 1)
    (fun i ↦ (img.dinode i).type ≠ 0 ∧ j = i)]
  · simp [Survey.zero, InUse, and_comm]
  · intro t i
    rcases eq_or_ne (img.dinode i).type 0 with h | h
    · simp [surveyUpdate, h]
    · rcases eq_or_ne j i with rfl | hne
      · simp [surveyUpdate, h]
      · simp [surveyUpdate, h, hne]

theorem tables_dirinode {j : ℕ} : img.tables.dirinode j ≠ 0 ↔ img.IsDir j := by
  rw [tables, GuardedLoop.foldl_flag img.surveyUpdate (fun t ↦ t.dirinode j ≠ 0)
    (fun i ↦ (img.dinode i).type = tDir ∧ j = i)]
  · simp [Survey.zero, IsDir, and_comm]
  · intro t i
    rcases eq_or_ne (img.dinode i).type tDir with h | h
    · rcases eq_or_ne j i with rfl | hne
      · simp [surveyUpdate, h]
      · simp [surveyUpdate, h, hne]
    · simp [surveyUpdate, h]

theorem tables_inoderefer {j : ℕ} : img.tables.inoderefer j ≠ 0 ↔ img.Counted j := by
  have hbump : ∀ (r : ℕ → ℕ) (l : List ℕ), l.foldl bump r j ≠ 0 ↔ r j ≠ 0 ∨ ∃ i ∈ l, j = i := by
    intro r l
    refine GuardedLoop.foldl_flag bump (fun r ↦ r j ≠ 0) (fun i ↦ j = i) (fun r i ↦ ?_) r l
    rcases eq_or_ne j i with rfl | hne
    · simp
    · simp [bump_of_ne r hne, hne]
  rw [tables, GuardedLoop.foldl_flag img.surveyUpdate (fun t ↦ t.inoderefer j ≠ 0)
    (fun i ↦ (img.dinode i).type = tDir ∧ j ∈ img.usedNums (img.countedOffs i))]
  · simp only [Survey.zero, mem_usedNums_iff, List.mem_range, Counted, IsDir]
    grind
  · intro t i
    rcases eq_or_ne (img.dinode i).type tDir with h | h
    · simp [surveyUpdate, h, hbump]
    · simp [surveyUpdate, h]

end Image

/-! ### The lost inodes -/

/-- The condition on which `markTarget` marks inode `i`. -/
def Survey.Unreferred (t : Survey) (i : ℕ) : Prop :=
  t.inodeinuse i = 1 ∧ i ≠ rootino ∧ t.inoderefer i = 0

instance (t : Survey) (i : ℕ) : Decidable (t.Unreferred i) :=
  inferInstanceAs (Decidable (_ ∧ _ ∧ _))

theorem Survey.findLost_succ (t : Survey) (n : ℕ) :
    t.findLost (n + 1) = t.markTarget (t.findLost n) n := by
  rw [findLost, List.range_succ, List.foldl_append]
  rfl

/-- `error` counts the marked inodes. -/
theorem Survey.findLost_error (t : Survey) (n : ℕ) :
    (t.findLost n).error = ((List.range n).filter fun i ↦ t.Unreferred i).length := by
  induction n with
  | zero => rfl
  | succ n ih =>
    rw [findLost_succ, List.range_succ, List.filter_append, List.length_append, ← ih, markTarget]
    split
    next h => simp [Unreferred, h]
    next h =>
      have h : ¬ t.Unreferred n := h
      simp [h]

theorem Survey.findLost_targetinode (t : Survey) (n j : ℕ) :
    (t.findLost n).targetinode j ≠ 0 ↔ j < n ∧ t.Unreferred j := by
  rw [findLost, GuardedLoop.foldl_flag t.markTarget (fun l ↦ l.targetinode j ≠ 0)
    (fun i ↦ t.Unreferred i ∧ j = i)]
  · simp [and_comm]
  · intro l i
    rw [markTarget]
    split
    next h =>
      have h : t.Unreferred i := h
      rcases eq_or_ne j i with rfl | hne
      · simp [h]
      · simp [hne]
    next h =>
      have h : ¬ t.Unreferred i := h
      simp [h]

namespace Image

variable (img : Image)

theorem tables_unreferred_iff {i : ℕ} : img.tables.Unreferred i ↔ i ∈ img.lost := by
  have h : img.tables.inoderefer i = 0 ↔ ¬ img.Counted i := by
    rw [← img.tables_inoderefer, not_not]
  rw [Survey.Unreferred, img.tables_inodeinuse, h, mem_lost_iff]

/-- What `markTarget` leaves behind. -/
def lostTable : Lost := img.tables.findLost img.sb.ninodes

theorem lostTable_targetinode {j : ℕ} : img.lostTable.targetinode j ≠ 0 ↔ j ∈ img.lost := by
  rw [lostTable, Survey.findLost_targetinode, tables_unreferred_iff, mem_lost_iff]
  exact and_iff_right_of_imp fun h ↦ h.1.1

theorem lostTable_error : img.lostTable.error = img.lost.length := by
  rw [lostTable, Survey.findLost_error]
  refine congrArg List.length (List.filter_congr fun i hi ↦ ?_)
  rw [decide_eq_decide, tables_unreferred_iff, mem_lost_iff, InUse, and_assoc]
  exact and_iff_right (List.mem_range.1 hi)

/-- **A run of repair mode**: it reads what it needs to read, and writes only when some inode is
lost. -/
theorem repair_eq_ok_iff {img' : Image} :
    img.repair = .ok img' ↔
      img.Surveyed ∧
        if img.lost = [] then img' = img else img.relink img.tables img.lostTable = .ok img' := by
  rw [repair, GuardedLoop.bind_eq_ok_iff]
  simp only [survey_eq_ok_iff]
  have hend : (if img.lostTable.error ≠ 0 then img.relink img.tables img.lostTable else .ok img) =
      .ok img' ↔
        if img.lost = [] then img' = img else img.relink img.tables img.lostTable = .ok img' := by
    rw [lostTable_error]
    rcases eq_or_ne img.lost [] with h₀ | h₀
    · simp [h₀, eq_comm]
    · rw [if_pos (by simpa using h₀), if_neg h₀]
  constructor
  · rintro ⟨t, ⟨h, rfl⟩, hrun⟩
    exact ⟨h, hend.1 hrun⟩
  · rintro ⟨h, hrun⟩
    exact ⟨_, ⟨h, rfl⟩, hend.2 hrun⟩

end Image

end Fsck
