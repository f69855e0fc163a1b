import Cs537OS.Fsck.Bitmap
import Cs537OS.Fsck.Blocks
import Cs537OS.Fsck.Walk

/-!
# Index bounds of check mode

Which images drive check mode outside its arrays or outside the mapped file, when the superblock
is consistent and the file is as long as it says.

Most accesses are in bounds because an earlier turn of the scan passed: a block is read as a
directory or as an indirect block only after its address was compared with `totalblocks`
(`readable_of_allAdmitted`). Six are not (`Turn.Unsafe`):

* a direct address, or an entry of an indirect block, that passes the range test although it is not
  below `totalblocks`: the test admits the block at `sysEnd` itself, and it looks at the address
  times 512 reduced to 32 bits;
* the address of an indirect block, which is counted before the range test;
* the inode number of a directory entry, which is not tested, in a direct or an indirect block;
* a block of the root directory, which is read before its address is tested.

`Image.inBounds_iff` says that check mode stays in bounds exactly when no such turn is reached
before a turn that makes it report something, and when two further corners are avoided: more than
`2 ^ 31` inodes, and an image of `2 ^ 31` blocks or more without any inode in use, whose bitmap is
scanned with a negative `totalblocks`.
-/

namespace Fsck

namespace Image

variable (img : Image)

/-- A consistent superblock, and a file that is long enough for it. -/
structure Consistent : Prop where
  sized : img.Sized
  long : img.sb.size * bsize ≤ img.stSize

/-! ### Turns that report, turns that go out of bounds -/

/-- A turn after the turns `pre` that makes the checker report something. -/
def Rejected (pre : List Turn) : Turn → Prop
  | .inode i =>
    ¬ ValidType (img.dinode i).type ∨ i = rootino ∧ (img.dinode i).type ≠ tDir
  | .rootBlock addr => addr ≠ 0 ∧ ∃ e < dpb,
      (img.dirent (addrOff addr + 16 * e)).isDotDot ∧
      rootino ≠ (img.dirent (addrOff addr + 16 * e)).inum ∧
      ∀ e' < e, ¬ (img.dirent (addrOff addr + 16 * e')).isDotDot
  | .direct addr => addr ≠ 0 ∧
      (¬ img.InRange (addrOff addr) ∨ addr ∈ pre.filterMap img.blockOf ∨ ¬ img.Marked addr)
  | .indirect addr => ¬ img.InRange (addrOff addr)
  | .entry off => img.u32 off ≠ 0 ∧
      (¬ img.InRange (entryOff (img.word off)) ∨ img.u32 off ∈ pre.filterMap img.blockOf ∨
        ¬ img.Marked (img.u32 off))
  | .dirent i off =>
    (img.dirent off).inum ≠ 0 ∧ (img.dirent off).isDot ∧ i ≠ (img.dirent off).inum
  | .closeBlock i => ¬ img.Saw Dirent.isDotDot i pre ∨ ¬ img.Saw Dirent.isDot i pre
  | .inuse _ | .reread _ | .indirectDirent _ _ => False

/-- A turn that uses an index out of bounds. -/
def Unsafe : Turn → Prop
  | .rootBlock addr => addr ≠ 0 ∧ ∃ e < dpb,
      ¬ img.Readable (addrOff addr + 16 * e : ℕ) 16 ∧
      ∀ e' < e, ¬ (img.dirent (addrOff addr + 16 * e')).isDotDot
  | .direct addr => addr ≠ 0 ∧ img.InRange (addrOff addr) ∧ img.totalblocks ≤ addr
  | .indirect addr => img.totalblocks ≤ addr
  | .entry off => img.u32 off ≠ 0 ∧ img.InRange (entryOff (img.word off)) ∧
      ¬ (0 ≤ img.word off ∧ img.word off < img.totalblocks)
  | .dirent i off => (img.dirent off).inum ≠ 0 ∧
      ((img.dirent off).isDot → i = (img.dirent off).inum) ∧
      img.sb.ninodes ≤ (img.dirent off).inum
  | .indirectDirent _ off => img.sb.ninodes ≤ (img.dirent off.toNat).inum
  | .inode _ | .inuse _ | .closeBlock _ | .reread _ => False

instance : DecidablePred img.Unsafe
  | .rootBlock _ => inferInstanceAs (Decidable (_ ∧ ∃ _ < _, _))
  | .direct _ => inferInstanceAs (Decidable (_ ∧ _ ∧ _))
  | .indirect _ => inferInstanceAs (Decidable (_ ≤ _))
  | .entry _ => inferInstanceAs (Decidable (_ ∧ _ ∧ _))
  | .dirent _ _ => inferInstanceAs (Decidable (_ ∧ _ ∧ _))
  | .indirectDirent _ _ => inferInstanceAs (Decidable (_ ≤ _))
  | .inode _ | .inuse _ | .closeBlock _ | .reread _ => inferInstanceAs (Decidable False)

/-- No turn of `l` reports. -/
def NoneRejected (l : List Turn) : Prop :=
  ∀ pre t post, l = pre ++ t :: post → ¬ img.Rejected pre t

/-! ### What a consistent superblock gives -/

theorem dirent_fits {e : ℕ} (he : e < dpb) : 16 * e + 16 ≤ bsize := by
  unfold dpb dirsiz bsize at *
  omega

theorem entry_fits {k : ℕ} (hk : k < nindirect) : 4 * k + 4 ≤ bsize := by
  unfold nindirect bsize at *
  omega

section

variable {img}

/-- `totalblocks` is the size, or negative. -/
theorem Consistent.lt_size (h : img.Consistent) {b : ℕ} (hb : (b : ℤ) < img.totalblocks) :
    b < img.sb.size ∧ img.sb.size < 2 ^ 31 := by
  have hsize := img.sb_size_lt
  rw [h.sized.totalblocks_eq] at hb
  rw [int32] at hb
  omega

theorem Consistent.lt_size_of_nonneg (h : img.Consistent) {v : ℤ} (h₀ : 0 ≤ v)
    (hv : v < img.totalblocks) : v < img.sb.size := by
  obtain ⟨b, rfl⟩ := Int.eq_ofNat_of_zero_le h₀
  exact_mod_cast (h.lt_size hv).1

/-- The bits of the file system's blocks lie in the image. -/
theorem Consistent.bit_lt (h : img.Consistent) {b : ℕ} (hb : b < img.sb.size) :
    img.bitStart + b / 8 < img.stSize := by
  have hadd := h.sized.firstData_add
  have hlong := h.long
  have hbit : img.bitStart = bblock 0 img.sb.ninodes * 512 := rfl
  have hfirst : img.firstData = bblock 0 img.sb.ninodes + (img.sb.size / 4096 + 1) := rfl
  rw [bsize] at hlong
  omega

/-- A block of the file system lies in the image, also where its offset is reduced to 32 bits. -/
theorem Consistent.readable_addr (h : img.Consistent) {b k len : ℕ} (hb : b < img.sb.size)
    (hk : k + len ≤ bsize) : img.Readable (addrOff b + k : ℕ) len := by
  have hlong := h.long
  have hle : bsize * b % 2 ^ 32 ≤ bsize * b := Nat.mod_le _ _
  rw [Readable, addrOff]
  unfold bsize at *
  omega

/-- Directory entry `e` of a block listed in an indirect block. -/
theorem Consistent.readable_dirent (h : img.Consistent) {v : ℤ} {e : ℕ} (h₀ : 0 ≤ v)
    (hv : v < img.sb.size) (hin : img.InRange (entryOff v)) (he : e < dpb) :
    img.Readable (entryOff v + 16 * (e : ℤ)) 16 := by
  have hlong := h.long
  have hfit := dirent_fits he
  have hle : entryOff v ≤ v * bsize := int32_le_of_nonneg (by unfold bsize; omega)
  have hge : (img.dataStart : ℤ) ≤ entryOff v := by
    rw [InRange] at hin
    omega
  refine ⟨by omega, ?_⟩
  rw [bsize] at hlong hfit hle
  omega

theorem Consistent.readable_inode (h : img.Consistent) {i : ℕ} (hi : i < img.sb.ninodes) :
    img.Readable (inodeOff i) 64 := by
  have hadd := h.sized.firstData_add
  have hfirst := img.firstData_eq
  have hlong := h.long
  rw [Readable, inodeOff]
  unfold ipb bsize at *
  omega

theorem Consistent.readable_sb (h : img.Consistent) : img.Readable bsize 12 := by
  have hs : img.sb.size = _ := h.sized
  have hlong := h.long
  rw [Readable]
  unfold ipb bsize at *
  omega

end

/-! ### Blocks are read after their addresses were tested -/

/-- Turns that come before a split, because the split falls after them. -/
theorem subset_of_split {i : ℕ} {first rest p q : List Turn} {t : Turn}
    (hturns : img.inodeTurns i = first ++ rest) (hsplit : img.inodeTurns i = p ++ t :: q)
    (ht : t ∉ first) : first ⊆ p := by
  rw [hturns] at hsplit
  obtain ⟨r, rfl, -⟩ | ⟨r, rfl, hr⟩ := List.append_eq_append_iff.1 hsplit
  · exact List.subset_append_left first r
  · cases r with
    | nil => rw [List.append_nil]; exact List.Subset.refl _
    | cons c r =>
      obtain ⟨rfl, -⟩ := List.cons.inj hr
      exact absurd (List.mem_append_right p List.mem_cons_self) ht

/-- The turns of inode `i` before its entries. -/
def turnsBeforeEntries (i : ℕ) : List Turn :=
  .inode i :: (img.rootTurns i ++ .inuse i :: img.addrTurns i)

theorem inodeTurns_of_dir {i : ℕ} (h : (img.dinode i).type = tDir) :
    img.inodeTurns i = img.turnsBeforeEntries i ++ (img.directTurns i ++ img.indirectTurns i) := by
  have hne : (img.dinode i).type ≠ 0 := by
    rw [h]
    decide
  rw [inodeTurns, if_neg hne, if_pos h, turnsBeforeEntries]
  simp only [List.append_assoc, List.cons_append]

theorem mem_turnsBeforeEntries {i : ℕ} {t : Turn} (h : t ∈ img.turnsBeforeEntries i) :
    t = .inode i ∨ (∃ a, t = .rootBlock a) ∨ t = .inuse i ∨
      ∃ a, t = .direct a ∨ t = .indirect a ∨ t = .entry a := by
  rcases List.mem_cons.1 h with h | h
  · exact .inl h
  rcases List.mem_append.1 h with h | h
  · exact .inr (.inl (img.mem_rootTurns h))
  rcases List.mem_cons.1 h with h | h
  · exact .inr (.inr (.inl h))
  · exact .inr (.inr (.inr (img.mem_addrTurns h)))

/-- Where the turns of inode `i` come from. -/
theorem mem_inodeTurns {i : ℕ} {t : Turn} (h : t ∈ img.inodeTurns i) :
    t = .inode i ∨ (∃ a, t = .rootBlock a) ∨ (img.dinode i).type ≠ 0 ∧
      (t = .inuse i ∨ t ∈ img.addrTurns i ∨
        (img.dinode i).type = tDir ∧ (t ∈ img.directTurns i ∨ t ∈ img.indirectTurns i)) := by
  rcases List.mem_cons.1 h with h | h
  · exact .inl h
  rcases List.mem_append.1 h with h | h
  · exact .inr (.inl (img.mem_rootTurns h))
  split at h
  · exact absurd h List.not_mem_nil
  case isFalse hu =>
  refine .inr (.inr ⟨hu, ?_⟩)
  rcases List.mem_cons.1 h with h | h
  · exact .inl h
  rcases List.mem_append.1 h with h | h
  · exact .inr (.inl h)
  split at h
  case isTrue hd => exact .inr (.inr ⟨hd, List.mem_append.1 h⟩)
  case isFalse => exact absurd h List.not_mem_nil

theorem entry_mem_inodeTurns {i off : ℕ} (h : .entry off ∈ img.inodeTurns i) :
    (img.dinode i).type ≠ 0 ∧ img.indirectAddr i ≠ 0 ∧
      ∃ k < nindirect, off = img.entryAt i k := by
  rcases img.mem_inodeTurns h with h | ⟨a, h⟩ | ⟨hu, h | h | ⟨-, h | h⟩⟩
  · cases h
  · cases h
  · cases h
  · refine ⟨hu, ?_⟩
    rcases List.mem_append.1 h with h | h
    · obtain ⟨j, -, h⟩ := List.mem_map.1 h
      cases h
    split at h
    · exact absurd h List.not_mem_nil
    case isFalse hne =>
    rcases List.mem_cons.1 h with h | h
    · cases h
    · obtain ⟨k, hk, h⟩ := List.mem_map.1 h
      exact ⟨hne, k, List.mem_range.1 hk, (Turn.entry.inj h).symm⟩
  · rcases img.mem_directTurns h with ⟨off, h⟩ | h <;> cases h
  · rcases img.mem_indirectTurns h with ⟨off, h⟩ | ⟨off, h⟩ <;> cases h

theorem dirent_mem_inodeTurns {i j off : ℕ} (h : .dirent j off ∈ img.inodeTurns i) :
    (img.dinode i).type = tDir ∧ ∃ k < ndirect, (img.dinode i).addrs k ≠ 0 ∧
      ∃ e < dpb, off = addrOff ((img.dinode i).addrs k) + 16 * e := by
  rcases img.mem_inodeTurns h with h | ⟨a, h⟩ | ⟨-, h | h | ⟨hd, h | h⟩⟩
  · cases h
  · cases h
  · cases h
  · obtain ⟨a, h | h | h⟩ := img.mem_addrTurns h <;> cases h
  · obtain ⟨k, hk, h⟩ := List.mem_flatMap.1 h
    split at h
    · exact absurd h List.not_mem_nil
    case isFalse hne =>
    rcases List.mem_append.1 h with h | h
    · obtain ⟨e, he, h⟩ := List.mem_map.1 h
      exact ⟨hd, k, List.mem_range.1 hk, hne, e, List.mem_range.1 he, (Turn.dirent.inj h).2.symm⟩
    · cases List.mem_singleton.1 h
  · rcases img.mem_indirectTurns h with ⟨off, h⟩ | ⟨off, h⟩ <;> cases h

/-- The turns over the blocks that the indirect block of a directory lists. -/
theorem indirect_mem_inodeTurns {i : ℕ} {t : Turn} (h : t ∈ img.inodeTurns i)
    (ht : (∃ off, t = .reread off) ∨ ∃ j off, t = .indirectDirent j off) :
    (img.dinode i).type = tDir ∧ img.indirectAddr i ≠ 0 ∧ ∃ m < nindirect,
      t = .reread (img.entryAt i m) ∨ img.word (img.entryAt i m) ≠ 0 ∧
        ∃ e < dpb,
          t = .indirectDirent i (entryOff (img.word (img.entryAt i m)) + 16 * (e : ℕ)) := by
  rcases img.mem_inodeTurns h with rfl | ⟨a, rfl⟩ | ⟨-, rfl | h | ⟨hd, h | h⟩⟩
  · rcases ht with ⟨off, ht⟩ | ⟨j, off, ht⟩ <;> cases ht
  · rcases ht with ⟨off, ht⟩ | ⟨j, off, ht⟩ <;> cases ht
  · rcases ht with ⟨off, ht⟩ | ⟨j, off, ht⟩ <;> cases ht
  · obtain ⟨a, rfl | rfl | rfl⟩ := img.mem_addrTurns h <;>
      rcases ht with ⟨off, ht⟩ | ⟨j, off, ht⟩ <;> cases ht
  · rcases img.mem_directTurns h with ⟨off', rfl⟩ | rfl <;>
      rcases ht with ⟨off, ht⟩ | ⟨j, off, ht⟩ <;> cases ht
  · rw [indirectTurns] at h
    split at h
    · exact absurd h List.not_mem_nil
    case isFalse hne =>
    obtain ⟨m, hm, h⟩ := List.mem_flatMap.1 h
    refine ⟨hd, hne, m, List.mem_range.1 hm, ?_⟩
    rcases List.mem_cons.1 h with h | h
    · exact .inl h
    split at h
    · exact absurd h List.not_mem_nil
    case isFalse hv =>
    obtain ⟨e, he, rfl⟩ := List.mem_map.1 h
    exact .inr ⟨hv, e, List.mem_range.1 he, rfl⟩

/-- What a turn reads lies inside the image; the blocks of the root directory, which are read
before their addresses are tested, are left out. -/
def ReadsInside : Turn → Prop
  | .inode i => img.Readable (inodeOff i) 64
  | .entry off | .reread off => img.Readable off 4
  | .dirent _ off => img.Readable off 16
  | .indirectDirent _ off => img.Readable off 16
  | .rootBlock _ | .inuse _ | .direct _ | .indirect _ | .closeBlock _ => True

section

variable {img} {dirarr : ℕ → ℕ} {pre post : List Turn}

/-- The indirect block was admitted before its entries are read. -/
theorem Consistent.readable_entryAt (h : img.Consistent) {i k : ℕ} (hk : k < nindirect)
    (hmem : .indirect (img.indirectAddr i) ∈ pre) (hadm : img.AllAdmitted dirarr pre) :
    img.Readable (img.entryAt i k) 4 := by
  obtain ⟨p, q, -, htotal, -⟩ := hadm.of_mem hmem
  exact h.readable_addr (h.lt_size htotal).1 (entry_fits hk)

/-- The addresses of a directory were admitted before its entries are read. -/
theorem addrTurns_subset {i : ℕ} {p q : List Turn} {t : Turn} (hd : (img.dinode i).type = tDir)
    (hsplit : img.inodeTurns i = p ++ t :: q)
    (ht : (∃ j off, t = .dirent j off) ∨ (∃ off, t = .reread off) ∨
      ∃ j off, t = .indirectDirent j off) : img.addrTurns i ⊆ p := by
  have hnot : t ∉ img.turnsBeforeEntries i := by
    intro hmem
    rcases ht with ⟨j, off, rfl⟩ | ⟨off, rfl⟩ | ⟨j, off, rfl⟩ <;>
      obtain h | ⟨a, h⟩ | h | ⟨a, h | h | h⟩ := img.mem_turnsBeforeEntries hmem <;> cases h
  have hsub := img.subset_of_split (img.inodeTurns_of_dir hd) hsplit hnot
  refine fun u hu ↦ hsub ?_
  exact List.mem_cons_of_mem _ (List.mem_append_right _ (List.mem_cons_of_mem _ hu))

theorem indirect_mem_addrTurns {i : ℕ} (hne : img.indirectAddr i ≠ 0) :
    .indirect (img.indirectAddr i) ∈ img.addrTurns i := by
  refine List.mem_append_right _ ?_
  rw [if_neg hne]
  exact List.mem_cons_self

/-- **What the scan reads lies inside the image**, the blocks of the root directory aside. -/
theorem Consistent.readsInside (h : img.Consistent) {t : Turn}
    (hl : img.scanOrder = pre ++ t :: post) (hadm : img.AllAdmitted dirarr pre) :
    img.ReadsInside t := by
  obtain ⟨i, hi, p, q, hsplit, rfl⟩ := GuardedLoop.flatMap_range_eq_append_cons hl
  have ht : t ∈ img.inodeTurns i := by
    rw [hsplit]
    exact List.mem_append_right p List.mem_cons_self
  cases t with
  | inode j =>
    have hij : j = i := by
      rcases img.mem_inodeTurns ht with h | ⟨a, h⟩ | ⟨-, h | h | ⟨-, h | h⟩⟩
      · exact Turn.inode.inj h
      · cases h
      · cases h
      · obtain ⟨a, h | h | h⟩ := img.mem_addrTurns h <;> cases h
      · rcases img.mem_directTurns h with ⟨off, h⟩ | h <;> cases h
      · rcases img.mem_indirectTurns h with ⟨off, h⟩ | ⟨off, h⟩ <;> cases h
    exact h.readable_inode (hij ▸ hi)
  | entry off =>
    obtain ⟨hu, hne, k, hk, rfl⟩ := img.entry_mem_inodeTurns ht
    have hnot : .entry (img.entryAt i k) ∉
        img.turnsBeforeIndirect i ++ [.indirect (img.indirectAddr i)] := by
      intro hmem
      rcases List.mem_append.1 hmem with hmem | hmem
      · rcases List.mem_cons.1 hmem with hmem | hmem
        · cases hmem
        rcases List.mem_append.1 hmem with hmem | hmem
        · obtain ⟨a, hmem⟩ := img.mem_rootTurns hmem
          cases hmem
        rcases List.mem_cons.1 hmem with hmem | hmem
        · cases hmem
        · obtain ⟨j, -, hmem⟩ := List.mem_map.1 hmem
          cases hmem
      · cases List.mem_singleton.1 hmem
    have hsub := img.subset_of_split (by
      rw [img.inodeTurns_of_indirect hu hne, List.append_cons]) hsplit hnot
    have hmem : .indirect (img.indirectAddr i) ∈ p :=
      hsub (List.mem_append_right _ (List.mem_singleton_self _))
    exact h.readable_entryAt hk (List.mem_append_right _ hmem) hadm
  | dirent j off =>
    obtain ⟨hd, k, hk, hne, e, he, rfl⟩ := img.dirent_mem_inodeTurns ht
    have hsub := addrTurns_subset hd hsplit (.inl ⟨_, _, rfl⟩)
    have hmem : .direct ((img.dinode i).addrs k) ∈ p :=
      hsub (List.mem_append_left _ (List.mem_map.2 ⟨k, List.mem_range.2 hk, rfl⟩))
    obtain ⟨p', q', -, hadm'⟩ := hadm.of_mem (List.mem_append_right (img.turnsBelow i) hmem)
    exact h.readable_addr (h.lt_size (hadm' hne).2.1).1 (dirent_fits he)
  | reread off =>
    obtain ⟨hd, hne, m, hm, ht | ⟨-, e, -, ht⟩⟩ :=
      img.indirect_mem_inodeTurns ht (.inl ⟨_, rfl⟩)
    · cases ht
      have hsub := addrTurns_subset hd hsplit (.inr (.inl ⟨_, rfl⟩))
      have hmem := hsub (indirect_mem_addrTurns hne)
      exact h.readable_entryAt hm (List.mem_append_right _ hmem) hadm
    · cases ht
  | indirectDirent j off =>
    obtain ⟨hd, hne, m, hm, ht | ⟨hv, e, he, ht⟩⟩ :=
      img.indirect_mem_inodeTurns ht (.inr ⟨_, _, rfl⟩)
    · cases ht
    · cases ht
      have hsub := addrTurns_subset hd hsplit (.inr (.inr ⟨_, _, rfl⟩))
      have hentry : .entry (img.entryAt i m) ∈ img.addrTurns i := by
        refine List.mem_append_right _ ?_
        rw [if_neg hne]
        exact List.mem_cons_of_mem _ (List.mem_map.2 ⟨m, List.mem_range.2 hm, rfl⟩)
      obtain ⟨p', q', -, -, hadm'⟩ :=
        hadm.of_mem (List.mem_append_right (img.turnsBelow i) (hsub hentry))
      obtain ⟨hin, hnn, hlt, -⟩ := hadm' (mt img.word_eq_zero_iff.2 hv)
      exact h.readable_dirent hnn (h.lt_size_of_nonneg hnn hlt) hin he
  | _ => trivial

end

/-! ### Blocks of the root directory -/

/-- Some index of `[s, s + n)` has `P`, and none before it has `D`. -/
def BeforeFirst (D P : ℕ → Prop) (s n : ℕ) : Prop :=
  ∃ e, (s ≤ e ∧ e < s + n) ∧ P e ∧ ∀ e', s ≤ e' → e' < e → ¬ D e'

theorem beforeFirst_succ_iff {D P : ℕ → Prop} {s n : ℕ} :
    BeforeFirst D P s (n + 1) ↔ P s ∨ ¬ D s ∧ BeforeFirst D P (s + 1) n := by
  constructor
  · rintro ⟨e, ⟨hlo, hhi⟩, hP, hD⟩
    rcases Nat.eq_or_lt_of_le hlo with rfl | hlt
    · exact .inl hP
    · exact .inr ⟨hD s le_rfl hlt, e, ⟨hlt, by omega⟩, hP, fun e' h' ↦ hD e' (by omega)⟩
  · rintro (hP | ⟨hs, e, ⟨hlo, hhi⟩, hP, hD⟩)
    · exact ⟨s, ⟨le_rfl, by omega⟩, hP, fun e' h' hlt ↦ absurd hlt (by omega)⟩
    · refine ⟨e, ⟨by omega, by omega⟩, hP, fun e' h' hlt ↦ ?_⟩
      rcases Nat.eq_or_lt_of_le h' with rfl | h'
      · exact hs
      · exact hD e' h' hlt

theorem beforeFirst_zero_iff {D P : ℕ → Prop} {n : ℕ} :
    BeforeFirst D P 0 n ↔ ∃ e < n, P e ∧ ∀ e' < e, ¬ D e' := by
  simp [BeforeFirst]

theorem not_beforeFirst_zero {D P : ℕ → Prop} {s : ℕ} : ¬ BeforeFirst D P s 0 := by
  rintro ⟨e, ⟨hlo, hhi⟩, -⟩
  omega

/-- The loop over a root block goes out of bounds at an entry outside the image, unless it met
`".."` before. -/
theorem checkRootEntries_outOfBounds_iff (off s n : ℕ) :
    img.checkRootEntries off (List.range' s n) = .error .outOfBounds ↔
      BeforeFirst (fun e ↦ (img.dirent (off + 16 * e)).isDotDot)
        (fun e ↦ ¬ img.Readable (off + 16 * e : ℕ) 16) s n := by
  induction n generalizing s with
  | zero => exact ⟨fun h ↦ (by cases h), fun h ↦ absurd h not_beforeFirst_zero⟩
  | succ n ih =>
    rw [List.range'_succ, checkRootEntries, beforeFirst_succ_iff, ← ih]
    split_ifs <;> simp_all

/-- It goes through when it neither leaves the image nor meets a wrong `".."`. -/
theorem checkRootEntries_ok_iff (off s n : ℕ) :
    img.checkRootEntries off (List.range' s n) = .ok () ↔
      ¬ BeforeFirst (fun e ↦ (img.dirent (off + 16 * e)).isDotDot)
          (fun e ↦ (img.dirent (off + 16 * e)).isDotDot ∧
            rootino ≠ (img.dirent (off + 16 * e)).inum) s n ∧
        ¬ BeforeFirst (fun e ↦ (img.dirent (off + 16 * e)).isDotDot)
          (fun e ↦ ¬ img.Readable (off + 16 * e : ℕ) 16) s n := by
  induction n generalizing s with
  | zero => exact ⟨fun _ ↦ ⟨not_beforeFirst_zero, not_beforeFirst_zero⟩, fun _ ↦ rfl⟩
  | succ n ih =>
    rw [List.range'_succ, checkRootEntries, beforeFirst_succ_iff, beforeFirst_succ_iff]
    split_ifs <;> simp_all

/-! ### One turn -/

section

variable {img} {dirarr : ℕ → ℕ} {pre post : List Turn} {t : Turn}

/-- A turn goes through when it neither reports nor goes out of bounds. -/
theorem Consistent.admits_iff (h : img.Consistent) (hl : img.scanOrder = pre ++ t :: post)
    (hadm : img.AllAdmitted dirarr pre) :
    img.Admits (img.after dirarr pre) t ↔ ¬ img.Rejected pre t ∧ ¬ img.Unsafe t := by
  have hread := h.readsInside hl hadm
  cases t with
  | inode i =>
    have hr : img.Readable (inodeOff i) 64 := hread
    simp only [Admits, Rejected, Unsafe]
    grind
  | rootBlock addr =>
    have hok := img.checkRootEntries_ok_iff (addrOff addr) 0 dpb
    rw [beforeFirst_zero_iff, beforeFirst_zero_iff, ← List.range_eq_range'] at hok
    simp only [Admits, Rejected, Unsafe, hok, and_assoc]
    grind
  | inuse i => simp [Admits, Rejected, Unsafe]
  | direct addr =>
    simp only [Admits, Rejected, Unsafe, after_visitblock, List.count_eq_zero]
    grind
  | indirect addr =>
    simp only [Admits, Rejected, Unsafe]
    grind
  | entry off =>
    have hr : img.Readable off 4 := hread
    simp only [Admits, Rejected, Unsafe, after_visitblock, List.count_eq_zero]
    grind
  | dirent i off =>
    have hr : img.Readable off 16 := hread
    simp only [Admits, Rejected, Unsafe]
    grind
  | closeBlock i =>
    simp only [Admits, Rejected, Unsafe, after_findroot, after_findcur]
    grind
  | reread off =>
    have hr : img.Readable off 4 := hread
    simp only [Admits, Rejected, Unsafe]
    grind
  | indirectDirent i off =>
    have hr : img.Readable off 16 := hread
    simp only [Admits, Rejected, Unsafe]
    grind

/-- A turn goes out of bounds when it is one of the unsafe ones. -/
theorem Consistent.step_outOfBounds_iff (h : img.Consistent)
    (hl : img.scanOrder = pre ++ t :: post) (hadm : img.AllAdmitted dirarr pre) :
    img.step dirarr (img.after dirarr pre) t = .error .outOfBounds ↔ img.Unsafe t := by
  have hread := h.readsInside hl hadm
  cases t with
  | inode i =>
    have hr : img.Readable (inodeOff i) 64 := hread
    rw [step, checkInode, if_neg (not_not.2 hr)]
    simp only [Unsafe]
    split_ifs <;> simp
  | rootBlock addr =>
    have hoob := img.checkRootEntries_outOfBounds_iff (addrOff addr) 0 dpb
    rw [beforeFirst_zero_iff, ← List.range_eq_range'] at hoob
    rw [step, checkRootBlock, Unsafe, ← hoob]
    rcases img.checkRootEntries (addrOff addr) (List.range dpb) with e | ⟨⟩ <;>
      split_ifs <;> simp_all
  | inuse i => simp [step, Unsafe]
  | direct addr =>
    have hbit : (addr : ℤ) < img.totalblocks → img.bitStart + addr / 8 < img.stSize :=
      fun ht ↦ h.bit_lt (h.lt_size ht).1
    simp only [step, checkDirect, Unsafe]
    split_ifs <;> grind
  | indirect addr =>
    simp only [step, checkIndirect, Unsafe]
    split_ifs <;> grind
  | entry off =>
    have hr : img.Readable off 4 := hread
    have hbit : 0 ≤ img.word off → img.word off < img.totalblocks →
        img.bitStart + (img.word off).toNat / 8 < img.stSize := by
      intro h₀ ht
      refine h.bit_lt (h.lt_size ?_).1
      rwa [Int.toNat_of_nonneg h₀]
    have hzero : img.word off = 0 ↔ img.u32 off = 0 := img.word_eq_zero_iff
    simp only [step, checkEntry, Unsafe]
    split_ifs <;> grind
  | dirent i off =>
    have hr : img.Readable off 16 := hread
    simp only [step, scanDirent, Unsafe]
    split_ifs <;> grind
  | closeBlock i =>
    simp only [step, closeBlock, Unsafe]
    split_ifs <;> simp
  | reread off =>
    have hr : img.Readable off 4 := hread
    simp [step, readWord, Unsafe, hr]
  | indirectDirent i off =>
    have hr : img.Readable off 16 := hread
    simp only [step, scanIndirectDirent, Unsafe]
    split_ifs <;> grind

end

/-! ### The scan -/

variable (dirarr : ℕ → ℕ)

theorem allAdmitted_concat_iff {l : List Turn} {t : Turn} :
    img.AllAdmitted dirarr (l ++ [t]) ↔
      img.AllAdmitted dirarr l ∧ img.Admits (img.after dirarr l) t := by
  constructor
  · intro h
    refine ⟨fun pre u post hl ↦ h pre u (post ++ [t]) ?_, h l t [] rfl⟩
    rw [hl, List.append_assoc, List.cons_append]
  · rintro ⟨hl, ht⟩ pre u post heq
    rcases List.eq_nil_or_concat post with rfl | ⟨post, v, rfl⟩
    · obtain ⟨rfl, hut⟩ := List.append_inj' heq rfl
      obtain rfl : t = u := List.singleton_inj.1 hut
      exact ht
    · rw [List.concat_eq_append, ← List.cons_append, ← List.append_assoc] at heq
      exact hl pre u post (List.append_inj' heq rfl).1

variable {img}

/-- **The scan goes out of bounds** at an unsafe turn, when no turn before it reported. -/
theorem Consistent.scanInodes_outOfBounds_iff (h : img.Consistent) :
    img.scanInodes dirarr = .error .outOfBounds ↔
      ∃ pre t post, img.scanOrder = pre ++ t :: post ∧ img.NoneRejected pre ∧ img.Unsafe t := by
  have hstop : ∀ {pre t post}, img.scanOrder = pre ++ t :: post → img.AllAdmitted dirarr pre →
      img.Unsafe t → img.scanInodes dirarr = .error .outOfBounds := by
    intro pre t post hl hadm ht
    rw [scanInodes_eq, GuardedLoop.foldlM_eq_error_iff (img.step_tracks dirarr)]
    exact ⟨pre, t, post, hl, (img.passes_iff_allAdmitted dirarr).2 hadm,
      (h.step_outOfBounds_iff hl hadm).2 ht⟩
  constructor
  · intro hrun
    rw [scanInodes_eq, GuardedLoop.foldlM_eq_error_iff (img.step_tracks dirarr)] at hrun
    obtain ⟨pre, t, post, hl, hpass, ht⟩ := hrun
    have hadm := (img.passes_iff_allAdmitted dirarr).1 hpass
    refine ⟨pre, t, post, hl, fun p u q hpre ↦ ?_, (h.step_outOfBounds_iff hl hadm).1 ht⟩
    have hl' : img.scanOrder = p ++ u :: (q ++ t :: post) := by
      rw [hl, hpre, List.append_assoc, List.cons_append]
    have hadm' : img.AllAdmitted dirarr p := fun p' u' q' hp ↦ hadm p' u' (q' ++ u :: q) (by
      rw [hpre, hp, List.append_assoc, List.cons_append])
    exact ((h.admits_iff hl' hadm').1 (hadm p u q hpre)).1
  · -- the turns before the unsafe one are all admitted, or the scan stopped at an earlier one
    rintro ⟨pre, t, post, hl, hnone, ht⟩
    have hprefix : ∀ l rest, img.scanOrder = l ++ rest → img.NoneRejected l →
        img.AllAdmitted dirarr l ∨ img.scanInodes dirarr = .error .outOfBounds := by
      intro l
      induction l using List.reverseRecOn with
      | nil => exact fun _ _ _ ↦ .inl fun p u q hp ↦ absurd hp (by simp)
      | append_singleton l u ih =>
        intro rest hrest hnone
        have hl' : img.scanOrder = l ++ u :: rest := by
          rw [hrest, List.append_assoc, List.cons_append, List.nil_append]
        rcases ih _ hl' fun p v q hp ↦ hnone p v (q ++ [u]) (by
          rw [hp, List.append_assoc, List.cons_append]) with hadm | hoob
        · by_cases hu : img.Unsafe u
          · exact .inr (hstop hl' hadm hu)
          · refine .inl ((img.allAdmitted_concat_iff dirarr).2 ⟨hadm, ?_⟩)
            exact (h.admits_iff hl' hadm).2 ⟨hnone l u [] rfl, hu⟩
        · exact .inr hoob
    rcases hprefix pre _ hl hnone with hadm | hoob
    · exact hstop hl hadm ht
    · exact hoob

/-! ### After the scan -/

/-- A scanned entry lies in a block of its directory. -/
theorem exists_mem_blockUses_of_mem_scannedEntries {x : Entry} (hx : x ∈ img.scannedEntries) :
    ∃ b, b ∈ img.blockUses := by
  obtain ⟨i, hi, hx⟩ := List.mem_flatMap.1 hx
  by_cases hd : (img.dinode i).type = tDir
  · have hdir : img.IsDir i := ⟨List.mem_range.1 hi, hd⟩
    rw [if_pos hd] at hx
    obtain ⟨d, hmem, rfl⟩ := List.mem_map.1 hx
    rcases List.mem_append.1 hmem with hmem | hmem
    · obtain ⟨hmem, -⟩ := List.mem_filter.1 hmem
      obtain ⟨addr, haddr, -⟩ := List.mem_flatMap.1 hmem
      exact ⟨addr, img.mem_blockUses_iff.2 ⟨i, hdir.inUse, List.mem_append_left _ haddr⟩⟩
    · rw [indirectEntries] at hmem
      split at hmem
      · exact absurd hmem List.not_mem_nil
      case isFalse hne =>
      refine ⟨img.indirectAddr i, img.mem_blockUses_iff.2 ⟨i, hdir.inUse, ?_⟩⟩
      rw [inodeBlocks, if_neg hne]
      exact List.mem_append_right _ List.mem_cons_self
  · rw [if_neg hd] at hx
    exact absurd hx List.not_mem_nil

/-- No inode is in use in an image of `2 ^ 31` blocks or more that passes. -/
theorem Passed.type_eq_zero (hp : img.Passed) (h : img.Consistent) (hbig : 2 ^ 31 ≤ img.sb.size)
    {i : ℕ} (hi : i < img.sb.ninodes) : (img.dinode i).type = 0 := by
  by_contra hne
  have hpos := (hp.linked i hi).referred ⟨hi, hne⟩
  obtain ⟨x, hx, -⟩ := references_pos_iff.1 hpos
  obtain ⟨b, hb⟩ := exists_mem_blockUses_of_mem_scannedEntries hx
  have hlt := (h.lt_size (hp.blockUses_range hb).2).2
  omega

/-- Without an inode in use there is no root directory, so there is no inode 1. -/
theorem Passed.ninodes_le_one (hp : img.Passed)
    (hfree : ∀ i < img.sb.ninodes, (img.dinode i).type = 0) : img.sb.ninodes ≤ 1 := by
  by_contra hlt
  have hroot : rootino < img.sb.ninodes := by
    rw [rootino]
    omega
  have hmem : Turn.inode rootino ∈ img.scanOrder :=
    List.mem_flatMap.2 ⟨rootino, List.mem_range.2 hroot, List.mem_cons_self⟩
  obtain ⟨pre, post, -, -, -, htype⟩ := hp.admitted.of_mem hmem
  have hdir := htype rfl
  rw [hfree rootino hroot] at hdir
  exact absurd hdir (by decide)

/-- The recorded parents are inode numbers of the table. -/
theorem Passed.recordedParent_lt (hp : img.Passed) {i : ℕ} (hi : i < img.sb.ninodes) :
    img.recordedParent i < img.sb.ninodes := by
  rcases hlast : (img.dotDots i).getLast? with - | p
  · rw [recordedParent, hlast]
    exact Nat.zero_lt_of_lt hi
  · have hmem : p ∈ img.dotDots i := List.mem_of_getLast? hlast
    rw [recordedParent, hlast]
    rw [dotDots] at hmem
    split at hmem
    case isTrue hdir =>
      obtain ⟨d, hd, rfl⟩ := List.mem_map.1 hmem
      have hx : (⟨i, d⟩ : Entry) ∈ img.scannedEntries := by
        refine List.mem_flatMap.2 ⟨i, List.mem_range.2 hi, ?_⟩
        rw [if_pos hdir.2]
        exact List.mem_map.2 ⟨d, List.mem_append_left _ (List.mem_filter.1 hd).1, rfl⟩
      exact hp.inum_lt hx
    case isFalse => exact absurd hmem List.not_mem_nil

/-- The rules stay inside the inode table. -/
theorem rules_ne_outOfBounds (hr : img.InodesReadable) (s : Scan) :
    img.rules s ≠ .error .outOfBounds := by
  intro h
  obtain ⟨i, hi, hrun⟩ := GuardedLoop.exists_of_checks_eq_error h
  rw [checkRules] at hrun
  have hread := hr i (List.mem_range.1 hi)
  split_ifs at hrun <;> simp_all

theorem parents_ne_outOfBounds (s : Scan) : img.parents s ≠ .error .outOfBounds := by
  refine GuardedLoop.foldlM_ne_error (fun _ i ↦ ?_) _ _
  refine GuardedLoop.foldlM_ne_error (fun _ j ↦ ?_) _ _
  rw [checkParent]
  split_ifs <;> simp

/-- The checks before the bitmap scan go out of bounds in the scan, or not at all. -/
theorem Consistent.earlierChecks_outOfBounds_iff (h : img.Consistent)
    (hn : img.sb.ninodes ≤ 2 ^ 31) {fuel : ℕ} :
    img.earlierChecks fuel = .error .outOfBounds ↔
      img.scanInodes img.dirTable = .error .outOfBounds := by
  have hinodes : img.InodesReadable := fun i hi ↦ h.readable_inode hi
  have hmark : img.markDirs = .ok img.dirTable := img.markDirs_eq_ok_iff.2 ⟨hinodes, rfl⟩
  rw [earlierChecks, if_neg (not_not.2 h.readable_sb), if_neg (not_lt.2 hn), hmark]
  show img.scanInodes img.dirTable >>= _ = _ ↔ _
  rw [GuardedLoop.bind_eq_error_iff]
  refine or_iff_left ?_
  rintro ⟨s, hs, hrun⟩
  obtain ⟨hadm, rfl⟩ := (img.scanInodes_eq_ok_iff _).1 hs
  have hc := img.completed_after
  rcases GuardedLoop.bind_eq_error_iff.1 hrun with hrun | ⟨⟨⟩, hrules, hrun⟩
  · exact rules_ne_outOfBounds hinodes _ hrun
  rcases GuardedLoop.bind_eq_error_iff.1 hrun with hrun | ⟨⟨⟩, hparents, hrun⟩
  · exact parents_ne_outOfBounds _ hrun
  obtain ⟨hl, hnamed⟩ := (hc.rules_eq_ok_iff hinodes).1 hrules
  have hp : img.Passed :=
    ⟨h.readable_sb, hn, hinodes, hadm, hl, hnamed, hc.parents_eq_ok_iff.1 hparents⟩
  rcases GuardedLoop.bind_eq_error_iff.1 hrun with hrun | ⟨marks, -, hrun⟩
  · rw [hc.parentinum] at hrun
    exact walksBelow_ne_outOfBounds (fun x hx ↦ hp.recordedParent_lt hx) le_rfl hrun
  · cases hrun

/-- Below `2 ^ 31` blocks the bitmap scan stays in bounds. -/
theorem Consistent.bitmapScan_ne_outOfBounds (h : img.Consistent) (hlt : img.sb.size < 2 ^ 31)
    (visitblock : ℕ → ℕ) : img.bitmapScan visitblock ≠ .error .outOfBounds := by
  intro hrun
  obtain ⟨b, hb, hbit⟩ := GuardedLoop.exists_of_checks_eq_error hrun
  have hadd := h.sized.firstData_add
  have hsize : b < img.sb.size := lt_of_lt_of_le (mem_scanBits_iff.1 hb).2 (by omega)
  have hread := h.bit_lt hsize
  have htotal : (b : ℤ) < img.totalblocks := by
    rw [h.sized.totalblocks_eq, int32_of_lt (by omega) (by omega)]
    omega
  rw [scanBit_eq, if_neg (by omega), if_neg (not_not.2 htotal)] at hbit
  split_ifs at hbit
  cases hbit

/-- With `2 ^ 31` blocks or more, `totalblocks` is negative: the bitmap scan goes out of bounds at
a marked block, and at block number `2 ^ 31`, where its `int` overflows. -/
theorem Consistent.bitmapScan_outOfBounds_iff (h : img.Consistent) (hbig : 2 ^ 31 ≤ img.sb.size)
    (visitblock : ℕ → ℕ) :
    img.bitmapScan visitblock = .error .outOfBounds ↔
      ∃ b ∈ img.scanBits, 2 ^ 31 ≤ b ∨ img.Marked b := by
  have htotal : ∀ b : ℕ, ¬ (b : ℤ) < img.totalblocks := by
    intro b hb
    have hlt := (h.lt_size hb).2
    omega
  have hbit : ∀ b ∈ img.scanBits,
      img.scanBit visitblock b = .ok () ∧ ¬ (2 ^ 31 ≤ b ∨ img.Marked b) ∨
        img.scanBit visitblock b = .error .outOfBounds ∧ (2 ^ 31 ≤ b ∨ img.Marked b) := by
    intro b hb
    have hadd := h.sized.firstData_add
    have hread := h.bit_lt (lt_of_lt_of_le (mem_scanBits_iff.1 hb).2 (by omega))
    rw [scanBit_eq, if_pos (htotal b)]
    split_ifs <;> simp_all
  constructor
  · intro hrun
    obtain ⟨b, hb, hoob⟩ := GuardedLoop.exists_of_checks_eq_error hrun
    rcases hbit b hb with ⟨hok, -⟩ | ⟨-, hcond⟩
    · rw [hok] at hoob
      cases hoob
    · exact ⟨b, hb, hcond⟩
  · rintro ⟨b, hb, hcond⟩
    obtain ⟨pre, post, hsplit⟩ := List.append_of_mem hb
    rw [bitmapScan, hsplit]
    refine GuardedLoop.checks_eq_error (fun c hc ↦ ?_) ?_
    · have hcmem : c ∈ img.scanBits := hsplit ▸ List.mem_append_left _ hc
      exact (hbit c hcmem).imp And.left And.left
    · exact ((hbit b hb).resolve_left fun hok ↦ hok.2 hcond).1

/-- An image with at most one inode, a free one, passes. -/
theorem Consistent.passed_of_free (h : img.Consistent) (hone : img.sb.ninodes ≤ 1)
    (hfree : ∀ i < img.sb.ninodes, (img.dinode i).type = 0) :
    ∃ s, img.earlierChecks 1 = .ok s := by
  have hdir : ∀ i, ¬ img.IsDir i := by
    rintro i ⟨hi, hd⟩
    rw [hfree i hi] at hd
    exact absurd hd (by decide)
  have hentries : img.scannedEntries = [] := by
    rw [List.eq_nil_iff_forall_not_mem]
    exact fun x hx ↦ hdir x.dir (img.isDir_of_mem_scannedEntries hx)
  have hrefs : ∀ i, img.references i = 0 := fun i ↦ by rw [references, hentries, List.countP_nil]
  have hadm : img.AllAdmitted img.dirTable img.scanOrder := by
    intro pre t post hl
    obtain ⟨i, hi, p, q, hsplit, -⟩ := GuardedLoop.flatMap_range_eq_append_cons hl
    have hi0 : i = 0 := by omega
    subst hi0
    have hturns : img.inodeTurns 0 = [.inode 0] := by
      rw [inodeTurns, if_pos (hfree 0 hi)]
      rfl
    have ht : t ∈ img.inodeTurns 0 := by
      rw [hsplit]
      exact List.mem_append_right p List.mem_cons_self
    rw [hturns] at ht
    obtain rfl : t = .inode 0 := List.mem_singleton.1 ht
    refine ⟨h.readable_inode hi, ?_, fun h₀ ↦ absurd h₀ (by decide)⟩
    rw [hfree 0 hi]
    decide
  have hp : img.Passed := by
    refine ⟨h.readable_sb, by omega, fun i hi ↦ h.readable_inode hi, hadm, fun i hi ↦ ?_,
      fun i hi ↦ absurd hi (hdir i), fun j hj ↦ absurd hj (hdir j)⟩
    refine ⟨fun hu ↦ absurd (hfree i hi) hu.2, fun hpos ↦ ?_, fun hf ↦ ?_⟩
    · rw [hrefs] at hpos
      exact absurd hpos (lt_irrefl 0)
    · rw [hfree i hi] at hf
      exact absurd hf (by decide)
  have hwalk : loopCheck 1 img.sb.ninodes img.dirTable img.recordedParent = .ok fun _ ↦ 0 := by
    have hnodir : ∀ t i, walkFrom 1 img.sb.ninodes img.dirTable img.recordedParent t i = .ok t :=
      fun t i ↦ if_neg fun hc ↦ img.dirTable_ne_zero_iff.1 hc.1 |> hdir i
    rw [loopCheck]
    generalize List.range img.sb.ninodes = l
    induction l with
    | nil => rfl
    | cons i l ih =>
      rw [List.foldlM_cons, hnodir]
      exact ih
  exact ⟨_, img.earlierChecks_eq_ok_iff.2 ⟨hp, rfl, _, hwalk⟩⟩

/-- **When check mode stays in bounds**, on an image with a consistent superblock: when the scan
meets no unsafe turn before it reports something, there are at most `2 ^ 31` inodes, and an image
of `2 ^ 31` blocks or more without inodes in use has no marked block where the bitmap is scanned. -/
theorem inBounds_iff (h : img.Consistent) :
    (∀ fuel, img.checkMode fuel ≠ .error .outOfBounds) ↔
      img.sb.ninodes ≤ 2 ^ 31 ∧
      (∀ pre t post, img.scanOrder = pre ++ t :: post → img.NoneRejected pre → ¬ img.Unsafe t) ∧
      (2 ^ 31 ≤ img.sb.size → img.sb.ninodes ≤ 1 →
        (∀ i < img.sb.ninodes, (img.dinode i).type = 0) →
        img.sb.nblocks ≤ 2 ^ 31 ∧ ∀ b, 4 ≤ b → b < img.sb.nblocks → ¬ img.Marked b) := by
  have hipb : img.sb.ninodes ≤ 1 → img.sb.ninodes / ipb = 0 := by
    intro hone
    rw [ipb, bsize]
    omega
  constructor
  · intro hsafe
    have hn : img.sb.ninodes ≤ 2 ^ 31 := by
      by_contra hlt
      refine hsafe 0 ?_
      rw [checkMode, earlierChecks, if_neg (not_not.2 h.readable_sb), if_pos (not_le.1 hlt)]
      rfl
    refine ⟨hn, fun pre t post hl hnone hunsafe ↦ ?_, fun hbig hone hfree ↦ ?_⟩
    · have hscan := (h.scanInodes_outOfBounds_iff img.dirTable).2 ⟨pre, t, post, hl, hnone, hunsafe⟩
      refine hsafe 0 ?_
      rw [checkMode, (h.earlierChecks_outOfBounds_iff hn).2 hscan]
      rfl
    · obtain ⟨s, hs⟩ := h.passed_of_free hone hfree
      have hbits : ¬ ∃ b ∈ img.scanBits, 2 ^ 31 ≤ b ∨ img.Marked b := by
        rw [← h.bitmapScan_outOfBounds_iff hbig s.visitblock]
        intro hoob
        refine hsafe 1 ?_
        rw [checkMode, hs]
        exact hoob
      have hzero := hipb hone
      refine ⟨?_, fun b hlo hhi hmark ↦ ?_⟩
      · by_contra hlt
        exact hbits ⟨2 ^ 31, mem_scanBits_iff.2 ⟨by omega, by omega⟩, .inl le_rfl⟩
      · exact hbits ⟨b, mem_scanBits_iff.2 ⟨by omega, hhi⟩, .inr hmark⟩
  · rintro ⟨hn, hscan, hcorner⟩ fuel hrun
    rcases GuardedLoop.bind_eq_error_iff.1 hrun with hrun | ⟨s, hs, hrun⟩
    · rw [h.earlierChecks_outOfBounds_iff hn, h.scanInodes_outOfBounds_iff] at hrun
      obtain ⟨pre, t, post, hl, hnone, ht⟩ := hrun
      exact hscan pre t post hl hnone ht
    · by_cases hbig : 2 ^ 31 ≤ img.sb.size
      · obtain ⟨hp, -, -⟩ := img.earlierChecks_eq_ok_iff.1 hs
        have hfree : ∀ i < img.sb.ninodes, (img.dinode i).type = 0 :=
          fun i hi ↦ hp.type_eq_zero h hbig hi
        have hone := hp.ninodes_le_one hfree
        obtain ⟨hblocks, hmarks⟩ := hcorner hbig hone hfree
        obtain ⟨b, hb, hcond⟩ := (h.bitmapScan_outOfBounds_iff hbig _).1 hrun
        have hzero := hipb hone
        obtain ⟨hlo, hhi⟩ := mem_scanBits_iff.1 hb
        rcases hcond with hcond | hmark
        · omega
        · exact hmarks b (by omega) hhi hmark
      · exact h.bitmapScan_ne_outOfBounds (by omega) _ hrun

set_option maxRecDepth 100000 in
/-- The small image is consistent and has no unsafe turn. -/
theorem smallImage_inBounds :
    smallImage.Consistent ∧ ∀ fuel, smallImage.checkMode fuel ≠ .error .outOfBounds := by
  have h : smallImage.Consistent := ⟨by decide, by decide⟩
  refine ⟨h, ?_⟩
  have hsafe : ∀ t ∈ smallImage.scanOrder, ¬ smallImage.Unsafe t := by decide +kernel
  refine (inBounds_iff h).2 ⟨by decide, fun pre t post hl _ ↦ hsafe t ?_, fun hbig ↦ ?_⟩
  · rw [hl]
    exact List.mem_append_right pre List.mem_cons_self
  · exact absurd hbig (by decide)

/-- An entry of the root directory of this image carries inode number 200, of a table of four. -/
def strayEntryImage : Image :=
  ofChunks 7
    [sbChunk 7 3 4, inodeChunk 1 1 1 [4], (3 * bsize, [0x1f]),
      direntChunk 4 0 1 [46], direntChunk 4 1 1 [46, 46], direntChunk 4 2 200 [100]]

set_option maxRecDepth 100000 in
/-- The checker counts the reference in `inoderefer[200]`. -/
theorem strayEntryImage_outOfBounds :
    strayEntryImage.Consistent ∧ strayEntryImage.checkMode 5 = .error .outOfBounds := by
  refine ⟨⟨by decide, by decide⟩, by decide +kernel⟩

end Image

end Fsck
