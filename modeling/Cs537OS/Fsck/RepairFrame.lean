import Cs537OS.Fsck.Accepted
import Cs537OS.Fsck.Relink
import Mathlib.Data.Nat.Digits.Defs

/-!
# What a repair leaves alone

A repair is meant to change only unused entries of `lost_found` and the `"."` and `".."` entries of
the directories it relinks (`Image.MayChange`), so that every link that was there is still there
(`Image.Preserves`). The code never looks at what it overwrites, so this holds exactly when each
single write repeats what is there or falls on such an entry, in an image that has a `lost_found`
directory at all (`Image.Fits`).

**Where the equivalence is stated.** That `Fits` is enough needs nothing else. That it is needed
is shown for runs whose writes do not meet each other nor the blocks that say where the entries
are (`Image.Apart`): elsewhere a later write can undo an earlier one.
-/

namespace Fsck

namespace Image

variable (img img' : Image)

/-! ### What may change -/

/-- The root directory has an entry named `lost_found` for the directory `f`. -/
def HasLostFound (f : ℕ) : Prop :=
  img.IsDir f ∧ f ≠ 0 ∧ img.IsDir rootino ∧
    ∃ p ∈ img.entryOffs rootino,
      (img.dirent p).inum = f ∧ nameIs (img.dirent p).name lostFoundName

instance (f : ℕ) : Decidable (img.HasLostFound f) := inferInstanceAs (Decidable (_ ∧ _))

instance {P : ℕ → Prop} [DecidablePred P] : Decidable (∃ f, img.HasLostFound f ∧ P f) :=
  decidable_of_iff (∃ f, img.IsDir f ∧ img.HasLostFound f ∧ P f)
    (exists_congr fun _ ↦ and_iff_right_of_imp fun h ↦ h.1.1)

instance : Decidable (∃ f, img.HasLostFound f) :=
  decidable_of_iff (∃ f, img.HasLostFound f ∧ True) (exists_congr fun _ ↦ and_iff_left trivial)

/-- An unused entry in a data block of `lost_found`. -/
def Spare (p : ℕ) : Prop :=
  ∃ f, img.HasLostFound f ∧ p ∈ img.entryOffs f ∧ (img.dirent p).inum = 0

/-- The `"."` or `".."` entry of a directory being relinked: one of the first two entries of its
first block, unless that is a used entry with another name. -/
def DotPlace (p : ℕ) : Prop :=
  ∃ j ∈ img.relinked, (img.dinode j).addrs 0 ≠ 0 ∧
    (p = img.firstOff j ∨ p = img.firstOff j + 16) ∧
      ((img.dirent p).inum = 0 ∨ ¬ (img.dirent p).isProper)

/-- An entry that a repair is allowed to change. -/
def MayChange (p : ℕ) : Prop := img.Spare p ∨ img.DotPlace p

instance (p : ℕ) : Decidable (img.Spare p) := inferInstanceAs (Decidable (∃ _, _ ∧ _))

instance (p : ℕ) : Decidable (img.DotPlace p) := inferInstanceAs (Decidable (∃ _ ∈ _, _))

instance (p : ℕ) : Decidable (img.MayChange p) := inferInstanceAs (Decidable (_ ∨ _))

/-- Only what may change differs, every other used entry of every directory is still there, and
without a `lost_found` directory nothing differs. -/
structure Preserves : Prop where
  stSize : img'.stSize = img.stSize
  changed : ∀ a, img'.byte a ≠ img.byte a → ∃ p, img.MayChange p ∧ p ≤ a ∧ a < p + 16
  links : ∀ d, img.IsDir d → ∀ p ∈ img.entryOffs d, (img.dirent p).inum ≠ 0 → ¬ img.DotPlace p →
    img'.IsDir d ∧ p ∈ img'.entryOffs d ∧ img'.dirent p = img.dirent p
  unchanged : (¬ ∃ f, img.HasLostFound f) → img' = img

/-! ### The condition -/

/-- The entry at `p` lies outside the superblock, the inode table, the bitmap and the indirect
blocks of the directories. -/
def Away (p : ℕ) : Prop :=
  (p + 16 ≤ bsize ∨ img.dataStart ≤ p) ∧
    ∀ d, img.IsDir d → img.indirectAddr d ≠ 0 →
      p + 16 ≤ addrOff (img.indirectAddr d) ∨ addrOff (img.indirectAddr d) + bsize ≤ p

instance (p : ℕ) : Decidable (img.Away p) := inferInstanceAs (Decidable (_ ∧ _))

/-- Every write of the run repeats what is there, or falls on an entry that may change. -/
def Fits : Prop :=
  ∀ w ∈ img.writes, w.Holds img.byte ∨
    img.MayChange w.off ∧ img.Away w.off ∧ ∃ f, img.HasLostFound f

instance : Decidable img.Fits := inferInstanceAs (Decidable (∀ _ ∈ _, _))

/-- The writes of the run go to different entries, away from the blocks that say where the entries
are. -/
def Apart : Prop :=
  (∀ w ∈ img.writes, img.Away w.off) ∧
    ∀ v ∈ img.writes, ∀ w ∈ img.writes, v.off = w.off → v = w

instance : Decidable img.Apart := inferInstanceAs (Decidable (_ ∧ _))

/-! ### Places -/

theorem sixteen_dvd_firstOff (j : ℕ) : 16 ∣ img.firstOff j :=
  Nat.dvd_trans (by decide) (bsize_dvd_addrOff _)

theorem sixteen_dvd_of_mem_entryOffs {d p : ℕ} (h : p ∈ img.entryOffs d) : 16 ∣ p := by
  obtain ⟨o, ho, e, -, rfl⟩ := img.mem_entryOffs_iff.1 h
  have := Nat.dvd_trans (by decide : 16 ∣ bsize) (img.bsize_dvd_of_mem_dataOffs ho)
  omega

theorem sixteen_dvd_of_mayChange {p : ℕ} (h : img.MayChange p) : 16 ∣ p := by
  rcases h with ⟨f, -, hp, -⟩ | ⟨j, -, -, hp, -⟩
  · exact img.sixteen_dvd_of_mem_entryOffs hp
  · have := img.sixteen_dvd_firstOff j
    omega

/-- A number of lost inodes has at most ten digits. -/
theorem length_decimal_le {n : ℕ} (h : n < 2 ^ 32) : (decimal n).length ≤ 10 := by
  rw [decimal, List.length_map]
  exact (Nat.length_toDigits_le_iff (by decide) (by decide)).2 (by omega)

theorem length_lost_lt : img.lost.length < 2 ^ 32 := by
  have hle : img.lost.length ≤ (List.range img.sb.ninodes).length := List.length_filter_le _ _
  rw [List.length_range] at hle
  exact Nat.lt_of_le_of_lt hle img.sb_ninodes_lt

/-- A write stays within one entry. -/
theorem write_place {w : Patch UInt8} (hw : w ∈ img.writes) :
    16 ∣ w.off ∧ w.vals.length ≤ 16 := by
  rcases img.mem_writes_iff.1 hw with ⟨j, -, rfl⟩ | ⟨j, -, -, hw⟩
  · have hn := length_decimal_le (n := img.lost.length - img.rank j)
      (by have := img.length_lost_lt; omega)
    have hf := img.sixteen_dvd_firstOff img.lostFound
    refine ⟨?_, ?_⟩
    · show 16 ∣ img.firstOff img.lostFound + 2 * 16 + 16 * img.rank j
      omega
    · simp only [link, direntPatch, le16, List.length_append, List.length_cons, List.length_nil]
      omega
  · have hf := img.sixteen_dvd_firstOff j
    rcases List.mem_cons.1 hw with rfl | hw
    · exact ⟨hf, by simp [direntPatch, le16]⟩
    · rw [List.mem_singleton.1 hw]
      refine ⟨?_, by simp [direntPatch, le16]⟩
      show 16 ∣ img.firstOff j + 16
      omega

/-- Two entries with a common byte are the same entry. -/
theorem place_unique {p q a : ℕ} (hp : 16 ∣ p) (hq : 16 ∣ q) (h₁ : p ≤ a) (h₂ : a < p + 16)
    (h₃ : q ≤ a) (h₄ : a < q + 16) : p = q := by
  omega

/-! ### A fitting run -/

variable {img img'}

/-- A changed byte lies in an entry that a write which does not repeat it falls on. -/
private theorem exists_write_of_ne {a : ℕ} (h : img.patched.byte a ≠ img.byte a) :
    ∃ w ∈ img.writes, ¬ w.Holds img.byte ∧ w.off ≤ a ∧ a < w.off + 16 := by
  obtain ⟨w, hw, hnot, h₁, h₂⟩ := Patch.exists_of_writeAll_ne h
  exact ⟨w, hw, hnot, h₁, by have := (img.write_place hw).2; omega⟩

/-- Writes that keep away from the superblock, the inode table and the bitmap, or repeat what is
there, are quiet. -/
theorem quiet_of_clear (h : ∀ w ∈ img.writes,
    w.Holds img.byte ∨ (w.off + 16 ≤ bsize ∨ img.dataStart ≤ w.off)) : img.Quiet := by
  intro w hw a v hv h₁ h₂
  rcases h w hw with hold | hclear
  · exact Patch.holds_iff.1 hold a v hv
  · have hle := Patch.off_le_of_at? hv
    have hlt := Patch.lt_of_at? hv
    have hlen := (img.write_place hw).2
    omega

theorem quiet_of_away (h : ∀ w ∈ img.writes, w.Holds img.byte ∨ img.Away w.off) : img.Quiet :=
  quiet_of_clear fun w hw ↦ (h w hw).imp_right fun haway ↦ haway.1

private theorem Fits.away (h : img.Fits) {w : Patch UInt8} (hw : w ∈ img.writes) :
    w.Holds img.byte ∨ img.Away w.off :=
  (h w hw).imp_right fun h ↦ h.2.1

/-- A run that keeps away from the indirect blocks leaves the listing of a directory alone. -/
theorem listedWords_eq_of_away (h : ∀ w ∈ img.writes, w.Holds img.byte ∨ img.Away w.off)
    {d : ℕ} (hd : img.IsDir d) : img.patched.listedWords d = img.listedWords d := by
  have hmeta : img.SameMeta img.patched := (quiet_of_away h).sameMeta fun _ hw ↦ hw
  refine hmeta.listedWords_eq hd.1 fun hne a h₁ h₂ ↦ ?_
  by_contra hchange
  obtain ⟨w, hw, hnot, h₃, h₄⟩ := exists_write_of_ne hchange
  have haway := (((h w hw).resolve_left hnot).2 d hd hne)
  omega

/-- And with it the places of the entries. -/
theorem entryOffs_eq_of_away (h : ∀ w ∈ img.writes, w.Holds img.byte ∨ img.Away w.off)
    {d : ℕ} (hd : img.IsDir d) :
    img.patched.directOffs d = img.directOffs d ∧ img.patched.listedOffs d = img.listedOffs d := by
  have hmeta : img.SameMeta img.patched := (quiet_of_away h).sameMeta fun _ hw ↦ hw
  exact ⟨hmeta.directOffs_eq hd.1, by rw [listedOffs, listedOffs, listedWords_eq_of_away h hd]⟩

/-- **A fitting run destroys nothing.** -/
theorem Fits.preserves (h : img.Fits) : img.Preserves img.patched := by
  have hmeta : img.SameMeta img.patched :=
    (quiet_of_away fun _ hw ↦ h.away hw).sameMeta fun _ hw ↦ hw
  refine ⟨rfl, fun a ha ↦ ?_, fun d hd p hp hused hdot ↦ ?_, fun hno ↦ ?_⟩
  · obtain ⟨w, hw, hnot, h₁, h₂⟩ := exists_write_of_ne ha
    exact ⟨w.off, ((h w hw).resolve_left hnot).1, h₁, h₂⟩
  · obtain ⟨hdirect, hlisted⟩ := entryOffs_eq_of_away (fun _ hw ↦ h.away hw) hd
    refine ⟨hmeta.isDir_iff.2 hd, ?_, ?_⟩
    · rwa [entryOffs, dataOffs, hdirect, hlisted]
    · -- a changed byte of this entry would make it one of those that may change
      refine AgreeOn.dirent_eq fun a h₁ h₂ ↦ ?_
      by_contra hchange
      obtain ⟨w, hw, hnot, h₃, h₄⟩ := exists_write_of_ne hchange
      have hsame : w.off = p := place_unique (img.write_place hw).1
        (img.sixteen_dvd_of_mem_entryOffs hp) h₃ h₄ h₁ h₂
      rcases ((h w hw).resolve_left hnot).1 with ⟨f, -, -, hfree⟩ | hdot'
      · exact hused (hsame ▸ hfree)
      · exact hdot (hsame ▸ hdot')
  · have hall : ∀ w ∈ img.writes, w.Holds img.byte := fun w hw ↦
      (h w hw).resolve_right fun hfits ↦ hno hfits.2.2
    rw [patched, written, Patch.writeAll_of_holds hall]

/-! ### A run that destroys nothing -/

/-- What a write leaves behind when no other write falls on its entry. -/
private theorem Apart.byte_eq (h : img.Apart) {w : Patch UInt8} (hw : w ∈ img.writes) {a : ℕ}
    {v : UInt8} (hv : w.at? a = some v) : img.patched.byte a = v := by
  refine Patch.writeAll_of_mem hw hv fun q hq u hu ↦ ?_
  have h₁ := Patch.lt_of_at? hv
  have h₂ := Patch.lt_of_at? hu
  obtain ⟨hw16, hwlen⟩ := img.write_place hw
  obtain ⟨hq16, hqlen⟩ := img.write_place hq
  have hsame : q = w := h.2 q hq w hw (place_unique hq16 hw16 (Patch.off_le_of_at? hu) (by omega)
    (Patch.off_le_of_at? hv) (by omega))
  rw [hsame, hv] at hu
  exact (Option.some.inj hu).symm

/-- **A run that destroys nothing fits**, if its writes are apart. -/
theorem Apart.fits (h : img.Apart) (hp : img.Preserves img.patched) : img.Fits := by
  intro w hw
  by_contra hno
  obtain ⟨hnot, hplace⟩ := not_or.1 hno
  -- some byte of the write changes
  obtain ⟨a, v, hv, hne⟩ : ∃ a v, w.at? a = some v ∧ img.byte a ≠ v := by
    by_contra hall
    refine hnot (Patch.holds_iff.2 fun a v hv ↦ ?_)
    by_contra hne
    exact hall ⟨a, v, hv, hne⟩
  have hchange : img.patched.byte a ≠ img.byte a := by
    rw [h.byte_eq hw hv]
    exact hne.symm
  obtain ⟨p, hmay, h₁, h₂⟩ := hp.changed a hchange
  obtain ⟨h16, hlen⟩ := img.write_place hw
  have hlt := Patch.lt_of_at? hv
  have hsame : p = w.off := place_unique (img.sixteen_dvd_of_mayChange hmay) h16 h₁ h₂
    (Patch.off_le_of_at? hv) (by omega)
  refine hplace ⟨hsame ▸ hmay, h.1 w hw, ?_⟩
  by_contra hlf
  rw [hp.unchanged hlf] at hchange
  exact hchange rfl

/-- **When a repair destroys nothing**: when each of its writes repeats what is there or falls on
an entry that may change; and, its writes being apart, only then. -/
theorem preserves_iff_fits (h : img.repair = .ok img') :
    (img.Fits → img.Preserves img') ∧ (img.Apart → img.Preserves img' → img.Fits) := by
  constructor
  · intro hfits
    have hq : img.Quiet := quiet_of_away fun _ hw ↦ hfits.away hw
    rw [((repair_eq_ok_iff_of_quiet hq).1 h).2.2]
    exact hfits.preserves
  · intro hapart hp
    have hq : img.Quiet := quiet_of_away fun w hw ↦ .inr (hapart.1 w hw)
    rw [((repair_eq_ok_iff_of_quiet hq).1 h).2.2] at hp
    exact hapart.fits hp

/-! ### A fresh and an occupied `lost_found` -/

/-- A root directory with an empty `lost_found` (inode 2), a file (inode 4) and a directory
(inode 5) that nothing names. -/
def freshImage : Image :=
  ofChunks 9
    [sbChunk 9 4 6, inodeChunk 1 1 1 [4], inodeChunk 2 1 1 [5], inodeChunk 4 2 1 [],
      inodeChunk 5 1 1 [6], (3 * bsize, [0x7f]),
      direntChunk 4 0 1 [46], direntChunk 4 1 1 [46, 46], direntChunk 4 2 2 lostFoundName,
      direntChunk 5 0 2 [46], direntChunk 5 1 1 [46, 46],
      direntChunk 6 0 5 [46], direntChunk 6 1 1 [46, 46]]

/-- The same with a file (inode 3) in `lost_found`. -/
def occupiedImage : Image :=
  ofChunks 9
    [sbChunk 9 4 6, inodeChunk 1 1 1 [4], inodeChunk 2 1 1 [5], inodeChunk 3 2 1 [],
      inodeChunk 4 2 1 [], inodeChunk 5 1 1 [6], (3 * bsize, [0x7f]),
      direntChunk 4 0 1 [46], direntChunk 4 1 1 [46, 46], direntChunk 4 2 2 lostFoundName,
      direntChunk 5 0 2 [46], direntChunk 5 1 1 [46, 46], direntChunk 5 2 3 [102],
      direntChunk 6 0 5 [46], direntChunk 6 1 1 [46, 46]]

set_option maxRecDepth 100000 in
/-- The links into the fresh directory destroy nothing. -/
theorem freshImage_preserved :
    ∃ img', freshImage.repair = .ok img' ∧ freshImage.Preserves img' := by
  obtain ⟨img', h, -⟩ := GuardedLoop.exists_eq_ok (x := freshImage.repair) (p := fun _ ↦ true)
    (by decide +kernel)
  exact ⟨img', h, (preserves_iff_fits h).1 (by decide +kernel)⟩

set_option maxRecDepth 100000 in
/-- The first link overwrites the entry of the file: its third entry is not looked at. -/
theorem occupiedImage_not_preserved :
    ¬ ∀ img img' : Image, img.repair = .ok img' → img.Preserves img' := by
  intro hall
  obtain ⟨img', h, hp⟩ := GuardedLoop.exists_eq_ok (x := occupiedImage.repair)
    (p := fun img' ↦ img'.dirent (5 * bsize + 32) ≠ occupiedImage.dirent (5 * bsize + 32))
    (by decide +kernel)
  have hlink := (hall _ _ h).links 2 (by decide +kernel) (5 * bsize + 32) (by decide +kernel)
    (by decide +kernel) (by decide +kernel)
  exact (of_decide_eq_true hp) hlink.2.2

end Image

end Fsck
