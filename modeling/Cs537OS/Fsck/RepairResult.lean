import Cs537OS.Fsck.RepairFrame

/-!
# When a repair finishes the job

An image is `Repairable` when it is sound but for inodes that nothing names (`Image.Sound`), has a
`lost_found` directory, and room in it for all of them. A repair has `Finished` when every in-use
inode is named afterwards and a second run finds nothing to do.

The links go to fixed places, whatever is there, so room is not what decides. A repair finishes
exactly when the links land where the next count looks and take no other inode's last reference
(`Image.LinksLand`). That this is needed is shown for links that keep away from the superblock, the
inode table and the bitmap, which the loops read while they write; a link into an indirect block
is followed by the second run, out of any image of at most 1.5 GiB (`Image.Finished.away`).

The argument compares the counted places before and after the run: they are the same places, each
of them holds its old entry or one link, and a link carries the number of a lost inode.
-/

namespace Fsck

/-- A name that does not start with a dot is proper. -/
theorem Dirent.isProper_of_head {d : Dirent} {b : UInt8} (h : d.name.head? = some b)
    (hb : b ≠ 46) : d.isProper := by
  have hno : ∀ s, ¬ nameIs d.name (46 :: s) := by
    intro s hs
    have htake : (d.name.take (((46 : UInt8) :: s).length + 1)).head? = some 46 := by
      rw [hs]
      rfl
    rw [List.head?_take, if_neg (Nat.succ_ne_zero _), h] at htake
    exact hb (Option.some.inj htake)
  exact ⟨hno [46], hno []⟩

namespace Image

variable (img : Image)

/-! ### Sound images -/

/-- The offsets of all blocks of inode `i`, the indirect block last. -/
def blockOffs (i : ℕ) : List ℕ :=
  img.dataOffs i ++ if img.indirectAddr i = 0 then [] else [addrOff (img.indirectAddr i)]

/-- A consistent image, whether or not its inodes are named. -/
structure Sound : Prop where
  sbReadable : img.Readable bsize 12
  ninodes_le : img.sb.ninodes ≤ 2 ^ 31
  inodes : ∀ i < img.sb.ninodes, img.Readable (inodeOff i) 64
  root : img.IsDir rootino
  /-- No listed block starts before the image. -/
  listed : ∀ i, img.InUse i → ∀ v ∈ img.listedWords i, 0 ≤ entryOff v
  /-- Blocks lie in the data region and in the image. -/
  blocks : ∀ i, img.InUse i → ∀ o ∈ img.blockOffs i, img.dataStart ≤ o ∧ img.Readable o bsize
  /-- No inode uses a block twice. -/
  nodup : ∀ i, img.InUse i → (img.blockOffs i).Nodup
  /-- No two inodes use the same block. -/
  disjoint : ∀ i, img.InUse i → ∀ j, img.InUse j → i ≠ j → ∀ o ∈ img.blockOffs i,
    o ∉ img.blockOffs j
  /-- Used entries refer to inodes in use. -/
  entries : ∀ d, img.IsDir d → ∀ p ∈ img.entryOffs d, (img.dirent p).inum ≠ 0 →
    img.InUse (img.dirent p).inum
  /-- Every directory starts with `"."` and `".."`. -/
  dots : ∀ d, img.IsDir d → (img.dinode d).addrs 0 ≠ 0 ∧ (img.dirent (img.firstOff d)).isDot ∧
    (img.dirent (img.firstOff d + 16)).isDotDot
  /-- And has no other entries of these names. -/
  proper : ∀ d, img.IsDir d → ∀ p ∈ img.entryOffs d, (img.dirent p).inum ≠ 0 →
    p ≠ img.firstOff d → p ≠ img.firstOff d + 16 → (img.dirent p).isProper

/-- Some entry other than `"."` and `".."` carries the number `i`. -/
def Named (i : ℕ) : Prop :=
  i ≠ 0 ∧ ∃ d, img.IsDir d ∧ ∃ p ∈ img.entryOffs d,
    (img.dirent p).inum = i ∧ (img.dirent p).isProper

instance (i : ℕ) : Decidable (img.Named i) := inferInstanceAs (Decidable (_ ∧ _))

/-- The in-use inodes that nothing names. -/
def unnamed : List ℕ :=
  (List.range img.sb.ninodes).filter fun i ↦
    (img.dinode i).type ≠ 0 ∧ i ≠ rootino ∧ ¬ img.Named i

/-- A sound image whose root has a `lost_found` directory with an unused entry for each inode that
nothing names. -/
structure Repairable : Prop extends img.Sound where
  room : ∃ f, img.HasLostFound f ∧
    img.unnamed.length ≤ ((img.entryOffs f).filter fun p ↦ (img.dirent p).inum = 0).length

/-- A run goes through, names every in-use inode, and leaves nothing to a second run. -/
def Finished : Prop :=
  ∃ img', img.repair = .ok img' ∧
    (∀ i, img'.InUse i → i ≠ rootino → img'.Named i) ∧
    (∃ t, img'.survey = .ok t ∧ (t.findLost img'.sb.ninodes).error = 0) ∧
    img'.repair = .ok img'

/-- The place of the link of the lost inode `j`. -/
def linkPlace (j : ℕ) : ℕ := img.linkOff (img.rank j)

/-- The links land. -/
structure LinksLand : Prop where
  /-- The numbers of the lost inodes can be written into an entry, and mark it as used. -/
  number : ∀ j ∈ img.lost, j ≠ 0 ∧ j < 2 ^ 16
  /-- The links go to places that are counted. -/
  place : ∀ j ∈ img.lost, ∃ d, img.IsDir d ∧ img.linkPlace j ∈ img.countedOffs d
  /-- Every other inode is counted at some place that no link goes to. -/
  kept : ∀ i, img.InUse i → i ≠ rootino → i ∉ img.lost →
    ∃ d, img.IsDir d ∧ ∃ p ∈ img.countedOffs d,
      (img.dirent p).inum = i ∧ ∀ j ∈ img.lost, p ≠ img.linkPlace j

variable {img}

/-- The count goes through a directory whose blocks are readable and whose counted numbers are
those of inodes. -/
theorem dirReadable_of_blocks {d : ℕ} (hb : ∀ o ∈ img.blockOffs d, img.Readable o bsize)
    (hl : ∀ v ∈ img.listedWords d, 0 ≤ entryOff v)
    (hc : ∀ p ∈ img.countedOffs d, (img.dirent p).inum ≠ 0 →
      (img.dirent p).inum < img.sb.ninodes) : img.DirReadable d := by
  refine ⟨fun addr ha ↦ ?_, fun hne ↦ hb _ ?_, fun v hv ↦ ?_⟩
  · have ho : addrOff addr ∈ img.directOffs d := List.mem_map_of_mem ha
    refine ⟨hb _ (List.mem_append_left _ (List.mem_append_left _ ho)), fun p hp ↦ hc p ?_⟩
    exact List.mem_append_left _ (List.mem_flatMap.2 ⟨_, ho, hp⟩)
  · rw [blockOffs, if_neg hne]
    exact List.mem_append_right _ (List.mem_singleton_self _)
  · have ho : (entryOff v).toNat ∈ img.listedOffs d := List.mem_map_of_mem hv
    have hr := hb _ (List.mem_append_left _ (List.mem_append_right _ ho))
    rw [Int.toNat_of_nonneg (hl v hv)] at hr
    refine ⟨hr, fun p hp ↦ hc p ?_⟩
    exact List.mem_append_right _ (List.mem_flatMap.2 ⟨_, ho, hp⟩)

/-! ### Places in a sound image -/

namespace Sound

variable (hs : img.Sound)
include hs

/-- A block in two roles is the block of one inode. -/
theorem inode_unique {i j o : ℕ} (hi : img.InUse i) (hj : img.InUse j) (h : o ∈ img.blockOffs i)
    (h' : o ∈ img.blockOffs j) : i = j := by
  by_contra hne
  exact hs.disjoint i hi j hj hne o h h'

theorem firstOff_mem {d : ℕ} (hd : img.IsDir d) : img.firstOff d ∈ img.directOffs d := by
  refine List.mem_map_of_mem (List.mem_filter.2 ⟨?_, ?_⟩)
  · exact List.mem_map_of_mem (List.mem_range.2 (by decide))
  · simpa using (hs.dots d hd).1

/-- The first two entries of a directory are entries of it. -/
theorem dot_mem_entryOffs {d : ℕ} (hd : img.IsDir d) :
    img.firstOff d ∈ img.entryOffs d ∧ img.firstOff d + 16 ∈ img.entryOffs d := by
  have hf : img.firstOff d ∈ img.dataOffs d := List.mem_append_left _ (hs.firstOff_mem hd)
  exact ⟨img.mem_entryOffs_iff.2 ⟨_, hf, 0, by decide, rfl⟩,
    img.mem_entryOffs_iff.2 ⟨_, hf, 1, by decide, rfl⟩⟩

/-- They are not counted. -/
theorem not_counted_dot {d j e : ℕ} (hd : img.IsDir d) (hj : img.IsDir j) (he : e < 2) :
    img.firstOff j + 16 * e ∉ img.countedOffs d := by
  intro hp
  have hfirst := hs.firstOff_mem hj
  have hal : bsize ∣ img.firstOff j := bsize_dvd_addrOff _
  have hlt : e < dpb := Nat.lt_of_lt_of_le he (by decide)
  rcases img.mem_countedOffs_iff.1 hp with ⟨o, ho, e', h2, he', heq⟩ | ⟨o, ho, e', he', heq⟩
  · have := (add_slot_inj hal (img.bsize_dvd_of_mem_dataOffs (List.mem_append_left _ ho)) hlt he'
      heq).2
    omega
  · obtain ⟨rfl, -⟩ := add_slot_inj hal
      (img.bsize_dvd_of_mem_dataOffs (List.mem_append_right _ ho)) hlt he' heq
    -- one block, both direct and listed
    have hsame : d = j := hs.inode_unique hd.inUse hj.inUse
      (List.mem_append_left _ (List.mem_append_right _ ho))
      (List.mem_append_left _ (List.mem_append_left _ hfirst))
    subst hsame
    have hnodup : (img.dataOffs d).Nodup := (hs.nodup d hd.inUse).of_append_left
    exact List.disjoint_of_nodup_append hnodup hfirst ho

/-- The entries of directories keep away from the blocks that say where the entries are. -/
theorem away_of_mem_entryOffs {d p : ℕ} (hd : img.IsDir d) (hp : p ∈ img.entryOffs d) :
    img.Away p := by
  obtain ⟨o, ho, e, he, rfl⟩ := img.mem_entryOffs_iff.1 hp
  have hmem : o ∈ img.blockOffs d := List.mem_append_left _ ho
  have hstart := (hs.blocks d hd.inUse o hmem).1
  refine ⟨.inr (by omega), fun i hi hne ↦ ?_⟩
  have hindex : addrOff (img.indirectAddr i) ∈ img.blockOffs i := by
    rw [blockOffs, if_neg hne]
    exact List.mem_append_right _ (List.mem_singleton_self _)
  have hne' : o ≠ addrOff (img.indirectAddr i) := by
    rintro rfl
    have hsame : d = i := hs.inode_unique hd.inUse hi.inUse hmem hindex
    subst hsame
    have hnodup := hs.nodup d hd.inUse
    rw [blockOffs, if_neg hne] at hnodup
    exact List.disjoint_of_nodup_append hnodup ho (List.mem_singleton_self _)
  -- two different blocks do not meet
  have h₁ := img.bsize_dvd_of_mem_dataOffs ho
  have h₂ := bsize_dvd_addrOff (img.indirectAddr i)
  have he : e < 32 := he
  unfold bsize at *
  omega

theorem readable_of_mem_entryOffs {d p len : ℕ} (hd : img.IsDir d) (hp : p ∈ img.entryOffs d)
    (hlen : len ≤ 16) : img.Readable p len := by
  obtain ⟨o, ho, e, he, rfl⟩ := img.mem_entryOffs_iff.1 hp
  have hr := img.readable_block_iff.1
    (hs.blocks d hd.inUse o (List.mem_append_left _ ho)).2 e he
  unfold Readable at *
  omega

/-- What the repairer reads in a sound image lies within its bounds. -/
theorem surveyed : img.Surveyed := by
  have hdirs : ∀ d, img.IsDir d → img.DirReadable d := fun d hd ↦
    dirReadable_of_blocks (fun o ho ↦ (hs.blocks d hd.inUse o ho).2) (hs.listed d hd.inUse)
      fun p hp hne ↦ (hs.entries d hd p (img.mem_entryOffs_of_counted hp) hne).1
  exact ⟨hs.sbReadable, hs.ninodes_le, hs.inodes,
    fun _ ↦ (hdirs _ hs.root).exists_lookup, hdirs⟩

/-- The number looked up is that of an inode. -/
theorem lostFound_lt : img.lostFound < img.sb.ninodes := by
  have hroot := hs.root.1
  rw [lostFound, if_pos hroot, lookupValue]
  cases hfind : ((img.dataOffs rootino).map img.firstNamed).find? (· ≠ 0) with
  | none => exact Nat.lt_of_le_of_lt (Nat.zero_le _) hroot
  | some n =>
    have hne : n ≠ 0 := by simpa using List.find?_some hfind
    obtain ⟨o, ho, rfl⟩ := List.mem_map.1 (List.mem_of_find?_eq_some hfind)
    show img.firstNamed o < _
    rw [firstNamed] at hne ⊢
    cases hp : (entriesFrom 0 o).find? fun p ↦ nameIs (img.dirent p).name lostFoundName with
    | none => simp [hp] at hne
    | some p =>
      rw [hp] at hne
      have hmem : p ∈ img.entryOffs rootino :=
        List.mem_flatMap.2 ⟨o, ho, List.mem_of_find?_eq_some hp⟩
      exact (hs.entries _ hs.root p hmem hne).1

/-- A dot entry is written where the directory has one. -/
theorem dots_place {j : ℕ} (hj : img.IsDir j) {w : Patch UInt8} (hw : w ∈ img.dots j) :
    (∃ e < 2, w.off = img.firstOff j + 16 * e) ∧ w.off ∈ img.entryOffs j := by
  rcases List.mem_cons.1 hw with rfl | hw
  · exact ⟨⟨0, by decide, rfl⟩, (hs.dot_mem_entryOffs hj).1⟩
  · rw [List.mem_singleton.1 hw]
    exact ⟨⟨1, by decide, rfl⟩, (hs.dot_mem_entryOffs hj).2⟩

/-- In a sound image only links could come near the blocks that say where the entries are. -/
theorem away_of_links (hl : ∀ j ∈ img.lost, img.Away (img.linkPlace j)) :
    ∀ w ∈ img.writes, img.Away w.off := by
  intro w hw
  rcases img.mem_writes_iff.1 hw with ⟨j, hj, rfl⟩ | ⟨j, -, hd, hw⟩
  · exact hl j hj
  · exact hs.away_of_mem_entryOffs hd (hs.dots_place hd hw).2

/-! ### Counted places after the run -/

/-- No dot entry is written to a counted place. -/
theorem off_ne_of_counted {d p : ℕ} (hd : img.IsDir d) (hp : p ∈ img.countedOffs d) {i : ℕ}
    (hi : img.IsDir i) {w : Patch UInt8} (hw : w ∈ img.dots i) : w.off ≠ p := by
  rintro rfl
  obtain ⟨⟨e, he, hdot⟩, -⟩ := hs.dots_place hi hw
  rw [hdot] at hp
  exact hs.not_counted_dot hd hi he hp

omit hs in
/-- Where no dot entry is written, only links are. -/
theorem exists_link_of_write {p a : ℕ} (h16 : 16 ∣ p)
    (hdot : ∀ i, img.IsDir i → ∀ w ∈ img.dots i, w.off ≠ p) (h₁ : p ≤ a) (h₂ : a < p + 16)
    {w : Patch UInt8} (hw : w ∈ img.writes) {v : UInt8} (hv : w.at? a = some v) :
    ∃ j ∈ img.lost, w = img.link j ∧ p = img.linkPlace j := by
  obtain ⟨hw16, hlen⟩ := img.write_place hw
  have hlt := Patch.lt_of_at? hv
  have hoff : p = w.off := place_unique h16 hw16 h₁ h₂ (Patch.off_le_of_at? hv) (by omega)
  rcases img.mem_writes_iff.1 hw with ⟨j, hj, rfl⟩ | ⟨j, -, hj, hw⟩
  · exact ⟨j, hj, rfl, hoff⟩
  · exact absurd hoff.symm (hdot j hj w hw)

/-- A counted place that no link goes to keeps its entry. -/
theorem dirent_patched_of_ne {d p : ℕ} (hd : img.IsDir d) (hp : p ∈ img.countedOffs d)
    (hne : ∀ j ∈ img.lost, p ≠ img.linkPlace j) : img.patched.dirent p = img.dirent p := by
  refine AgreeOn.dirent_eq fun a h₁ h₂ ↦ Patch.writeAll_of_forall fun w hw v hv ↦ ?_
  obtain ⟨j, hj, -, hplace⟩ := exists_link_of_write
    (img.sixteen_dvd_of_mem_entryOffs (img.mem_entryOffs_of_counted hp))
    (fun i hi w hw ↦ hs.off_ne_of_counted hd hp hi hw) h₁ h₂ hw hv
  exact absurd hplace (hne j hj)

omit hs in
/-- A place that a link but no dot entry goes to holds the bytes of that link. -/
theorem byte_patched_of_link {j a : ℕ} (hj : j ∈ img.lost)
    (hdot : ∀ i, img.IsDir i → ∀ w ∈ img.dots i, w.off ≠ img.linkPlace j) {v : UInt8}
    (hv : (img.link j).at? a = some v) : img.patched.byte a = v := by
  have hmem : img.link j ∈ img.writes := img.mem_writes_iff.2 (.inl ⟨j, hj, rfl⟩)
  have hlt := Patch.lt_of_at? hv
  obtain ⟨h16, hlen⟩ := img.write_place hmem
  refine Patch.writeAll_of_mem hmem hv fun q hq u hu ↦ ?_
  obtain ⟨j', hj', rfl, hplace⟩ := exists_link_of_write h16 hdot (Patch.off_le_of_at? hv)
    (by omega) hq hu
  -- two links at one place have one rank
  have hrank : img.rank j = img.rank j' := by
    have hplace : img.linkOff (img.rank j) = img.linkOff (img.rank j') := hplace
    unfold linkOff at hplace
    omega
  rw [← img.rank_inj hj hj' hrank, hv] at hu
  exact (Option.some.inj hu).symm

omit hs in
/-- The bytes of a link, in place: its number, and a digit. -/
theorem bytes_patched_of_link {j : ℕ} (hj : j ∈ img.lost)
    (hdot : ∀ i, img.IsDir i → ∀ w ∈ img.dots i, w.off ≠ img.linkPlace j) :
    img.patched.u16 (img.linkPlace j) = j % 2 ^ 16 ∧
      48 ≤ (img.patched.byte (img.linkPlace j + 2)).toNat ∧
      (img.patched.byte (img.linkPlace j + 2)).toNat ≤ 57 := by
  have h₀ : img.patched.byte (img.linkPlace j) = UInt8.ofNat j :=
    byte_patched_of_link hj hdot (Patch.at?_add (i := 0) (by simp [link, direntPatch, le16]))
  have h₁ : img.patched.byte (img.linkPlace j + 1) = UInt8.ofNat (j / 256) :=
    byte_patched_of_link hj hdot (Patch.at?_add (i := 1) (by simp [link, direntPatch, le16]))
  obtain ⟨c, cs, hdigits⟩ := List.exists_cons_of_ne_nil
    (Nat.toDigits_ne_nil (n := img.lost.length - img.rank j) (b := 10))
  have h₂ : img.patched.byte (img.linkPlace j + 2) = UInt8.ofNat c.toNat := by
    refine byte_patched_of_link hj hdot (Patch.at?_eq_some_iff.2 ⟨2, ?_, rfl, ?_⟩)
    · simp [link, direntPatch, le16]
    · simp [link, direntPatch, le16, decimal, hdigits]
  have hc : c.isDigit :=
    Nat.isDigit_of_mem_toDigits (by decide) (by decide) (hdigits ▸ List.mem_cons_self)
  have hdigit := Char.isDigit_iff_toNat.1 hc
  have h0 : '0'.toNat = 48 := rfl
  have h9 : '9'.toNat = 57 := rfl
  rw [u16, h₀, h₁, h₂, UInt8.toNat_ofNat', UInt8.toNat_ofNat', UInt8.toNat_ofNat']
  omega

/-- A link is read back with the number of its inode, cut to a `ushort`. -/
theorem inum_patched_of_link {d j : ℕ} (hd : img.IsDir d) (hj : j ∈ img.lost)
    (hp : img.linkPlace j ∈ img.countedOffs d) :
    (img.patched.dirent (img.linkPlace j)).inum = j % 2 ^ 16 :=
  (bytes_patched_of_link hj fun _ hi _ hw ↦ hs.off_ne_of_counted hd hp hi hw).1

/-- A link has a proper name: it starts with a digit. -/
theorem isProper_patched_of_link {d j : ℕ} (hd : img.IsDir d) (hj : j ∈ img.lost)
    (hp : img.linkPlace j ∈ img.countedOffs d) :
    (img.patched.dirent (img.linkPlace j)).isProper := by
  obtain ⟨-, hdigit, -⟩ :=
    bytes_patched_of_link hj fun _ hi _ hw ↦ hs.off_ne_of_counted hd hp hi hw
  refine Dirent.isProper_of_head (b := img.patched.byte (img.linkPlace j + 2)) rfl ?_
  intro h
  rw [h] at hdigit
  exact absurd hdigit (by decide)

end Sound

/-! ### The two runs -/

/-- A link goes where entries of directories are, so it keeps away from the other blocks. -/
theorem LinksLand.away (h : img.LinksLand) (hs : img.Sound) :
    ∀ j ∈ img.lost, img.Away (img.linkPlace j) := by
  intro j hj
  obtain ⟨d, hd, hp⟩ := h.place j hj
  exact hs.away_of_mem_entryOffs hd (img.mem_entryOffs_of_counted hp)

section

variable (hs : img.Sound) (haway : ∀ j ∈ img.lost, img.Away (img.linkPlace j))
include hs haway

theorem Sound.quiet : img.Quiet := quiet_of_away fun w hw ↦ .inr (hs.away_of_links haway w hw)

theorem Sound.sameMeta : img.SameMeta img.patched :=
  (hs.quiet haway).sameMeta fun _ hw ↦ hw

/-- The same places are counted in both runs. -/
theorem Sound.countedOffs_eq {d : ℕ} (hd : img.IsDir d) :
    img.patched.countedOffs d = img.countedOffs d := by
  obtain ⟨h₁, h₂⟩ := entryOffs_eq_of_away (fun w hw ↦ .inr (hs.away_of_links haway w hw)) hd
  rw [countedOffs, countedOffs, h₁, h₂]

/-- **What the second run counts**: the links, and the entries that no link goes to. -/
theorem Sound.counted_patched_iff {i : ℕ} :
    img.patched.Counted i ↔ i ≠ 0 ∧ ∃ d, img.IsDir d ∧ ∃ p ∈ img.countedOffs d,
      ((img.dirent p).inum = i ∧ ∀ j ∈ img.lost, p ≠ img.linkPlace j) ∨
        ∃ j ∈ img.lost, p = img.linkPlace j ∧ j % 2 ^ 16 = i := by
  refine and_congr_right fun _ ↦ exists_congr fun d ↦ ?_
  rw [(hs.sameMeta haway).isDir_iff]
  refine and_congr_right fun hd ↦ ?_
  rw [hs.countedOffs_eq haway hd]
  refine exists_congr fun p ↦ and_congr_right fun hp ↦ ?_
  by_cases hlink : ∃ j ∈ img.lost, p = img.linkPlace j
  · obtain ⟨j, hj, rfl⟩ := hlink
    rw [hs.inum_patched_of_link hd hj hp]
    constructor
    · exact fun h ↦ .inr ⟨j, hj, rfl, h⟩
    · rintro (⟨-, hno⟩ | ⟨j', hj', hplace, h⟩)
      · exact absurd rfl (hno j hj)
      · have hrank : img.rank j = img.rank j' := by
          unfold linkPlace linkOff at hplace
          omega
        rwa [img.rank_inj hj hj' hrank]
  · have hno : ∀ j ∈ img.lost, p ≠ img.linkPlace j := fun j hj h ↦ hlink ⟨j, hj, h⟩
    rw [hs.dirent_patched_of_ne hd hp hno]
    constructor
    · exact fun h ↦ .inl ⟨h, hno⟩
    · rintro (⟨h, -⟩ | ⟨j, hj, hplace, -⟩)
      · exact h
      · exact absurd hplace (hno j hj)

/-- The second run goes through the count as well. -/
theorem Sound.surveyed_patched : img.patched.Surveyed := by
  have hmeta := hs.sameMeta haway
  have hdirs : ∀ d, img.patched.IsDir d → img.patched.DirReadable d := by
    intro d hd'
    have hd : img.IsDir d := hmeta.isDir_iff.1 hd'
    have hlisted : img.patched.listedWords d = img.listedWords d :=
      listedWords_eq_of_away (fun w hw ↦ .inr (hs.away_of_links haway w hw)) hd
    refine dirReadable_of_blocks (fun o ho ↦ ?_) (fun v hv ↦ ?_) (fun p hp hne ↦ ?_)
    · rw [blockOffs, dataOffs, listedOffs, hlisted, hmeta.directOffs_eq hd.1,
        hmeta.indirectAddr_eq hd.1] at ho
      exact hmeta.readable_iff.2 (hs.blocks d hd.inUse o ho).2
    · exact hs.listed d hd.inUse v (hlisted ▸ hv)
    · rw [hmeta.sb_eq]
      rw [hs.countedOffs_eq haway hd] at hp
      by_cases hlink : ∃ j ∈ img.lost, p = img.linkPlace j
      · obtain ⟨j, hj, rfl⟩ := hlink
        rw [hs.inum_patched_of_link hd hj hp]
        exact Nat.lt_of_le_of_lt (Nat.mod_le _ _) (img.mem_lost_iff.1 hj).1.1
      · have hsame := hs.dirent_patched_of_ne hd hp fun j hj h ↦ hlink ⟨j, hj, h⟩
        rw [hsame] at hne ⊢
        exact (hs.entries d hd p (img.mem_entryOffs_of_counted hp) hne).1
  exact ⟨hmeta.readable_iff.2 hs.sbReadable, hmeta.sb_eq ▸ hs.ninodes_le,
    fun i hi ↦ hmeta.readable_iff.2 (hs.inodes i (hmeta.sb_eq ▸ hi)),
    fun _ ↦ (hdirs _ (hmeta.isDir_iff.2 hs.root)).exists_lookup, hdirs⟩

end

/-- Links that land are written, and what they name is named. -/
theorem LinksLand.repair_eq (h : img.LinksLand) (hs : img.Sound) :
    img.repair = .ok img.patched := by
  refine (repair_eq_ok_iff_of_quiet (hs.quiet (h.away hs))).2 ⟨hs.surveyed, fun _ ↦ ⟨?_, ?_⟩, rfl⟩
  · have hr := hs.inodes _ hs.lostFound_lt
    unfold Readable at *
    omega
  · intro w hw
    have hlen := (img.write_place hw).2
    rcases img.mem_writes_iff.1 hw with ⟨j, hj, rfl⟩ | ⟨j, -, hd, hw⟩
    · obtain ⟨d, hd, hp⟩ := h.place j hj
      exact hs.readable_of_mem_entryOffs hd (img.mem_entryOffs_of_counted hp) hlen
    · exact hs.readable_of_mem_entryOffs hd (hs.dots_place hd hw).2 hlen

/-- After the run no inode is lost. -/
theorem LinksLand.lost_patched (h : img.LinksLand) (hs : img.Sound) : img.patched.lost = [] := by
  refine List.eq_nil_iff_forall_not_mem.2 fun i hi ↦ ?_
  obtain ⟨huse, hroot, hno⟩ := img.patched.mem_lost_iff.1 hi
  rw [(hs.sameMeta (h.away hs)).inUse_iff] at huse
  refine hno ((hs.counted_patched_iff (h.away hs)).2 ?_)
  by_cases hlost : i ∈ img.lost
  · obtain ⟨d, hd, hp⟩ := h.place i hlost
    obtain ⟨h₀, hlt⟩ := h.number i hlost
    exact ⟨h₀, d, hd, _, hp, .inr ⟨i, hlost, rfl, Nat.mod_eq_of_lt hlt⟩⟩
  · obtain ⟨d, hd, p, hp, hinum, hne⟩ := h.kept i huse hroot hlost
    have hcounted : img.Counted i := by
      by_contra hnot
      exact hlost (img.mem_lost_iff.2 ⟨huse, hroot, hnot⟩)
    exact ⟨hcounted.1, d, hd, p, hp, .inl ⟨hinum, hne⟩⟩

/-- A counted entry of a sound image has a proper name. -/
theorem Sound.isProper_of_counted (hs : img.Sound) {d p : ℕ} (hd : img.IsDir d)
    (hp : p ∈ img.countedOffs d) (hne : (img.dirent p).inum ≠ 0) : (img.dirent p).isProper := by
  refine hs.proper d hd p (img.mem_entryOffs_of_counted hp) hne ?_ ?_
  · rintro rfl
    exact hs.not_counted_dot hd hd (e := 0) (by decide) hp
  · rintro rfl
    exact hs.not_counted_dot hd hd (e := 1) (by decide) hp

/-- After the run every in-use inode is named. -/
theorem LinksLand.named_patched (h : img.LinksLand) (hs : img.Sound) {i : ℕ} (hi : img.InUse i)
    (hroot : i ≠ rootino) : img.patched.Named i := by
  have haway := h.away hs
  have hcounted : img.patched.Counted i := by
    by_contra hno
    have hmem : i ∈ img.patched.lost :=
      img.patched.mem_lost_iff.2 ⟨(hs.sameMeta haway).inUse_iff.2 hi, hroot, hno⟩
    rw [h.lost_patched hs] at hmem
    exact List.not_mem_nil hmem
  obtain ⟨h₀, d, hd, p, hp, hplace⟩ := (hs.counted_patched_iff haway).1 hcounted
  refine ⟨h₀, d, (hs.sameMeta haway).isDir_iff.2 hd, p, ?_, ?_⟩
  · refine img.patched.mem_entryOffs_of_counted ?_
    rwa [hs.countedOffs_eq haway hd]
  · rcases hplace with ⟨hinum, hno⟩ | ⟨j, hj, rfl, hinum⟩
    · rw [hs.dirent_patched_of_ne hd hp hno]
      exact ⟨hinum, hs.isProper_of_counted hd hp (hinum ▸ h₀)⟩
    · exact ⟨(hs.inum_patched_of_link hd hj hp).trans hinum,
        hs.isProper_patched_of_link hd hj hp⟩

/-- **Links that land finish the job.** -/
theorem LinksLand.finished (h : img.LinksLand) (hs : img.Sound) : img.Finished := by
  have haway := h.away hs
  have hsurvey := hs.surveyed_patched haway
  refine ⟨img.patched, h.repair_eq hs, fun i hi hroot ↦ ?_, ⟨img.patched.tables, ?_, ?_⟩, ?_⟩
  · exact h.named_patched hs ((hs.sameMeta haway).inUse_iff.1 hi) hroot
  · exact img.patched.survey_eq_ok_iff.2 ⟨hsurvey, rfl⟩
  · show img.patched.lostTable.error = 0
    rw [lostTable_error, h.lost_patched hs]
    rfl
  · exact img.patched.repair_eq_ok_iff.2 ⟨hsurvey, by rw [if_pos (h.lost_patched hs)]⟩

/-- **A job that is finished shows that the links landed.** -/
theorem Finished.linksLand (h : img.Finished) (hs : img.Sound)
    (haway : ∀ j ∈ img.lost, img.Away (img.linkPlace j)) : img.LinksLand := by
  obtain ⟨img', hrun, -, ⟨t, hsurvey, herror⟩, -⟩ := h
  obtain rfl : img' = img.patched :=
    ((repair_eq_ok_iff_of_quiet (hs.quiet haway)).1 hrun).2.2
  obtain ⟨-, rfl⟩ := img.patched.survey_eq_ok_iff.1 hsurvey
  -- the second run counts every in-use inode
  have hcounted : ∀ i, img.InUse i → i ≠ rootino → img.patched.Counted i := by
    intro i hi hroot
    by_contra hno
    have hmem : i ∈ img.patched.lost :=
      img.patched.mem_lost_iff.2 ⟨(hs.sameMeta haway).inUse_iff.2 hi, hroot, hno⟩
    have hlen : img.patched.lost.length = 0 := by rw [← img.patched.lostTable_error]; exact herror
    rw [List.length_eq_zero_iff.1 hlen] at hmem
    exact List.not_mem_nil hmem
  have hlost : ∀ j ∈ img.lost, j ≠ 0 ∧ j < 2 ^ 16 := by
    intro j hj
    obtain ⟨huse, hroot, -⟩ := img.mem_lost_iff.1 hj
    obtain ⟨h₀, d, -, p, -, hinum⟩ := hcounted j huse hroot
    exact ⟨h₀, hinum ▸ img.patched.u16_lt p⟩
  refine ⟨hlost, fun j hj ↦ ?_, fun i hi hroot hnot ↦ ?_⟩
  · obtain ⟨huse, hroot, hno⟩ := img.mem_lost_iff.1 hj
    obtain ⟨h₀, d, hd, p, hp, ⟨hinum, -⟩ | ⟨j', hj', rfl, hinum⟩⟩ :=
      (hs.counted_patched_iff haway).1 (hcounted j huse hroot)
    · exact absurd ⟨h₀, d, hd, p, hp, hinum⟩ hno
    · rw [Nat.mod_eq_of_lt (hlost j' hj').2] at hinum
      exact ⟨d, hd, hinum ▸ hp⟩
  · obtain ⟨-, d, hd, p, hp, ⟨hinum, hne⟩ | ⟨j, hj, rfl, hinum⟩⟩ :=
      (hs.counted_patched_iff haway).1 (hcounted i hi hroot)
    · exact ⟨d, hd, p, hp, hinum, hne⟩
    · rw [Nat.mod_eq_of_lt (hlost j hj).2] at hinum
      exact absurd (hinum ▸ hj) hnot

/-- A digit in the third byte of an `int` block address puts the block past 1.5 GiB. -/
theorem le_entryOff_word {off : ℕ} (h₁ : 48 ≤ (img.byte (off + 2)).toNat)
    (h₂ : (img.byte (off + 2)).toNat ≤ 57) :
    img.word off ≠ 0 ∧ 3 * 2 ^ 29 ≤ entryOff (img.word off) := by
  have hlow := img.u16_lt off
  have hhigh := (img.byte (off + 2 + 1)).toNat_lt
  rw [word, u32, show img.u16 (off + 2) = _ from rfl]
  unfold u16 at hlow ⊢
  unfold entryOff int32 bsize
  omega

/-- A finished run on an image of at most 1.5 GiB has written no link into a block that says where
entries are: the second run would have followed it out of the image. -/
theorem Finished.away (h : img.Finished) (hs : img.Sound) (hsize : img.stSize ≤ 3 * 2 ^ 29)
    (hclear : ∀ j ∈ img.lost, img.linkPlace j + 16 ≤ bsize ∨ img.dataStart ≤ img.linkPlace j) :
    ∀ j ∈ img.lost, img.Away (img.linkPlace j) := by
  have hq : img.Quiet := by
    refine quiet_of_clear fun w hw ↦ .inr ?_
    rcases img.mem_writes_iff.1 hw with ⟨j, hj, rfl⟩ | ⟨j, -, hd, hw⟩
    · exact hclear j hj
    · exact (hs.away_of_mem_entryOffs hd (hs.dots_place hd hw).2).1
  have hmeta : img.SameMeta img.patched := hq.sameMeta fun _ hw ↦ hw
  obtain ⟨img', hrun, -, ⟨t, hsurvey, -⟩, -⟩ := h
  obtain rfl : img' = img.patched := ((repair_eq_ok_iff_of_quiet hq).1 hrun).2.2
  have hread := (img.patched.survey_eq_ok_iff.1 hsurvey).1
  intro j hj
  refine ⟨hclear j hj, fun d hd hne ↦ ?_⟩
  by_contra hmeet
  -- the link falls on a word of the indirect block, and no dot entry does
  have h16 : 16 ∣ img.linkPlace j :=
    (img.write_place (img.mem_writes_iff.2 (.inl ⟨j, hj, rfl⟩))).1
  have hI := bsize_dvd_addrOff (img.indirectAddr d)
  have hdot : ∀ i, img.IsDir i → ∀ w ∈ img.dots i, w.off ≠ img.linkPlace j := by
    intro i hi w hw heq
    exact hmeet (heq ▸ (hs.away_of_mem_entryOffs hi (hs.dots_place hi hw).2).2 d hd hne)
  obtain ⟨-, hlow, hhigh⟩ := Sound.bytes_patched_of_link hj hdot
  obtain ⟨hword, hfar⟩ := le_entryOff_word hlow hhigh
  obtain ⟨m, hm, hplace⟩ : ∃ m < nindirect, img.linkPlace j = img.patched.entryAt d m := by
    refine ⟨(img.linkPlace j - addrOff (img.indirectAddr d)) / 4, ?_, ?_⟩
    · unfold nindirect bsize at *
      omega
    · show _ = addrOff (img.patched.indirectAddr d) + _
      rw [hmeta.indirectAddr_eq hd.1]
      unfold bsize at *
      omega
  have hmem : img.patched.word (img.linkPlace j) ∈ img.patched.listedWords d := by
    have hne' : img.patched.indirectAddr d ≠ 0 := fun h ↦
      hne ((hmeta.indirectAddr_eq hd.1).symm.trans h)
    rw [hplace] at hword ⊢
    rw [listedWords, if_neg hne']
    refine List.mem_filter.2 ⟨List.mem_map.2 ⟨m, List.mem_range.2 hm, rfl⟩, ?_⟩
    exact decide_eq_true hword
  have hblock := ((hread.dirs d (hmeta.isDir_iff.2 hd)).listed _ hmem).1
  have hst : img.patched.stSize = img.stSize := rfl
  rw [Readable, bsize] at hblock
  omega

/-- **When a repair finishes the job**: when its links land; and, on an image of at most 1.5 GiB
and with links that keep away from the superblock, the inode table and the bitmap, only then. -/
theorem finished_iff_linksLand (h : img.Repairable) :
    (img.LinksLand → img.Finished) ∧
      (img.stSize ≤ 3 * 2 ^ 29 →
        (∀ j ∈ img.lost, img.linkPlace j + 16 ≤ bsize ∨ img.dataStart ≤ img.linkPlace j) →
        img.Finished → img.LinksLand) :=
  ⟨fun hl ↦ hl.finished h.toSound, fun hsize hclear hf ↦
    hf.linksLand h.toSound (hf.away h.toSound hsize hclear)⟩

/-! ### The two images of the frame theorem -/

set_option maxRecDepth 100000 in
theorem freshImage_repairable : freshImage.Repairable :=
  ⟨⟨by decide +kernel, by decide +kernel, by decide +kernel, by decide +kernel, by decide +kernel,
    by decide +kernel, by decide +kernel, by decide +kernel, by decide +kernel, by decide +kernel,
    by decide +kernel⟩, by decide +kernel⟩

set_option maxRecDepth 100000 in
/-- The fresh image is repairable, and its repair finishes the job. -/
theorem freshImage_finished : freshImage.Repairable ∧ freshImage.Finished :=
  ⟨freshImage_repairable, (finished_iff_linksLand freshImage_repairable).1
    ⟨by decide +kernel, by decide +kernel, by decide +kernel⟩⟩

set_option maxRecDepth 100000 in
theorem occupiedImage_repairable : occupiedImage.Repairable :=
  ⟨⟨by decide +kernel, by decide +kernel, by decide +kernel, by decide +kernel, by decide +kernel,
    by decide +kernel, by decide +kernel, by decide +kernel, by decide +kernel, by decide +kernel,
    by decide +kernel⟩, by decide +kernel⟩

set_option maxRecDepth 100000 in
/-- With a file in `lost_found` the first run takes its entry, and the second finds it lost. -/
theorem occupiedImage_not_finished : ¬ ∀ img : Image, img.Repairable → img.Finished := by
  intro hall
  obtain ⟨img', hrun, -, ⟨t, hsurvey, herror⟩, -⟩ := hall _ occupiedImage_repairable
  obtain ⟨img₁, hrun₁, hlost⟩ := GuardedLoop.exists_eq_ok (x := occupiedImage.repair)
    (p := fun img₁ ↦ img₁.lost.length ≠ 0) (by decide +kernel)
  obtain rfl : img' = img₁ := Except.ok.inj (hrun.symm.trans hrun₁)
  obtain ⟨-, rfl⟩ := img'.survey_eq_ok_iff.1 hsurvey
  exact (of_decide_eq_true hlost) (img'.lostTable_error.symm.trans herror)

end Image

end Fsck
