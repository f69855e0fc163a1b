import Cs537OS.FileSys.Contents

/-!
# Writing to a file, as seen from the others

A write changes one file: its blocks, its inode, and what of the disk was free. `Frame` says what
stays as it was, `splice` what becomes of the contents.

`writei` writes the inode to the disk only when the file has grown. An indirect block that was
allocated for a data block that could not be had is therefore known to the copy in memory only
(`Agrees`); it has no entries, so the file on the disk is the same.

* `Grows.frame`, `Frame.iupdate` — the frame of the steps of `writei`;
* `writei_spec` — what `writei` does;
* `Agrees.reload` — what is read when the copy is dropped.
-/

namespace FileSys

open LittleEndian

variable {d d' : Disk} {ip ip' : Inode} {e off : ℕ}

/-- What an operation on file `ip` may do to the rest of the disk. -/
structure Frame (d : Disk) (ip : Inode) (d' : Disk) (ip' : Inode) : Prop where
  readsb_eq : readsb d' = readsb d
  /-- The other inodes on the disk are the same. -/
  others : ∀ j < (readsb d).ninodes, j ≠ ip.inum → readInode d' j = readInode d j
  /-- So are the blocks that belong to others. -/
  kept : ∀ c, InUse d c → (∀ k < NSLOT, slot d ip k ≠ c) → InUse d' c ∧ d' c = d c
  /-- The blocks of the file are those it had, and some that were free. -/
  slots : ∀ k < NSLOT, slot d' ip' k ≠ 0 →
    (∃ l < NSLOT, slot d ip l = slot d' ip' k) ∨ marked d (slot d' ip' k) = false

theorem Grows.frame (h : Grows d ip d' ip') : Frame d ip d' ip' := by
  refine ⟨h.readsb_eq, fun j hj _ ↦ ?_, fun c hc hno ↦ ⟨h.inUse hc, h.kept c hc hno⟩,
    fun k hk hne ↦ ?_⟩
  · exact readInode_congr fun o _ ↦ congrFun (h.table _ (IBLOCK_lt hj)) _
  · by_cases hzero : slot d ip k = 0
    · exact .inr (h.new k hk hzero hne).2
    · exact .inl ⟨k, hk, (h.old k hk hzero).symm⟩

section

variable (hi : ip.inum < (readsb d).ninodes)

include hi

/-- The block of an inode is none of the bitmap. -/
theorem marked_iupdate (c : ℕ) : marked (iupdate d ip) c = marked d c :=
  marked_bwrite (Nat.lt_of_succ_le (two_le_IBLOCK ip.inum)).ne'
    (ne_BBLOCK_of_lt (IBLOCK_lt hi) c).symm

theorem inUse_iupdate {c : ℕ} : InUse (iupdate d ip) c ↔ InUse d c := by
  have hsb := readsb_iupdate d ip
  constructor
  · rintro ⟨hle, hlt, hmark⟩
    rw [hsb] at hle hlt
    rw [marked_iupdate hi] at hmark
    exact ⟨hle, hlt, hmark⟩
  · rintro ⟨hle, hlt, hmark⟩
    refine ⟨?_, ?_, ?_⟩
    · rwa [hsb]
    · rwa [hsb]
    · rwa [marked_iupdate hi]

/-- `iupdate` leaves the data blocks alone. -/
theorem iupdate_data {c : ℕ} (hc : (readsb d).dataStart ≤ c) : iupdate d ip c = d c := by
  refine iupdate_of_ne ?_
  have hlt := IBLOCK_lt hi
  have hstart := table_le_dataStart (readsb d)
  omega

theorem Full.iupdate (h : Full d) : Full (FileSys.iupdate d ip) := by
  intro b hb
  rw [readsb_iupdate] at hb
  rw [marked_iupdate hi]
  exact h b hb

theorem Sound.iupdate (h : Sound d) : Sound (FileSys.iupdate d ip) := by
  have hsb := readsb_iupdate d ip
  refine ⟨?_, ?_, ?_, ?_, ?_⟩
  · rw [hsb]
    exact h.dataStart_le
  · rw [hsb]
    exact h.size_lt
  · rw [iupdate_of_ne (Nat.zero_lt_of_lt (two_le_IBLOCK ip.inum)).ne]
    exact h.boot
  · rw [hsb]
    intro c hc
    rw [marked_iupdate hi]
    exact h.metadata c hc
  · rw [hsb]
    intro c hc hfree
    rw [marked_iupdate hi] at hfree
    rw [iupdate_data hi (h.dataStart_le_of_free hfree)]
    exact h.clear c hc hfree

/-- The slots of a file are those of before, also for a copy with other fields. -/
theorem slot_iupdate (ho : Owns d ip') (haddrs : ip.addrs = ip'.addrs) {k : ℕ} (hk : k < NSLOT) :
    slot (FileSys.iupdate d ip) ip k = slot d ip' k := by
  refine slot_congr haddrs (fun hne o _ ↦ ?_) hk
  have hin := ho.inUse NDIRECT (by decide) (by rwa [slot_direct le_rfl])
  rw [slot_direct le_rfl] at hin
  rw [iupdate_data hi hin.dataStart_le]

/-- A file of which only the inode is written. -/
theorem Laid.iupdate (h : Laid d ip' e) (haddrs : ip.addrs = ip'.addrs) :
    Laid (FileSys.iupdate d ip) ip e ∧
      ∀ p < e, byteAt (FileSys.iupdate d ip) ip p = byteAt d ip' p := by
  have hslot : ∀ k < NSLOT, slot (FileSys.iupdate d ip) ip k = slot d ip' k :=
    fun k hk ↦ slot_iupdate hi h.owns haddrs hk
  have hblock : ∀ m < MAXFILE, blockAt (FileSys.iupdate d ip) ip m = blockAt d ip' m :=
    fun m hm ↦ hslot _ (slotOf_lt hm)
  have hbyte : ∀ p < MAXFILE * BSIZE, blockAt d ip' (p / BSIZE) ≠ 0 →
      byteAt (FileSys.iupdate d ip) ip p = byteAt d ip' p := by
    intro p hp hne
    have hlt := div_lt_MAXFILE hp
    rw [byteAt, byteAt, hblock _ hlt, iupdate_data hi (h.inUse hlt hne).dataStart_le]
  refine ⟨⟨h.sound.iupdate hi, ⟨fun k hk hne ↦ ?_, fun k hk l hl hne heq ↦ ?_⟩, h.le,
    fun m hm ↦ ?_, fun p hp hle hne ↦ ?_⟩,
    fun p hp ↦ hbyte p (hp.trans_le h.le) (h.blockAt_ne_zero hp)⟩
  · rw [hslot k hk] at hne ⊢
    exact (inUse_iupdate hi).2 (h.owns.inUse k hk hne)
  · rw [hslot k hk] at hne heq
    rw [hslot l hl] at heq
    exact h.owns.inj k hk l hl hne heq
  · rw [hblock m hm]
    exact h.blockAt_iff m hm
  · rw [hblock _ (div_lt_MAXFILE hp)] at hne
    rw [hbyte p hp hne]
    exact h.tail p hp hle hne

end

/-- `iupdate` after an operation on the file. -/
theorem Frame.iupdate {ip'' : Inode} (h : Frame d ip d' ip') (ho : Owns d' ip')
    (hinum : ip''.inum = ip.inum) (haddrs : ip''.addrs = ip'.addrs)
    (hi : ip.inum < (readsb d).ninodes) : Frame d ip (FileSys.iupdate d' ip'') ip'' := by
  have hi' : ip''.inum < (readsb d').ninodes := by rwa [h.readsb_eq, hinum]
  refine ⟨(readsb_iupdate _ _).trans h.readsb_eq, fun j hj hne ↦ ?_, fun c hc hno ↦ ?_,
    fun k hk hne ↦ ?_⟩
  · rw [readInode_iupdate_of_ne (by rwa [hinum])]
    exact h.others j hj hne
  · obtain ⟨huse, hsame⟩ := h.kept c hc hno
    exact ⟨(inUse_iupdate hi').2 huse, (iupdate_data hi' huse.dataStart_le).trans hsame⟩
  · rw [slot_iupdate hi' ho haddrs hk] at hne ⊢
    exact h.slots k hk hne

/-- The bytes of a file with a part replaced. -/
def splice (old : List UInt8) (off : ℕ) (new : List UInt8) : List UInt8 :=
  old.take off ++ new ++ old.drop (off + new.length)

/-- What becomes of the contents when `k` bytes are replaced. -/
theorem contents_eq_splice {k : ℕ} {src : ℕ → UInt8} (hoff : off ≤ ip.size)
    (hsize : ip'.size = max ip.size (off + k))
    (hbytes : ∀ p < ip'.size, byteAt d' ip' p =
      if off ≤ p ∧ p < off + k then src (p - off) else byteAt d ip p) :
    contents d' ip' = splice (contents d ip) off ((List.range k).map src) := by
  have hlen : ((List.range k).map src).length = k := by rw [List.length_map, List.length_range]
  rw [splice, hlen]
  refine List.ext_getElem ?_ fun i hi hi' ↦ ?_
  · simp only [List.length_append, List.length_take, List.length_drop, length_contents, hlen, hsize]
    omega
  · rw [length_contents] at hi
    rw [getElem_contents, hbytes i hi]
    rw [hsize] at hi
    have htake : ((contents d ip).take off).length = off := by
      rw [List.length_take, length_contents, Nat.min_eq_left hoff]
    have hnew : ((contents d ip).take off ++ (List.range k).map src).length = off + k := by
      rw [List.length_append, htake, hlen]
    rcases Nat.lt_or_ge i (off + k) with hlt | hge
    · rw [List.getElem_append_left (by rwa [hnew])]
      rcases Nat.lt_or_ge i off with hbefore | hfrom
      · rw [if_neg (by omega), List.getElem_append_left (by rwa [htake]), List.getElem_take,
          getElem_contents]
      · rw [if_pos ⟨hfrom, hlt⟩, List.getElem_append_right (by rwa [htake]), List.getElem_map,
          List.getElem_range, htake]
    · rw [if_neg (by omega), List.getElem_append_right (by rwa [hnew]), List.getElem_drop,
        getElem_contents, hnew, Nat.add_sub_cancel' hge]

/-! ### The copy in memory -/

/-- The inode on the disk is that of the copy, except that it may lack an indirect block that has no
entries. -/
def Agrees (d : Disk) (ip : Inode) : Prop :=
  readInode d ip.inum = ip ∨
    ip.size ≤ NDIRECT * BSIZE ∧ readInode d ip.inum = ip.setAddr NDIRECT 0

/-- The data blocks of a file that has not become longer. -/
theorem Laid.addrs_eq (h : Laid d ip e) (h' : Laid d' ip' e) (hg : Grows d ip d' ip') {k : ℕ}
    (hk : k ≠ NDIRECT) : ip'.addrs k = ip.addrs k := by
  rcases Nat.lt_or_ge NDIRECT k with hgt | hle
  · exact hg.beyond k hgt
  · have hlt : k < NDIRECT := lt_of_le_of_ne hle hk
    have hold := hg.old k (hlt.trans (by decide))
    rw [slot_direct hle, slot_direct hle] at hold
    by_cases hzero : ip.addrs k = 0
    · have hmax : k < MAXFILE := hlt.trans (by decide)
      have hiff := (h.blockAt_iff k hmax).trans (h'.blockAt_iff k hmax).symm
      rw [blockAt_direct hlt, blockAt_direct hlt] at hiff
      rw [hzero]
      exact not_not.1 fun hne ↦ hiff.2 hne hzero
    · exact hold hzero

/-- A file without an indirect block is a short one. -/
theorem Laid.le_of_indirect (h : Laid d ip e) (hzero : ip.addrs NDIRECT = 0) :
    e ≤ NDIRECT * BSIZE := by
  refine Nat.le_of_not_lt fun hlt ↦ (h.blockAt_iff NDIRECT (by decide)).2 hlt ?_
  rw [blockAt_entry (lt_irrefl _), entry, if_pos hzero]

/-- What is done to a file without writing its inode. -/
theorem Agrees.grows (ha : Agrees d ip) (h : Laid d ip ip.size) (h' : Laid d' ip' ip.size)
    (hg : Grows d ip d' ip') (hi : ip.inum < (readsb d).ninodes) : Agrees d' ip' := by
  have hsame := hg.same
  have hinum : ip'.inum = ip.inum := by rw [hsame]
  have hsize : ip'.size = ip.size := by rw [hsame]
  have hdisk : readInode d' ip'.inum = readInode d ip.inum := by
    rw [hinum]
    exact readInode_congr fun o _ ↦ congrFun (hg.table _ (IBLOCK_lt hi)) _
  have haddrs : ∀ k, k ≠ NDIRECT → ip'.addrs k = ip.addrs k := fun k hk ↦ h.addrs_eq h' hg hk
  rw [Agrees, hdisk, hsize]
  by_cases hind : ip'.addrs NDIRECT = ip.addrs NDIRECT
  · have heq : ip' = ip := by
      rw [hsame, show ip'.addrs = ip.addrs from funext fun k ↦ ?_]
      rcases eq_or_ne k NDIRECT with rfl | hk
      · exact hind
      · exact haddrs k hk
    rw [heq]
    exact ha
  · -- an indirect block has been added
    have hzero : ip.addrs NDIRECT = 0 := by
      by_contra hne
      have hold := hg.old NDIRECT (by decide) (by rwa [slot_direct le_rfl])
      rw [slot_direct le_rfl, slot_direct le_rfl] at hold
      exact hind hold
    have hread : readInode d ip.inum = ip := by
      rcases ha with heq | ⟨-, heq⟩
      · exact heq
      · rw [heq, setAddr_self hzero]
    have hold : Function.update ip'.addrs NDIRECT 0 = ip.addrs := by
      funext k
      rw [Function.update_apply]
      split_ifs with hk
      · rw [hk, hzero]
      · exact haddrs k hk
    refine .inr ⟨h.le_of_indirect hzero, ?_⟩
    rw [hread, Inode.setAddr, hold, hsame]

/-- **What is read when the copy is dropped** is the same file, with blocks of the same. -/
theorem Agrees.reload (ha : Agrees d ip) (h : Laid d ip ip.size) :
    Laid d (readInode d ip.inum) ip.size ∧
      contents d (readInode d ip.inum) = contents d ip ∧
      ∀ k < NSLOT, slot d (readInode d ip.inum) k ≠ 0 →
        slot d (readInode d ip.inum) k = slot d ip k := by
  rcases ha with heq | ⟨hle, heq⟩
  · rw [heq]
    exact ⟨h, rfl, fun _ _ _ ↦ rfl⟩
  · rw [heq]
    have haddr := addrs_setAddr ip NDIRECT 0
    have hnone : ∀ j, entry d (ip.setAddr NDIRECT 0) j = 0 := fun j ↦ by
      rw [entry, haddr, if_pos rfl, if_pos rfl]
    have hslot : ∀ k < NSLOT, slot d (ip.setAddr NDIRECT 0) k ≠ 0 →
        slot d (ip.setAddr NDIRECT 0) k = slot d ip k := by
      intro k hk hne
      rcases slot_cases hk with hlt | rfl | ⟨j, hj, rfl⟩
      · rw [slot_direct hlt.le, slot_direct hlt.le, haddr, if_neg hlt.ne]
      · rw [slot_direct le_rfl, haddr, if_pos rfl] at hne
        exact absurd rfl hne
      · rw [slot_entry, hnone] at hne
        exact absurd rfl hne
    have hblock : ∀ m < MAXFILE,
        blockAt d (ip.setAddr NDIRECT 0) m = blockAt d ip m := by
      intro m hm
      by_cases hdirect : m < NDIRECT
      · rw [blockAt_direct hdirect, blockAt_direct hdirect, haddr, if_neg hdirect.ne]
      · rw [blockAt_entry hdirect, hnone]
        have hmul := Nat.mul_le_mul_right BSIZE (Nat.le_of_not_lt hdirect)
        exact (not_not.1 fun hne ↦ ((h.blockAt_iff m hm).1 hne).not_ge (hle.trans hmul)).symm
    have hbyte : ∀ p < MAXFILE * BSIZE,
        byteAt d (ip.setAddr NDIRECT 0) p = byteAt d ip p := fun p hp ↦ by
      rw [byteAt, byteAt, hblock _ (div_lt_MAXFILE hp)]
    refine ⟨⟨h.sound, ⟨fun k hk hne ↦ ?_, fun k hk l hl hne hkl ↦ ?_⟩, h.le, fun m hm ↦ ?_,
      fun p hp hle hne ↦ ?_⟩, ?_, hslot⟩
    · have hsame := hslot k hk hne
      rw [hsame] at hne ⊢
      exact h.owns.inUse k hk hne
    · have hk' := hslot k hk hne
      have hl' := hslot l hl (by rwa [← hkl])
      rw [hk'] at hne
      rw [hk', hl'] at hkl
      exact h.owns.inj k hk l hl hne hkl
    · rw [hblock m hm]
      exact h.blockAt_iff m hm
    · rw [hblock _ (div_lt_MAXFILE hp)] at hne
      rw [hbyte p hp]
      exact h.tail p hp hle hne
    · exact List.map_congr_left fun p hp ↦ hbyte p ((List.mem_range.1 hp).trans_le h.le)

/-! ### `writei` -/

/-- What `writei` does when it says that it has written `k` of `n` bytes. -/
structure Wrote (d : Disk) (ip : Inode) (src : ℕ → UInt8) (off n k : ℕ) (d' : Disk) (ip' : Inode) :
    Prop where
  le : k ≤ n
  /-- Fewer bytes are written only at the largest size or on a full disk. -/
  full : k < min n (MAXFILE * BSIZE - off) → Full d'
  /-- What is there already can be replaced. -/
  inside : off + n ≤ ip.size → k = n
  laid : Laid d' ip' ip'.size
  frame : Frame d ip d' ip'
  contents_eq : contents d' ip' = splice (contents d ip) off ((List.range k).map src)
  fits : ip'.Fits
  agrees : Agrees d' ip'
  same : ip' = { ip with size := ip'.size, addrs := ip'.addrs }

/-- The addresses of a file fit. -/
theorem Grows.fits (hg : Grows d ip d' ip') (hf : ip.Fits) (h : Laid d' ip' e) : ip'.Fits := by
  have hsame := hg.same
  refine ⟨?_, ?_, ?_, ?_, ?_, fun k ↦ ?_, fun k hk ↦ (hg.beyond k hk).trans (hf.beyond k hk)⟩
  · rw [hsame]
    exact hf.type
  · rw [hsame]
    exact hf.major
  · rw [hsame]
    exact hf.minor
  · rw [hsame]
    exact hf.nlink
  · rw [hsame]
    exact hf.size
  · by_cases hzero : ip'.addrs k = 0
    · rw [hzero]
      exact Nat.two_pow_pos 32
    · rcases Nat.lt_or_ge NDIRECT k with hgt | hle
      · rw [hg.beyond k hgt]
        exact hf.addrs k
      · have hin := h.owns.inUse k (hle.trans_lt (by decide)) (by rwa [slot_direct hle])
        rw [slot_direct hle] at hin
        exact hin.lt_size.trans h.sound.size_lt

/-- **What `writei` does.** -/
theorem writei_spec (h : Laid d ip ip.size) (hf : ip.Fits) (ha : Agrees d ip)
    (hi : ip.inum < (readsb d).ninodes) (src : ℕ → UInt8) {n : ℕ} (hoff : off ≤ ip.size)
    (hn : off + n < 2 ^ 32) :
    ∃ k ip' d', writei d ip src off n = .ok ((k : ℕ), ip', d') ∧ Wrote d ip src off n k d' ip' := by
  have hmod : (off + n) % 2 ^ 32 = off + n := Nat.mod_eq_of_lt hn
  have hmax := h.le
  rw [writei, hmod, if_neg (by omega)]
  have hmin : (if off + n > MAXFILE * BSIZE then MAXFILE * BSIZE - off else n) =
      min n (MAXFILE * BSIZE - off) := by
    split_ifs <;> omega
  simp only [hmin]
  obtain ⟨k, ip₁, d₁, hloop, hle, hfull, hw⟩ := writeiLoop_spec src
    (min n (MAXFILE * BSIZE - off)) (min n (MAXFILE * BSIZE - off)) 0 (Nat.sub_le _ _)
    (Nat.zero_le _) h hoff (by omega)
  simp only [Nat.zero_add] at hloop hle hfull hw
  -- inside of the file no block is missing, so nothing stops the loop
  have hinside : off + n ≤ ip.size → k = n := fun hin ↦ by
    by_contra hne
    have hend := (hfull (by omega)).2
    omega
  have hfull := fun hk ↦ (hfull hk).1
  rw [hloop]
  have hsame := hw.grows.same
  have hsize : ip₁.size = ip.size := by rw [hsame]
  have hinum : ip₁.inum = ip.inum := by rw [hsame]
  show ∃ k' ip' d', (if k > 0 ∧ off + k > ip₁.size then _ else _) = _ ∧ _
  by_cases hgrown : k > 0 ∧ off + k > ip₁.size
  · rw [if_pos hgrown]
    have hend : max ip.size (off + k) = off + k := by omega
    have hlaid := hw.laid
    have hbytes := hw.bytes
    rw [hend] at hlaid hbytes
    have hi₁ : ({ ip₁ with size := off + k } : Inode).inum < (readsb d₁).ninodes := by
      rw [hw.grows.readsb_eq]
      show ip₁.inum < _
      rwa [hinum]
    have hfits : ({ ip₁ with size := off + k } : Inode).Fits :=
      { hw.grows.fits hf hlaid with size := hlaid.le.trans_lt MAXFILE_mul_lt }
    obtain ⟨hlaid', hbytes'⟩ := hlaid.iupdate hi₁ rfl
    refine ⟨k, _, _, rfl, ?_, fun hk ↦ (hfull hk).iupdate hi₁, hinside, hlaid', ?_, ?_, hfits,
      .inl (readInode_iupdate hfits), ?_⟩
    · omega
    · exact hw.grows.frame.iupdate hlaid.owns hinum rfl hi
    · exact contents_eq_splice hoff hend.symm fun p hp ↦ (hbytes' p hp).trans (hbytes p hp)
    · rw [hsame]
  · rw [if_neg hgrown]
    have hend : max ip.size (off + k) = ip.size := by omega
    have hlaid := hw.laid
    have hbytes := hw.bytes
    rw [hend] at hlaid hbytes
    refine ⟨k, _, _, rfl, ?_, hfull, hinside, ?_, hw.grows.frame, ?_, hw.grows.fits hf hlaid,
      ha.grows h hlaid hw.grows hi, ?_⟩
    · omega
    · rwa [hsize]
    · exact contents_eq_splice hoff (hsize.trans hend.symm) fun p hp ↦ hbytes p (by rwa [← hsize])
    · rw [hsame]

end FileSys
