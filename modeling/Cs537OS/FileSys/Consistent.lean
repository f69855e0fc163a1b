import Cs537OS.FileSys.Trunc

/-!
# All files of a disk

A disk is consistent when every file is laid out on blocks that are marked and that belong to it
alone, and every block that is not marked is zero. The files are seen through the copies that are in
memory, where there are any: `view i` is the inode that counts.

An operation on one file that stays within its `Frame` leaves the others as they are, whatever they
are, and the disk consistent.

* `FileOk.other` — another file;
* `Consistent.update` — all of them;
* `Consistent.reload` — and when a copy is dropped;
* `readi_ok`, `writei_ok`, `FileOk.header`, `ialloc_cases` — the functions on one file.
-/

namespace FileSys

variable {d d' : Disk} {ip ip' jp : Inode} {i j : ℕ} {view : ℕ → Inode}

/-- The inode is allocated. -/
structure Live (d : Disk) (i : ℕ) : Prop where
  pos : 0 < i
  lt : i < (readsb d).ninodes
  type : (readInode d i).type ≠ 0

/-- File `i` with the inode `ip`. -/
structure FileOk (d : Disk) (i : ℕ) (ip : Inode) : Prop where
  inum : ip.inum = i
  fits : ip.Fits
  agrees : Agrees d ip
  laid : Laid d ip ip.size

/-- No block belongs to both. -/
def Apart (d : Disk) (ip jp : Inode) : Prop :=
  ∀ k < NSLOT, ∀ l < NSLOT, slot d ip k ≠ 0 → slot d ip k ≠ slot d jp l

/-- A disk and the inodes of its files. -/
structure Consistent (d : Disk) (view : ℕ → Inode) : Prop where
  sound : Sound d
  file : ∀ i, Live d i → FileOk d i (view i)
  apart : ∀ i j, Live d i → Live d j → i ≠ j → Apart d (view i) (view j)

theorem Apart.symm (h : Apart d ip jp) : Apart d jp ip :=
  fun k hk l hl hne heq ↦ h l hl k hk (by rwa [← heq]) heq.symm

/-- The header of the copy is that of the disk. -/
theorem Agrees.type_eq (h : Agrees d ip) : (readInode d ip.inum).type = ip.type := by
  rcases h with heq | ⟨-, heq⟩ <;> rw [heq]
  rfl

/-- What another operation does to the inode does not matter as long as it stays. -/
theorem Agrees.congr (h : Agrees d ip) (heq : readInode d' ip.inum = readInode d ip.inum) :
    Agrees d' ip := by
  rwa [Agrees, heq, ← Agrees]

/-- **Another file.** -/
theorem FileOk.other (h : FileOk d j jp) (hj : Live d j) (hframe : Frame d ip d' ip')
    (hne : j ≠ ip.inum) (hapart : Apart d jp ip) (hsound : Sound d') :
    FileOk d' j jp ∧ contents d' jp = contents d jp ∧
      ∀ k < NSLOT, slot d' jp k = slot d jp k := by
  have hkept : ∀ k < NSLOT, slot d jp k ≠ 0 →
      InUse d' (slot d jp k) ∧ d' (slot d jp k) = d (slot d jp k) := fun k hk hnz ↦
    hframe.kept _ (h.laid.owns.inUse k hk hnz) fun l hl heq ↦ hapart k hk l hl hnz heq.symm
  have hslot : ∀ k < NSLOT, slot d' jp k = slot d jp k := by
    refine fun k hk ↦ slot_congr rfl (fun hnz o _ ↦ ?_) hk
    have hsame := hkept NDIRECT (by decide)
    rw [slot_direct le_rfl] at hsame
    rw [(hsame hnz).2]
  have hblock : ∀ m < MAXFILE, blockAt d' jp m = blockAt d jp m :=
    fun m hm ↦ hslot _ (slotOf_lt hm)
  have hbyte : ∀ p < MAXFILE * BSIZE, blockAt d jp (p / BSIZE) ≠ 0 →
      byteAt d' jp p = byteAt d jp p := by
    intro p hp hnz
    have hlt := div_lt_MAXFILE hp
    rw [byteAt, byteAt, hblock _ hlt]
    exact congrFun (hkept _ (slotOf_lt hlt) hnz).2 _
  have hlaid := h.laid
  refine ⟨⟨h.inum, h.fits, h.agrees.congr ?_, hsound, ⟨fun k hk hnz ↦ ?_,
    fun k hk l hl hnz heq ↦ ?_⟩, hlaid.le, fun m hm ↦ ?_, fun p hp hle hnz ↦ ?_⟩, ?_, hslot⟩
  · rw [h.inum]
    exact hframe.others j hj.lt hne
  · rw [hslot k hk] at hnz ⊢
    exact (hkept k hk hnz).1
  · rw [hslot k hk] at hnz heq
    rw [hslot l hl] at heq
    exact hlaid.owns.inj k hk l hl hnz heq
  · rw [hblock m hm]
    exact hlaid.blockAt_iff m hm
  · rw [hblock _ (div_lt_MAXFILE hp)] at hnz
    rw [hbyte p hp hnz]
    exact hlaid.tail p hp hle hnz
  · refine List.map_congr_left fun p hp ↦ ?_
    have hp := List.mem_range.1 hp
    exact hbyte p (hp.trans_le hlaid.le) (hlaid.blockAt_ne_zero hp)

/-- Which of the other inodes are allocated. -/
theorem Frame.live_iff (h : Frame d ip d' ip') (hne : j ≠ ip.inum) : Live d' j ↔ Live d j := by
  constructor
  · rintro ⟨hpos, hlt, htype⟩
    rw [h.readsb_eq] at hlt
    rw [h.others j hlt hne] at htype
    exact ⟨hpos, hlt, htype⟩
  · rintro ⟨hpos, hlt, htype⟩
    refine ⟨hpos, ?_, ?_⟩
    · rwa [h.readsb_eq]
    · rwa [h.others j hlt hne]

/-- The blocks of the file that the operation is on are still its own. -/
theorem Frame.apart (h : Frame d ip d' ip') (hj : FileOk d j jp) (hapart : Apart d jp ip)
    (hslot : ∀ k < NSLOT, slot d' jp k = slot d jp k) : Apart d' ip' jp := by
  intro k hk l hl hne heq
  rw [hslot l hl] at heq
  rcases h.slots k hk hne with ⟨m, hm, hold⟩ | hfree
  · exact hapart l hl m hm (by rwa [← heq]) (by rw [hold, heq])
  · have hin := hj.laid.owns.inUse l hl (by rwa [← heq])
    rw [heq, hin.marked] at hfree
    cases hfree

/-- **An operation on one file.** -/
theorem Consistent.update (h : Consistent d view) (hframe : Frame d ip d' ip')
    (hinum : ip.inum = i) (hapart : ∀ j, Live d j → j ≠ i → Apart d (view j) ip)
    (hsound : Sound d') (hnew : Live d' i → FileOk d' i ip') :
    Consistent d' (Function.update view i ip') ∧
      ∀ j, j ≠ i → Live d j → contents d' (view j) = contents d (view j) := by
  have hother : ∀ {j}, Live d j → j ≠ i → _ := fun {j} hj hne ↦
    (h.file j hj).other hj hframe (by rwa [hinum]) (hapart j hj hne) hsound
  have hlive : ∀ {j}, j ≠ i → (Live d' j ↔ Live d j) := fun hne ↦
    hframe.live_iff (by rwa [hinum])
  refine ⟨⟨hsound, fun j hj ↦ ?_, fun j k hj hk hne ↦ ?_⟩, fun j hne hj ↦ (hother hj hne).2.1⟩
  · rcases eq_or_ne j i with rfl | hne
    · rw [Function.update_self]
      exact hnew hj
    · rw [Function.update_of_ne hne]
      exact (hother ((hlive hne).1 hj) hne).1
  · have hmixed : ∀ {k}, Live d' k → k ≠ i → Apart d' ip' (view k) := fun {k} hk hki ↦ by
      have hk := (hlive hki).1 hk
      exact hframe.apart (h.file k hk) (hapart k hk hki) (hother hk hki).2.2
    rcases eq_or_ne j i with rfl | hji
    · rw [Function.update_self, Function.update_of_ne hne.symm]
      exact hmixed hk hne.symm
    · rcases eq_or_ne k i with rfl | hki
      · rw [Function.update_self, Function.update_of_ne hji]
        exact (hmixed hj hji).symm
      · rw [Function.update_of_ne hji, Function.update_of_ne hki]
        have hj' := (hlive hji).1 hj
        have hk' := (hlive hki).1 hk
        intro m hm l hl hnz
        rw [(hother hj' hji).2.2 m hm] at hnz ⊢
        rw [(hother hk' hki).2.2 l hl]
        exact h.apart j k hj' hk' hne m hm l hl hnz

/-- The inode of the disk is as good as the copy. -/
theorem FileOk.reload (h : FileOk d i ip) :
    FileOk d i (readInode d i) ∧ contents d (readInode d i) = contents d ip ∧
      ∀ k < NSLOT, slot d (readInode d i) k ≠ 0 → slot d (readInode d i) k = slot d ip k := by
  obtain ⟨hlaid, hcontents, hslot⟩ := h.agrees.reload h.laid
  have hsize : (readInode d ip.inum).size = ip.size := by
    rcases h.agrees with heq | ⟨-, heq⟩ <;> rw [heq]
    rfl
  rw [← hsize] at hlaid
  rw [h.inum] at hlaid hcontents hslot
  exact ⟨⟨rfl, fits_readInode d i, .inl rfl, hlaid⟩, hcontents, hslot⟩

/-- **A copy is dropped.** -/
theorem Consistent.reload (h : Consistent d view) (i : ℕ) :
    Consistent d (Function.update view i (readInode d i)) := by
  have hslot : ∀ {j}, Live d j → ∀ k < NSLOT,
      slot d (Function.update view i (readInode d i) j) k ≠ 0 →
      slot d (Function.update view i (readInode d i) j) k = slot d (view j) k := by
    intro j hj k hk hne
    rcases eq_or_ne j i with rfl | hji
    · rw [Function.update_self] at hne ⊢
      exact (h.file j hj).reload.2.2 k hk hne
    · rw [Function.update_of_ne hji]
  refine ⟨h.sound, fun j hj ↦ ?_, fun j m hj hm hne k hk l hl hnz heq ↦ ?_⟩
  · rcases eq_or_ne j i with rfl | hji
    · rw [Function.update_self]
      exact (h.file j hj).reload.1
    · rw [Function.update_of_ne hji]
      exact h.file j hj
  · have hk' := hslot hj k hk hnz
    have hl' := hslot hm l hl (by rwa [← heq])
    rw [hk'] at hnz
    exact h.apart j m hj hm hne k hk l hl hnz (by rw [← hk', heq, hl'])

/-! ### The functions on one file -/

theorem add_mod_lt_iff {off n : ℕ} (hoff : off < 2 ^ 32) (hn : n < 2 ^ 32) :
    (off + n) % 2 ^ 32 < off ↔ ¬ off + n < 2 ^ 32 := by
  rcases Nat.lt_or_ge (off + n) (2 ^ 32) with hlt | hge
  · rw [Nat.mod_eq_of_lt hlt]
    omega
  · rw [Nat.mod_eq_sub_mod hge, Nat.mod_eq_of_lt (by omega)]
    omega

/-- The range is one that `readi` and `writei` accept. -/
def Ranged (data : List UInt8) (off n : ℕ) : Prop := off ≤ data.length ∧ off + n < 2 ^ 32

/-- **`readi`** returns the bytes that are there. -/
theorem readi_ok (hok : FileOk d i ip) {off n : ℕ} (hoff : off < 2 ^ 32) (hn : n < 2 ^ 32) :
    ∃ dst, readi d ip off n = .ok (dst, ip, d) ∧
      (Ranged (contents d ip) off n → dst = some (((contents d ip).drop off).take n)) ∧
      (¬ Ranged (contents d ip) off n → dst = none) := by
  by_cases hrange : Ranged (contents d ip) off n
  · obtain ⟨hle, hlt⟩ := hrange
    rw [length_contents] at hle
    exact ⟨_, readi_spec hok.laid hle hlt, fun _ ↦ rfl,
      fun hno ↦ absurd ⟨by rwa [length_contents], hlt⟩ hno⟩
  · refine ⟨none, ?_, fun hyes ↦ absurd hyes hrange, fun _ ↦ rfl⟩
    rw [Ranged, length_contents] at hrange
    rw [readi, if_pos]
    rw [add_mod_lt_iff hoff hn]
    omega

/-- **`writei`** replaces the bytes that it says it has written. -/
theorem writei_ok (hok : FileOk d i ip) (hi : i < (readsb d).ninodes) (src : ℕ → UInt8)
    {off n : ℕ} (hoff : off < 2 ^ 32) (hn : n < 2 ^ 32) :
    ∃ m ip' d', writei d ip src off n = .ok (m, ip', d') ∧
      (Ranged (contents d ip) off n → ∃ c : ℕ, m = c ∧ Wrote d ip src off n c d' ip') ∧
      (¬ Ranged (contents d ip) off n → m = -1 ∧ ip' = ip ∧ d' = d) := by
  by_cases hrange : Ranged (contents d ip) off n
  · have hrange' := hrange
    rw [Ranged, length_contents] at hrange'
    obtain ⟨c, ip', d', hwrite, hwrote⟩ := writei_spec hok.laid hok.fits hok.agrees
      (by rwa [hok.inum]) src hrange'.1 hrange'.2
    exact ⟨c, ip', d', hwrite, fun _ ↦ ⟨c, rfl, hwrote⟩, fun hno ↦ absurd hrange hno⟩
  · refine ⟨-1, ip, d, ?_, fun hyes ↦ absurd hyes hrange, fun _ ↦ ⟨rfl, rfl, rfl⟩⟩
    rw [Ranged, length_contents] at hrange
    rw [writei, if_pos]
    rw [add_mod_lt_iff hoff hn]
    omega

/-- What is written keeps the file in order. -/
theorem Wrote.fileOk {src : ℕ → UInt8} {off n c : ℕ} (h : Wrote d ip src off n c d' ip')
    (hok : FileOk d i ip) : FileOk d' i ip' := by
  have hinum : ip'.inum = ip.inum := by rw [h.same]
  exact ⟨hinum.trans hok.inum, h.fits, h.agrees, h.laid⟩

/-- The header of an inode is changed. -/
theorem FileOk.header (hok : FileOk d i ip) (hi : i < (readsb d).ninodes) {major minor nlink : ℕ}
    (hmajor : major < 2 ^ 16) (hminor : minor < 2 ^ 16) (hnlink : nlink < 2 ^ 16) :
    let ip' := { ip with major := major, minor := minor, nlink := nlink }
    FileOk (iupdate d ip') i ip' ∧ Frame d ip (iupdate d ip') ip' ∧
      contents (iupdate d ip') ip' = contents d ip := by
  intro ip'
  have hfits : ip'.Fits :=
    { hok.fits with
      major := hmajor
      minor := hminor
      nlink := hnlink }
  have hi' : ip.inum < (readsb d).ninodes := by rwa [hok.inum]
  obtain ⟨hlaid, hbytes⟩ :=
    hok.laid.iupdate (show ip'.inum < (readsb d).ninodes from hi') rfl
  refine ⟨⟨hok.inum, hfits, .inl (readInode_iupdate hfits), hlaid⟩,
    (Grows.refl d ip).frame.iupdate hok.laid.owns rfl rfl hi', ?_⟩
  exact List.map_congr_left fun p hp ↦ hbytes p (List.mem_range.1 hp)

/-- What `ialloc` finds. -/
theorem ialloc_cases (d : Disk) (type : ℕ) :
    (∃ i, ialloc d type = .ok (i, iupdate d (.blank i type)) ∧ 0 < i ∧
      i < (readsb d).ninodes ∧ (readInode d i).type = 0) ∨
    ialloc d type = .error "ialloc: no inodes" ∧
      ∀ i, 0 < i → i < (readsb d).ninodes → (readInode d i).type ≠ 0 := by
  rw [ialloc]
  cases hfind : (List.range' 1 ((readsb d).ninodes - 1)).find? _ with
  | some i =>
    have hmem := List.mem_range'_1.1 (List.mem_of_find?_eq_some hfind)
    refine .inl ⟨i, rfl, by omega, by omega, ?_⟩
    exact beq_iff_eq.1 (List.find?_some (p := fun i ↦ (readInode d i).type == 0) hfind)
  | none =>
    refine .inr ⟨rfl, fun i hpos hlt htype ↦ ?_⟩
    refine List.find?_eq_none.1 hfind i (List.mem_range'_1.2 (by omega)) ?_
    rw [htype]
    rfl

end FileSys
