import Cs537OS.FileSys.Inode

/-!
# The blocks of a file

A file has up to `MAXFILE` blocks and an indirect block; `slot` numbers them all, the indirect block
as number `NDIRECT`. The blocks of a file are marked, no two slots have the same block (`Owns`), and
the blocks that are not marked are zero (`Sound`), which is what makes a freshly allocated indirect
block an empty one.

`Grows` says what happens to a file and to the rest of the disk when blocks are added to it: its
slots are filled with blocks that were free, and of the other blocks that were in use none changes.
It is transitive, so what `bmap` does is put together from single steps.

* `Allocated.fill`, `Allocated.addr` and `Allocated.entry` — the steps, which `Grows.trans` puts
  together;
* `bmap_old` and `bmap_new` — what `bmap` does for a block that is there and for the next one.
-/

namespace FileSys

open LittleEndian

/-- Entry `j` of the indirect block, if there is one. -/
def entry (d : Disk) (ip : Inode) (j : ℕ) : ℕ :=
  if ip.addrs NDIRECT = 0 then 0 else value (d (ip.addrs NDIRECT)) (4 * j) 4

/-- The blocks that belong to a file, the indirect block among them. -/
def slot (d : Disk) (ip : Inode) (k : ℕ) : ℕ :=
  if k ≤ NDIRECT then ip.addrs k else entry d ip (k - (NDIRECT + 1))

/-- The slot of the nth block. -/
def slotOf (bn : ℕ) : ℕ := if bn < NDIRECT then bn else bn + 1

/-- The nth block of a file, or 0. -/
def blockAt (d : Disk) (ip : Inode) (bn : ℕ) : ℕ := slot d ip (slotOf bn)

/-- The number of slots. -/
def NSLOT : ℕ := MAXFILE + 1

/-- The disk apart from its files. -/
structure Sound (d : Disk) : Prop where
  dataStart_le : (readsb d).dataStart ≤ (readsb d).size
  size_lt : (readsb d).size < 2 ^ 32
  /-- Block 0 is unused. -/
  boot : ∀ o < BSIZE, d 0 o = 0
  metadata : ∀ b < (readsb d).dataStart, marked d b = true
  clear : ∀ b, b < (readsb d).size → marked d b = false → ∀ o < BSIZE, d b o = 0

/-- The block is a data block in use. -/
structure InUse (d : Disk) (b : ℕ) : Prop where
  dataStart_le : (readsb d).dataStart ≤ b
  lt_size : b < (readsb d).size
  marked : marked d b = true

/-- The blocks of a file are in use, each in one slot. -/
structure Owns (d : Disk) (ip : Inode) : Prop where
  inUse : ∀ k < NSLOT, slot d ip k ≠ 0 → InUse d (slot d ip k)
  inj : ∀ k < NSLOT, ∀ l < NSLOT, slot d ip k ≠ 0 → slot d ip k = slot d ip l → k = l

/-- Blocks have been added to a file. -/
structure Grows (d : Disk) (ip : Inode) (d' : Disk) (ip' : Inode) : Prop where
  readsb_eq : readsb d' = readsb d
  /-- The inodes on the disk are the same. -/
  table : ∀ c < (readsb d).ninodes / IPB + 3, d' c = d c
  marks : ∀ c < (readsb d).size, marked d c = true → marked d' c = true
  /-- The blocks that are in use elsewhere are the same. -/
  kept : ∀ c, InUse d c → (∀ k < NSLOT, slot d ip k ≠ c) → d' c = d c
  old : ∀ k < NSLOT, slot d ip k ≠ 0 → slot d' ip' k = slot d ip k
  new : ∀ k < NSLOT, slot d ip k = 0 → slot d' ip' k ≠ 0 →
    slot d' ip' k < (readsb d).size ∧ marked d (slot d' ip' k) = false
  same : ip' = { ip with addrs := ip'.addrs }
  beyond : ∀ k, NDIRECT < k → ip'.addrs k = ip.addrs k

variable {d d' d'' : Disk} {ip ip' ip'' : Inode} {b c k bn : ℕ}

theorem NDIRECT_eq : NDIRECT = 12 := rfl

theorem NINDIRECT_eq : NINDIRECT = 128 := rfl

theorem NSLOT_eq : NSLOT = 141 := rfl

theorem BSIZE_eq : BSIZE = 512 := rfl

theorem slotOf_lt (h : bn < MAXFILE) : slotOf bn < NSLOT := by
  rw [slotOf, NSLOT]
  split_ifs <;> omega

theorem slotOf_ne (bn : ℕ) : slotOf bn ≠ NDIRECT := by
  rw [slotOf]
  split_ifs <;> omega

theorem slotOf_inj {m n : ℕ} (h : slotOf m = slotOf n) : m = n := by
  rw [slotOf, slotOf] at h
  split_ifs at h <;> omega

theorem slot_direct (h : k ≤ NDIRECT) : slot d ip k = ip.addrs k := if_pos h

theorem slot_entry (j : ℕ) : slot d ip (NDIRECT + 1 + j) = entry d ip j := by
  rw [slot, if_neg (by omega), Nat.add_sub_cancel_left]

/-- A slot is a direct one, the indirect block or an entry of it. -/
theorem slot_cases (hk : k < NSLOT) :
    k < NDIRECT ∨ k = NDIRECT ∨ ∃ j < NINDIRECT, k = NDIRECT + 1 + j := by
  rcases lt_trichotomy k NDIRECT with hlt | heq | hgt
  · exact .inl hlt
  · exact .inr (.inl heq)
  · obtain ⟨j, rfl⟩ := Nat.exists_eq_add_of_le (show NDIRECT + 1 ≤ k from hgt)
    refine .inr (.inr ⟨j, ?_, rfl⟩)
    rw [NSLOT, MAXFILE] at hk
    omega

theorem entry_ne_zero {j : ℕ} (h : entry d ip j ≠ 0) : ip.addrs NDIRECT ≠ 0 := by
  rw [entry] at h
  split_ifs at h with hzero
  · exact absurd rfl h
  · exact hzero

/-- Slots are read from the copy and from the indirect block. -/
theorem slot_congr (haddrs : ip'.addrs = ip.addrs)
    (hblock : ip.addrs NDIRECT ≠ 0 → ∀ o < BSIZE, d' (ip.addrs NDIRECT) o = d (ip.addrs NDIRECT) o)
    (hk : k < NSLOT) : slot d' ip' k = slot d ip k := by
  rcases slot_cases hk with hlt | rfl | ⟨j, hj, rfl⟩
  · rw [slot_direct hlt.le, slot_direct hlt.le, haddrs]
  · rw [slot_direct le_rfl, slot_direct le_rfl, haddrs]
  · rw [slot_entry, slot_entry, entry, entry, haddrs]
    split_ifs with hzero
    · rfl
    · refine value_congr fun i hi ↦ hblock hzero _ ?_
      rw [BSIZE_eq]
      rw [NINDIRECT_eq] at hj
      omega

/-! ### The disk -/

theorem InUse.ne_zero (h : InUse d b) : b ≠ 0 := by
  have hle := h.dataStart_le
  have hpos := four_le_dataStart (readsb d)
  omega

theorem InUse.ne_one (h : InUse d b) : b ≠ 1 := by
  have hle := h.dataStart_le
  have hpos := four_le_dataStart (readsb d)
  omega

/-- A data block is none of the bitmap. -/
theorem InUse.ne_BBLOCK (h : InUse d b) (hc : c ≤ (readsb d).size) :
    b ≠ BBLOCK c (readsb d).ninodes := by
  have hlt := BBLOCK_lt_dataStart hc
  have hle := h.dataStart_le
  omega

/-- The blocks before the bitmap are none of it. -/
theorem ne_BBLOCK_of_lt (h : c < (readsb d).ninodes / IPB + 3) (b : ℕ) :
    c ≠ BBLOCK b (readsb d).ninodes := by
  have hle : (readsb d).ninodes / IPB + 3 ≤ BBLOCK b (readsb d).ninodes := by
    rw [BBLOCK, Nat.add_assoc]
    exact Nat.le_add_left ..
  exact (h.trans_le hle).ne

/-- An unmarked block is a data block. -/
theorem Sound.dataStart_le_of_free (h : Sound d) (hb : marked d b = false) :
    (readsb d).dataStart ≤ b := by
  by_contra hlt
  rw [h.metadata b (Nat.lt_of_not_le hlt)] at hb
  cases hb

namespace Grows

theorem refl (d : Disk) (ip : Inode) : Grows d ip d ip :=
  ⟨rfl, fun _ _ ↦ rfl, fun _ _ h ↦ h, fun _ _ _ ↦ rfl, fun _ _ _ ↦ rfl,
    fun _ _ hzero hne ↦ absurd hzero hne, rfl, fun _ _ ↦ rfl⟩

theorem inUse (h : Grows d ip d' ip') (hb : InUse d b) : InUse d' b := by
  refine ⟨?_, ?_, h.marks b hb.lt_size hb.marked⟩
  · rw [h.readsb_eq]
    exact hb.dataStart_le
  · rw [h.readsb_eq]
    exact hb.lt_size

theorem trans (h : Grows d ip d' ip') (h' : Grows d' ip' d'' ip'') : Grows d ip d'' ip'' := by
  have hsb := h.readsb_eq
  refine ⟨h'.readsb_eq.trans hsb, fun c hc ↦ ?_,
    fun c hlt hc ↦ h'.marks c (by rwa [hsb]) (h.marks c hlt hc), fun c hc hno ↦ ?_,
    fun k hk hne ↦ ?_, fun k hk hzero hne ↦ ?_, ?_,
    fun k hk ↦ (h'.beyond k hk).trans (h.beyond k hk)⟩
  · exact (h'.table c (by rwa [h.readsb_eq])).trans (h.table c hc)
  · refine (h'.kept c (h.inUse hc) fun k hk heq ↦ ?_).trans (h.kept c hc hno)
    -- a block of the file now that is not one of before was free
    by_cases hzero : slot d ip k = 0
    · have hfree := (h.new k hk hzero (by rw [heq]; exact hc.ne_zero)).2
      rw [heq, hc.marked] at hfree
      cases hfree
    · exact hno k hk ((h.old k hk hzero).symm.trans heq)
  · have hold := h.old k hk hne
    rw [← hold]
    exact h'.old k hk (by rwa [hold])
  · by_cases hzero' : slot d' ip' k = 0
    · obtain ⟨hlt, hfree⟩ := h'.new k hk hzero' hne
      rw [hsb] at hlt
      refine ⟨hlt, ?_⟩
      rw [← Bool.not_eq_true] at hfree ⊢
      exact fun hmark ↦ hfree (h.marks _ hlt hmark)
    · rw [h'.old k hk hzero']
      exact h.new k hk hzero hzero'
  · rw [h'.same, h.same]

end Grows

/-! ### One more block -/

/-- `balloc` has found block `b`. -/
structure Allocated (d : Disk) (b : ℕ) (d' : Disk) : Prop where
  lt_size : b < (readsb d).size
  free : marked d b = false
  remarked : Remarked d d' b true

/-- There is no free block. -/
def Full (d : Disk) : Prop := ∀ b < (readsb d).size, marked d b = true

theorem balloc_cases' (d : Disk) :
    (∃ b d', balloc d = (b, d') ∧ Allocated d b d') ∨ balloc d = (0, d) ∧ Full d :=
  (balloc_cases d).imp_left
    fun ⟨b, d', heq, hlt, hfree, hmark⟩ ↦ ⟨b, d', heq, hlt, hfree, hmark⟩

namespace Allocated

theorem marks (h : Allocated d b d') (hc : marked d c = true) : marked d' c = true := by
  rcases eq_or_ne c b with rfl | hne
  · exact h.remarked.self
  · rwa [h.remarked.other c hne]

/-- The data blocks stay. -/
theorem data (h : Allocated d b d') (hc : (readsb d).dataStart ≤ c) : d' c = d c :=
  h.remarked.block c fun heq ↦ by
    have hlt := BBLOCK_lt_dataStart h.lt_size.le
    omega

/-- The blocks before the bitmap stay. -/
theorem table (h : Allocated d b d') (hc : c < (readsb d).ninodes / IPB + 3) : d' c = d c :=
  h.remarked.block c (ne_BBLOCK_of_lt hc b)

theorem inUse_self (h : Allocated d b d') (hs : Sound d) : InUse d' b := by
  refine ⟨?_, ?_, h.remarked.self⟩
  · rw [h.remarked.readsb_eq]
    exact hs.dataStart_le_of_free h.free
  · rw [h.remarked.readsb_eq]
    exact h.lt_size

/-- The new block is zero. -/
theorem zero (h : Allocated d b d') (hs : Sound d) : ∀ o < BSIZE, d' b o = 0 := by
  rw [h.data (hs.dataStart_le_of_free h.free)]
  exact hs.clear b h.lt_size h.free

/-- **A free block is put into an empty slot.** Apart from that a block of the file may change. -/
theorem fill (h : Allocated d b d') (hs : Sound d) (ho : Owns d ip)
    (hsb : readsb d'' = readsb d') (hmarks : ∀ c < (readsb d).size, marked d'' c = marked d' c)
    (hother : ∀ c, (∀ l < NSLOT, slot d ip l ≠ 0 → slot d ip l ≠ c) → d'' c = d' c)
    (hk : k < NSLOT) (hzero : slot d ip k = 0)
    (hslot : ∀ l < NSLOT, slot d'' ip' l = if l = k then b else slot d ip l)
    (hsame : ip' = { ip with addrs := ip'.addrs })
    (hbeyond : ∀ k, NDIRECT < k → ip'.addrs k = ip.addrs k) :
    Sound d'' ∧ Owns d'' ip' ∧ Grows d ip d'' ip' := by
  have hsb' : readsb d'' = readsb d := hsb.trans h.remarked.readsb_eq
  -- what is not in use is no block of the file
  have hnot : ∀ c, ¬ InUse d c → d'' c = d' c := fun c hc ↦ by
    refine hother c fun l hl hne heq ↦ hc ?_
    rw [← heq]
    exact ho.inUse l hl hne
  have hmono : ∀ c < (readsb d).size, marked d c = true → marked d'' c = true := fun c hlt hc ↦ by
    rw [hmarks c hlt]
    exact h.marks hc
  have hmono' : ∀ c, InUse d c → InUse d'' c := fun c hc ↦ by
    refine ⟨?_, ?_, hmono c hc.lt_size hc.marked⟩ <;> rw [hsb']
    · exact hc.dataStart_le
    · exact hc.lt_size
  have hself : InUse d'' b := by
    have hself := h.inUse_self hs
    refine ⟨?_, ?_, ?_⟩
    · rw [hsb]
      exact hself.dataStart_le
    · rw [hsb]
      exact hself.lt_size
    · rw [hmarks b h.lt_size]
      exact hself.marked
  have htable : ∀ c < (readsb d).ninodes / IPB + 3, d'' c = d c := by
    intro c hc
    refine (hnot c fun huse ↦ ?_).trans (h.table hc)
    have hle := huse.dataStart_le
    have hstart := table_le_dataStart (readsb d)
    omega
  refine ⟨⟨?_, ?_, ?_, ?_, ?_⟩, ⟨fun l hl hne ↦ ?_, fun l hl m hm hne heq ↦ ?_⟩,
    ⟨hsb', htable, hmono, fun c hc hno ↦ ?_, fun l hl hne ↦ ?_, fun l hl hz hne ↦ ?_, hsame,
      hbeyond⟩⟩
  · rw [hsb']
    exact hs.dataStart_le
  · rw [hsb']
    exact hs.size_lt
  · rw [htable 0 (Nat.succ_pos _)]
    exact hs.boot
  · rw [hsb']
    exact fun c hc ↦ hmono c (hc.trans_le hs.dataStart_le) (hs.metadata c hc)
  · rw [hsb']
    intro c hc hfree
    have hfree' : marked d c = false := by
      rw [← Bool.not_eq_true] at hfree ⊢
      exact fun hmark ↦ hfree (hmono c hc hmark)
    rw [hnot c fun huse ↦ ?_, h.data (hs.dataStart_le_of_free hfree')]
    · exact hs.clear c hc hfree'
    · rw [huse.marked] at hfree'
      cases hfree'
  · rw [hslot l hl] at hne ⊢
    split_ifs at hne ⊢
    · exact hself
    · exact hmono' _ (ho.inUse l hl hne)
  · rw [hslot l hl] at hne heq
    rw [hslot m hm] at heq
    -- the new block was free, the others were in use
    have hfree : ∀ {n}, n < NSLOT → slot d ip n ≠ 0 → b ≠ slot d ip n := fun hn hnz hbn ↦ by
      have hmark := (ho.inUse _ hn hnz).marked
      rw [← hbn, h.free] at hmark
      cases hmark
    split_ifs at hne heq with hlk hmk hmk
    · rw [hlk, hmk]
    · exact absurd heq (hfree hm (by rwa [← heq]))
    · exact absurd heq.symm (hfree hl hne)
    · exact ho.inj l hl m hm hne heq
  · refine (hother c fun l hl _ heq ↦ hno l hl heq).trans (h.data hc.dataStart_le)
  · rw [hslot l hl, if_neg]
    rintro rfl
    exact hne hzero
  · rw [hslot l hl] at hne ⊢
    split_ifs at hne ⊢
    · exact ⟨h.lt_size, h.free⟩
    · exact absurd hz hne

end Allocated

theorem addrs_setAddr (ip : Inode) (k b l : ℕ) :
    (ip.setAddr k b).addrs l = if l = k then b else ip.addrs l :=
  Function.update_apply ..

/-- An address of the inode is filled in. -/
theorem Allocated.addr (h : Allocated d b d') (hs : Sound d) (ho : Owns d ip) (hk : k ≤ NDIRECT)
    (hzero : ip.addrs k = 0) :
    Sound d' ∧ Owns d' (ip.setAddr k b) ∧ Grows d ip d' (ip.setAddr k b) ∧
      ∀ l < NSLOT, slot d' (ip.setAddr k b) l = if l = k then b else slot d ip l := by
  have haddr := addrs_setAddr ip k b
  have hslot : ∀ l < NSLOT, slot d' (ip.setAddr k b) l = if l = k then b else slot d ip l := by
    intro l hl
    rcases Nat.lt_or_ge NDIRECT l with hlt | hle
    · obtain ⟨j, rfl⟩ := Nat.exists_eq_add_of_le (show NDIRECT + 1 ≤ l from hlt)
      have hj : j < NINDIRECT := by
        rw [NSLOT, MAXFILE] at hl
        omega
      rw [slot_entry, slot_entry, if_neg (by omega), entry, entry, haddr]
      by_cases hind : NDIRECT = k
      · -- the new indirect block is an empty one
        subst hind
        rw [if_pos rfl, if_pos hzero]
        split_ifs
        · rfl
        · have hbytes : value (d' b) (4 * j) 4 = value (fun _ ↦ 0) 0 4 := value_congr
            fun i hi ↦ h.zero hs (4 * j + i) (by rw [BSIZE_eq]; rw [NINDIRECT_eq] at hj; omega)
          rw [hbytes]
          rfl
      · rw [if_neg hind]
        split_ifs with hnone
        · rfl
        · have hin := ho.inUse NDIRECT (by decide) (by rwa [slot_direct le_rfl])
          rw [slot_direct le_rfl] at hin
          rw [h.data hin.dataStart_le]
    · rw [slot_direct hle, slot_direct hle, haddr]
  have hkn : k < NSLOT := by
    rw [NDIRECT_eq] at hk
    rw [NSLOT_eq]
    omega
  obtain ⟨hs', ho', hgrows⟩ := h.fill hs ho rfl (fun _ _ ↦ rfl) (fun _ _ ↦ rfl) hkn
    (by rwa [slot_direct hk]) hslot rfl fun l hl ↦ by rw [haddr, if_neg (by omega)]
  exact ⟨hs', ho', hgrows, hslot⟩

/-- An entry of the indirect block is filled in. -/
theorem Allocated.entry (h : Allocated d b d') (hs : Sound d) (ho : Owns d ip) {j : ℕ}
    (hj : j < NINDIRECT) (hind : ip.addrs NDIRECT ≠ 0) (hzero : FileSys.entry d ip j = 0) :
    let d'' := d'.bwrite (ip.addrs NDIRECT)
      (Patch.write (d (ip.addrs NDIRECT)) ⟨4 * j, bytes 4 b⟩)
    Sound d'' ∧ Owns d'' ip ∧ Grows d ip d'' ip ∧
      ∀ l < NSLOT, slot d'' ip l = if l = NDIRECT + 1 + j then b else slot d ip l := by
  intro d''
  have hin := ho.inUse NDIRECT (by decide) (by rwa [slot_direct le_rfl])
  rw [slot_direct le_rfl] at hin
  have hone := hin.ne_one
  have hblock : d'' (ip.addrs NDIRECT) =
      Patch.write (d (ip.addrs NDIRECT)) ⟨4 * j, bytes 4 b⟩ := Function.update_self ..
  have hb : b < 256 ^ 4 := h.lt_size.trans hs.size_lt
  have hslot : ∀ l < NSLOT,
      slot d'' ip l = if l = NDIRECT + 1 + j then b else slot d ip l := by
    intro l hl
    rcases Nat.lt_or_ge NDIRECT l with hlt | hle
    · obtain ⟨m, rfl⟩ := Nat.exists_eq_add_of_le (show NDIRECT + 1 ≤ l from hlt)
      rw [slot_entry, slot_entry, FileSys.entry, FileSys.entry, if_neg hind, if_neg hind, hblock]
      split_ifs with hm
      · obtain rfl : m = j := Nat.add_left_cancel hm
        exact value_write _ _ hb
      · refine value_write_of_apart ?_
        show 4 * m + 4 ≤ 4 * j ∨ 4 * j + (bytes 4 b).length ≤ 4 * m
        rw [length_bytes]
        omega
    · rw [slot_direct hle, slot_direct hle, if_neg (by omega)]
  have hkn : NDIRECT + 1 + j < NSLOT := by
    rw [NINDIRECT_eq] at hj
    rw [NSLOT_eq, NDIRECT_eq]
    omega
  have hmark : ∀ c < (readsb d).size, marked d'' c = marked d' c := fun c hc ↦ by
    refine marked_bwrite hone fun heq ↦ ?_
    rw [h.remarked.readsb_eq] at heq
    exact hin.ne_BBLOCK hc.le heq.symm
  obtain ⟨hs', ho', hgrows⟩ := h.fill hs ho (readsb_bwrite hone) hmark
    (fun c hc ↦ Function.update_of_ne (fun heq ↦
      hc NDIRECT (by decide) (by rwa [slot_direct le_rfl]) (by rw [slot_direct le_rfl, heq])) ..)
    hkn (by rwa [slot_entry]) hslot rfl fun _ _ ↦ rfl
  exact ⟨hs', ho', hgrows, hslot⟩

/-! ### What `bmap` does -/

theorem blockAt_direct (h : bn < NDIRECT) : blockAt d ip bn = ip.addrs bn := by
  rw [blockAt, slotOf, if_pos h, slot_direct h.le]

theorem blockAt_entry (h : ¬ bn < NDIRECT) : blockAt d ip bn = entry d ip (bn - NDIRECT) := by
  have hslot : bn + 1 = NDIRECT + 1 + (bn - NDIRECT) := by omega
  rw [blockAt, slotOf, if_neg h, hslot, slot_entry]

/-- A block that is there. -/
theorem bmap_old (hbn : bn < MAXFILE) (hne : blockAt d ip bn ≠ 0) :
    bmap d ip bn = .ok (blockAt d ip bn, ip, d) := by
  rw [bmap]
  by_cases hdirect : bn < NDIRECT
  · rw [blockAt_direct hdirect] at hne ⊢
    rw [if_pos hdirect, if_neg hne]
  · rw [blockAt_entry hdirect] at hne ⊢
    have hind := entry_ne_zero hne
    rw [entry, if_neg hind] at hne ⊢
    rw [if_neg hdirect, if_pos (by rw [MAXFILE] at hbn; omega), if_neg hind]
    simp only
    rw [if_neg hne]

/-- Writing a zero where there is one changes nothing. -/
theorem bwrite_zero {a : ℕ} (h : value (d b) a 4 = 0) :
    d.bwrite b (Patch.write (d b) ⟨a, bytes 4 0⟩) = d := by
  have hholds := holds_value (d b) a 4
  rw [h] at hholds
  have hwrite : Patch.writeAll (d b) [⟨a, bytes 4 0⟩] = d b :=
    Patch.writeAll_of_holds fun p hp ↦ by
      rw [List.mem_singleton.1 hp]
      exact hholds
  have hwrite : Patch.write (d b) ⟨a, bytes 4 0⟩ = d b := hwrite
  rw [hwrite]
  exact Function.update_eq_self b d

theorem value_zero {m : ℕ → UInt8} {a : ℕ} (h : ∀ o < BSIZE, m o = 0) (ha : a + 4 ≤ BSIZE) :
    value m a 4 = 0 := by
  have hbytes : value m a 4 = value (fun _ ↦ 0) 0 4 := value_congr
    fun i hi ↦ h (a + i) (by omega)
  rw [hbytes]
  rfl

/-- What becomes of a file and of the disk when `bmap` allocates. -/
structure Mapped (d : Disk) (ip : Inode) (bn : ℕ) (addr : ℕ) (d' : Disk) (ip' : Inode) : Prop where
  sound : Sound d'
  owns : Owns d' ip'
  grows : Grows d ip d' ip'
  /-- The contents of the blocks that were in use are the same, the indirect block apart. -/
  data : ∀ c, InUse d c → c ≠ ip.addrs NDIRECT → d' c = d c
  blockAt_eq : ∀ m < MAXFILE, blockAt d' ip' m = if m = bn then addr else blockAt d ip m
  /-- A new block is zero. -/
  zero : addr ≠ 0 → ∀ o < BSIZE, d' addr o = 0
  full : addr = 0 → Full d'

theorem blockAt_of_slot {addr : ℕ}
    (h : ∀ l < NSLOT, slot d' ip' l = if l = slotOf bn then addr else slot d ip l) :
    ∀ m < MAXFILE, blockAt d' ip' m = if m = bn then addr else blockAt d ip m := by
  intro m hm
  rw [blockAt, h _ (slotOf_lt hm)]
  refine if_congr ⟨slotOf_inj, congrArg _⟩ rfl rfl

/-- Nothing is free. -/
theorem Mapped.none (hs : Sound d) (ho : Owns d ip) (hzero : blockAt d ip bn = 0) (hfull : Full d) :
    Mapped d ip bn 0 d ip := by
  refine ⟨hs, ho, .refl d ip, fun _ _ _ ↦ rfl, fun m _ ↦ ?_, fun h ↦ absurd rfl h,
    fun _ ↦ hfull⟩
  split_ifs with hm
  · rw [hm, hzero]
  · rfl

/-- The data block of an entry, when the indirect block is there. -/
theorem Mapped.of_indirect (hs : Sound d) (ho : Owns d ip) (hbn : bn < MAXFILE)
    (hdirect : ¬ bn < NDIRECT) (hind : ip.addrs NDIRECT ≠ 0) (hzero : blockAt d ip bn = 0) :
    ∃ addr d', balloc d = (addr, (balloc d).2) ∧
      d' = (balloc d).2.bwrite (ip.addrs NDIRECT)
        (Patch.write (d (ip.addrs NDIRECT)) ⟨4 * (bn - NDIRECT), bytes 4 addr⟩) ∧
      Mapped d ip bn addr d' ip := by
  have hj : bn - NDIRECT < NINDIRECT := by
    rw [MAXFILE] at hbn
    omega
  have hentry : entry d ip (bn - NDIRECT) = 0 := by rwa [← blockAt_entry hdirect]
  rcases balloc_cases' d with ⟨b, d₁, hb, halloc⟩ | ⟨hnone, hfull⟩
  · refine ⟨b, _, by rw [hb], by rw [hb], ?_⟩
    obtain ⟨hs', ho', hgrows, hslot⟩ := halloc.entry hs ho hj hind hentry
    have hslotOf : NDIRECT + 1 + (bn - NDIRECT) = slotOf bn := by
      rw [slotOf, if_neg hdirect]
      omega
    rw [hslotOf] at hslot
    refine ⟨hs', ho', hgrows, fun c hc hne ↦ ?_, blockAt_of_slot hslot, fun _ ↦ ?_,
      fun hb₀ ↦ absurd hb₀ (halloc.inUse_self hs).ne_zero⟩
    · rw [Disk.bwrite, Function.update_of_ne hne]
      exact halloc.data hc.dataStart_le
    · have hne : b ≠ ip.addrs NDIRECT := by
        rintro rfl
        have hin := ho.inUse NDIRECT (by decide) (by rwa [slot_direct le_rfl])
        rw [slot_direct le_rfl] at hin
        cases hin.marked.symm.trans halloc.free
      rw [Disk.bwrite, Function.update_of_ne hne]
      exact halloc.zero hs
  · rw [entry, if_neg hind] at hentry
    refine ⟨0, d, by rw [hnone], ?_, .none hs ho hzero hfull⟩
    rw [hnone, bwrite_zero hentry]

theorem setAddr_self (h : ip.addrs k = 0) : ip.setAddr k 0 = ip := by
  rw [Inode.setAddr, ← h, Function.update_eq_self]

/-- The new indirect block is no data block. -/
theorem blockAt_indirect (h : ∀ l < NSLOT, slot d' ip' l = if l = NDIRECT then b else slot d ip l)
    {m : ℕ} (hm : m < MAXFILE) : blockAt d' ip' m = blockAt d ip m := by
  rw [blockAt, h _ (slotOf_lt hm), if_neg (slotOf_ne m), blockAt]

/-- **What `bmap` does for a block that is not there.** -/
theorem bmap_new (hs : Sound d) (ho : Owns d ip) (hbn : bn < MAXFILE)
    (hzero : blockAt d ip bn = 0) :
    ∃ addr ip' d', bmap d ip bn = .ok (addr, ip', d') ∧ Mapped d ip bn addr d' ip' := by
  rw [bmap]
  by_cases hdirect : bn < NDIRECT
  · have haddr : ip.addrs bn = 0 := by rwa [← blockAt_direct hdirect]
    rw [if_pos hdirect, if_pos haddr]
    rcases balloc_cases' d with ⟨b, d₁, hb, halloc⟩ | ⟨hnone, hfull⟩
    · obtain ⟨hs', ho', hgrows, hslot⟩ := halloc.addr hs ho hdirect.le haddr
      have hslotOf : bn = slotOf bn := by rw [slotOf, if_pos hdirect]
      rw [hb]
      refine ⟨b, _, d₁, rfl, hs', ho', hgrows, fun c hc _ ↦ halloc.data hc.dataStart_le,
        blockAt_of_slot ?_, fun _ ↦ halloc.zero hs,
        fun hb₀ ↦ absurd hb₀ (halloc.inUse_self hs).ne_zero⟩
      rwa [← hslotOf]
    · rw [hnone]
      refine ⟨0, ip, d, ?_, .none hs ho hzero hfull⟩
      simp only
      rw [setAddr_self haddr]
  · have hj : bn - NDIRECT < NINDIRECT := by
      rw [MAXFILE] at hbn
      omega
    rw [if_neg hdirect, if_pos hj]
    by_cases hind : ip.addrs NDIRECT = 0
    · rw [if_pos hind]
      rcases balloc_cases' d with ⟨b, d₁, hb, halloc⟩ | ⟨hnone, hfull⟩
      · -- first the indirect block, then the data block
        obtain ⟨hs₁, ho₁, hgrows₁, hslot⟩ := halloc.addr hs ho le_rfl hind
        have hself : (ip.setAddr NDIRECT b).addrs NDIRECT = b := by
          rw [addrs_setAddr, if_pos rfl]
        have hb₀ : b ≠ 0 := (halloc.inUse_self hs).ne_zero
        have hzero₁ : blockAt d₁ (ip.setAddr NDIRECT b) bn = 0 := by
          rw [blockAt_indirect hslot hbn, hzero]
        obtain ⟨addr, d₂, haddr, hd₂, hmapped⟩ :=
          Mapped.of_indirect hs₁ ho₁ hbn hdirect (by rwa [hself]) hzero₁
        have hentry : value (d₁ b) (4 * (bn - NDIRECT)) 4 = 0 := by
          rw [blockAt_entry hdirect, entry, hself, if_neg hb₀] at hzero₁
          exact hzero₁
        rw [hb]
        refine ⟨addr, _, d₂, ?_, hmapped.sound, hmapped.owns, hgrows₁.trans hmapped.grows,
          fun c hc _ ↦ ?_, fun m hm ↦ ?_, hmapped.zero, hmapped.full⟩
        · simp only [hself]
          rw [if_pos hentry, haddr, hd₂, hself]
        · have hne : c ≠ b := by
            rintro rfl
            cases hc.marked.symm.trans halloc.free
          rw [hmapped.data c (hgrows₁.inUse hc) (by rwa [hself])]
          exact halloc.data hc.dataStart_le
        · rw [hmapped.blockAt_eq m hm, blockAt_indirect hslot hm]
      · -- `bmap` goes on with block 0
        have hboot : value (d 0) (4 * (bn - NDIRECT)) 4 = 0 := by
          refine value_zero hs.boot ?_
          rw [NINDIRECT_eq] at hj
          rw [BSIZE_eq]
          omega
        rw [hnone]
        refine ⟨0, ip, d, ?_, .none hs ho hzero hfull⟩
        simp only [setAddr_self hind, hind]
        rw [if_pos hboot, hnone, bwrite_zero hboot]
    · obtain ⟨addr, d', haddr, hd', hmapped⟩ :=
        Mapped.of_indirect hs ho hbn hdirect hind hzero
      have hentry := hzero
      rw [blockAt_entry hdirect, entry, if_neg hind] at hentry
      rw [if_neg hind]
      refine ⟨addr, ip, d', ?_, hmapped⟩
      simp only
      rw [if_pos hentry, haddr, hd']

/-! ### Writing what belongs to a file -/

/-- The blocks in use stay in use when one of them is written. -/
theorem InUse.bwrite (hb : InUse d b) (data : Block) (hc : InUse d c) :
    InUse (d.bwrite b data) c := by
  have hone := hb.ne_one
  refine ⟨?_, ?_, ?_⟩
  · rw [readsb_bwrite hone]
    exact hc.dataStart_le
  · rw [readsb_bwrite hone]
    exact hc.lt_size
  · rw [marked_bwrite hone (hb.ne_BBLOCK hc.lt_size.le).symm]
    exact hc.marked

/-- A data block of a file is written. -/
theorem Owns.bwrite (hs : Sound d) (ho : Owns d ip) (hk : k < NSLOT) (hne : slot d ip k ≠ 0)
    (hind : k ≠ NDIRECT) (data : Block) :
    Sound (d.bwrite (slot d ip k) data) ∧ Owns (d.bwrite (slot d ip k) data) ip ∧
      Grows d ip (d.bwrite (slot d ip k) data) ip ∧
      ∀ l < NSLOT, slot (d.bwrite (slot d ip k) data) ip l = slot d ip l := by
  have hb := ho.inUse k hk hne
  have hother : ∀ c, c ≠ slot d ip k → (d.bwrite (slot d ip k) data) c = d c :=
    fun c hc ↦ Function.update_of_ne hc ..
  have hone := hb.ne_one
  have hsb : readsb (d.bwrite (slot d ip k) data) = readsb d := readsb_bwrite hone
  have hmarks : ∀ c < (readsb d).size, marked (d.bwrite (slot d ip k) data) c = marked d c :=
    fun c hc ↦ marked_bwrite hone (hb.ne_BBLOCK hc.le).symm
  have htable : ∀ c < (readsb d).dataStart, (d.bwrite (slot d ip k) data) c = d c := by
    refine fun c hc ↦ hother c fun heq ↦ ?_
    have hle := hb.dataStart_le
    omega
  -- the block that is written is not the block of the entries
  have hslot : ∀ l < NSLOT, slot (d.bwrite (slot d ip k) data) ip l = slot d ip l := by
    refine fun l hl ↦ slot_congr rfl (fun hnz o _ ↦ ?_) hl
    rw [hother]
    intro heq
    have hdirect : slot d ip NDIRECT = ip.addrs NDIRECT := slot_direct le_rfl
    rw [← hdirect] at heq hnz
    exact hind (ho.inj _ (by decide) k hk hnz heq).symm
  refine ⟨⟨?_, ?_, ?_, ?_, ?_⟩, ⟨fun l hl hnz ↦ ?_, fun l hl m hm hnz heq ↦ ?_⟩,
    ⟨hsb, fun c hc ↦ htable c ?_, fun c hc hmark ↦ ?_, fun c _ hno ↦ hother c (hno k hk).symm,
      fun l hl _ ↦ hslot l hl, fun l hl hz hnz ↦ ?_, rfl, fun _ _ ↦ rfl⟩, hslot⟩
  · rw [hsb]
    exact hs.dataStart_le
  · rw [hsb]
    exact hs.size_lt
  · rw [hother 0 hb.ne_zero.symm]
    exact hs.boot
  · rw [hsb]
    intro c hc
    rw [hmarks c (hc.trans_le hs.dataStart_le)]
    exact hs.metadata c hc
  · rw [hsb]
    intro c hc hfree
    rw [hmarks c hc] at hfree
    rw [hother c ?_]
    · exact hs.clear c hc hfree
    · rintro rfl
      cases hb.marked.symm.trans hfree
  · rw [hslot l hl] at hnz ⊢
    exact hb.bwrite data (ho.inUse l hl hnz)
  · rw [hslot l hl] at hnz heq
    rw [hslot m hm] at heq
    exact ho.inj l hl m hm hnz heq
  · have hstart := table_le_dataStart (readsb d)
    omega
  · rw [hmarks c hc]
    exact hmark
  · rw [hslot l hl] at hnz
    exact absurd hz hnz

end FileSys
