import Cs537OS.Fsck.Bounds

/-!
# What the range tests let through

The address checks compare `BSIZE*addr`, computed in 32 bits, with the end of the data region, and
with `>` where the end is the first offset past it. Both show in the block numbers: a test looks at
the low 23 bits of a number only, and it lets the block after the last one through
(`Image.inRange_addrOff_iff`, `Image.inRange_entryOff_iff`). The signed product of an entry of the
indirect block loses one bit more to the sign.

`Image.rangeTested_sound_iff` says for which inodes the tests nevertheless admit data blocks only.
In the run of the checker each test stands before the use count and the bitmap bit of the address:
a run that gets through the addresses has made all of them, and a run that reports a bad address
has failed one (`Image.rangeTested_of_scanAddrs`, `Image.not_rangeTested_of_report`).
-/

namespace Fsck

namespace Image

variable (img : Image)

/-- The range tests of the address checks on inode `i`, in their three copies. -/
structure RangeTested (i : ℕ) : Prop where
  direct : ∀ j < ndirect, (img.dinode i).addrs j ≠ 0 →
    img.InRange (addrOff ((img.dinode i).addrs j))
  indirect : img.indirectAddr i ≠ 0 → img.InRange (addrOff (img.indirectAddr i))
  entry : img.indirectAddr i ≠ 0 → ∀ k < nindirect, img.word (img.entryAt i k) ≠ 0 →
    img.InRange (entryOff (img.word (img.entryAt i k)))

/-- Block `b` is a data block. -/
def DataBlock (b : ℕ) : Prop := img.firstData ≤ b ∧ b < img.firstData + img.sb.nblocks

/-- The non-zero entries of block `b`, read as an indirect block. -/
def listedIn (b : ℕ) : List ℕ :=
  ((List.range nindirect).map fun k ↦ img.u32 (bsize * b + 4 * k)).filter (· ≠ 0)

/-- The non-zero addresses of inode `i`: direct, indirect pointer, and the entries of the indirect
block. -/
def addresses (i : ℕ) : List ℕ :=
  img.directBlocks i ++
    if img.indirectAddr i = 0 then [] else img.indirectAddr i :: img.listedIn (img.indirectAddr i)

instance (b : ℕ) : Decidable (img.DataBlock b) := inferInstanceAs (Decidable (_ ∧ _))

/-! ### One address -/

/-- The low 23 bits of `b` are the number of a data block, or of the block after the last one. -/
def Admissible (b : ℕ) : Prop :=
  img.firstData ≤ b % 2 ^ 23 ∧ b % 2 ^ 23 ≤ img.firstData + img.sb.nblocks % 2 ^ 23

/-- `b` is admissible and past the last data block. -/
def Escapes (b : ℕ) : Prop := img.Admissible b ∧ img.firstData + img.sb.nblocks ≤ b

variable {img}

theorem inRange_addrOff_iff {b : ℕ} : img.InRange (addrOff b) ↔ img.Admissible b := by
  have hd := img.dataStart_eq
  rw [InRange, addrOff, sysEnd, hd, Admissible]
  rw [bsize]
  omega

/-- An entry is read as an `int`: the product of a number whose bit 22 is set is negative. -/
theorem inRange_entryOff_iff {off : ℕ} :
    img.InRange (entryOff (img.word off)) ↔
      img.Admissible (img.u32 off) ∧ img.u32 off % 2 ^ 23 < 2 ^ 22 := by
  have hd := img.dataStart_eq
  have hlt := img.u32_lt off
  rw [InRange, entryOff, word, int32, int32, sysEnd, hd, Admissible]
  rw [bsize]
  omega

/-- Among the admissible numbers, those of data blocks are the ones that do not escape. -/
theorem Admissible.dataBlock_iff {b : ℕ} (h : img.Admissible b) :
    img.DataBlock b ↔ ¬ img.Escapes b := by
  have hle : b % 2 ^ 23 ≤ b := Nat.mod_le _ _
  rw [Escapes, and_iff_right h, not_le, DataBlock]
  exact and_iff_right (h.1.trans hle)

/-- Below `2 ^ 23` blocks the program reads the indirect block that is meant. -/
theorem indirectBlocks_eq {i : ℕ} (h : img.indirectAddr i < 2 ^ 23) :
    img.indirectBlocks i = img.listedIn (img.indirectAddr i) := by
  have hoff : addrOff (img.indirectAddr i) = bsize * img.indirectAddr i := by
    rw [addrOff, bsize]
    omega
  rw [indirectBlocks, listedIn]
  simp only [entryAt, hoff]

/-! ### The tests of an inode -/

theorem mem_directBlocks_iff {i b : ℕ} :
    b ∈ img.directBlocks i ↔ b ≠ 0 ∧ ∃ j < ndirect, (img.dinode i).addrs j = b := by
  simp [directBlocks, and_comm]

theorem mem_indirectBlocks_iff {i b : ℕ} :
    b ∈ img.indirectBlocks i ↔ b ≠ 0 ∧ ∃ k < nindirect, img.u32 (img.entryAt i k) = b := by
  simp [indirectBlocks, and_comm]

variable (img) in
/-- Some address of inode `i` fails its test. -/
def SomeRejected (i : ℕ) : Prop :=
  (∃ b ∈ img.directBlocks i, ¬ img.Admissible b) ∨
    img.indirectAddr i ≠ 0 ∧ (¬ img.Admissible (img.indirectAddr i) ∨
      ∃ b ∈ img.indirectBlocks i, ¬ (img.Admissible b ∧ b % 2 ^ 23 < 2 ^ 22))

variable (img) in
/-- No address of inode `i` is past the last data block and admissible all the same. An indirect
pointer from `2 ^ 23` on is admissible only in an image of more than 4 GiB; the entries the
program reads are then those of another block. -/
structure NoneEscapes (i : ℕ) : Prop where
  direct : ∀ b ∈ img.directBlocks i, ¬ img.Escapes b
  indirect : img.indirectAddr i ≠ 0 → ¬ img.Escapes (img.indirectAddr i)
  entry : img.indirectAddr i ≠ 0 → img.indirectAddr i < 2 ^ 23 →
    ∀ b ∈ img.indirectBlocks i, ¬ img.Escapes b
  misread : 2 ^ 23 ≤ img.indirectAddr i → ∀ b ∈ img.listedIn (img.indirectAddr i), img.DataBlock b

/-- The tests of an inode, read off its block numbers. -/
theorem rangeTested_iff {i : ℕ} :
    img.RangeTested i ↔
      (∀ b ∈ img.directBlocks i, img.Admissible b) ∧
        (img.indirectAddr i ≠ 0 → img.Admissible (img.indirectAddr i) ∧
          ∀ b ∈ img.indirectBlocks i, img.Admissible b ∧ b % 2 ^ 23 < 2 ^ 22) := by
  constructor
  · intro h
    refine ⟨fun b hb ↦ ?_, fun hne ↦ ⟨inRange_addrOff_iff.1 (h.indirect hne), fun b hb ↦ ?_⟩⟩
    · obtain ⟨h₀, j, hj, rfl⟩ := mem_directBlocks_iff.1 hb
      exact inRange_addrOff_iff.1 (h.direct j hj h₀)
    · obtain ⟨h₀, k, hk, rfl⟩ := mem_indirectBlocks_iff.1 hb
      exact inRange_entryOff_iff.1 (h.entry hne k hk (mt img.word_eq_zero_iff.1 h₀))
  · rintro ⟨hd, hi⟩
    refine ⟨fun j hj h₀ ↦ ?_, fun hne ↦ inRange_addrOff_iff.2 (hi hne).1, fun hne k hk h₀ ↦ ?_⟩
    · exact inRange_addrOff_iff.2 (hd _ (mem_directBlocks_iff.2 ⟨h₀, j, hj, rfl⟩))
    · have h₀ : img.u32 (img.entryAt i k) ≠ 0 := mt img.word_eq_zero_iff.2 h₀
      exact inRange_entryOff_iff.2 ((hi hne).2 _ (mem_indirectBlocks_iff.2 ⟨h₀, k, hk, rfl⟩))

theorem not_rangeTested_iff {i : ℕ} : ¬ img.RangeTested i ↔ img.SomeRejected i := by
  rw [rangeTested_iff, SomeRejected]
  grind

theorem forall_mem_addresses_iff {P : ℕ → Prop} {i : ℕ} :
    (∀ b ∈ img.addresses i, P b) ↔
      (∀ b ∈ img.directBlocks i, P b) ∧
        (img.indirectAddr i ≠ 0 → P (img.indirectAddr i) ∧
          ∀ b ∈ img.listedIn (img.indirectAddr i), P b) := by
  rw [addresses]
  split
  next h₀ => simp [h₀]
  next h₀ =>
    rw [List.forall_mem_append, List.forall_mem_cons, imp_iff_right h₀]

/-- **When the range tests are sound.** The tests on inode `i` admit data blocks only exactly when
they reject some address anyway, or no address of the inode escapes them. -/
theorem rangeTested_sound_iff (img : Image) (i : ℕ) :
    (img.RangeTested i → ∀ b ∈ img.addresses i, img.DataBlock b) ↔
      img.SomeRejected i ∨ img.NoneEscapes i := by
  rw [← not_rangeTested_iff, ← imp_iff_not_or]
  refine imp_congr_right fun ht ↦ ?_
  obtain ⟨hd, hi⟩ := rangeTested_iff.1 ht
  rw [forall_mem_addresses_iff]
  constructor
  · rintro ⟨hdata, hind⟩
    refine ⟨fun b hb ↦ (hd b hb).dataBlock_iff.1 (hdata b hb),
      fun hne ↦ (hi hne).1.dataBlock_iff.1 (hind hne).1, fun hne hlt b hb ↦ ?_, fun hle ↦ ?_⟩
    · have hb' := indirectBlocks_eq hlt ▸ hb
      exact ((hi hne).2 b hb).1.dataBlock_iff.1 ((hind hne).2 b hb')
    · exact (hind (by omega)).2
  · intro h
    refine ⟨fun b hb ↦ (hd b hb).dataBlock_iff.2 (h.direct b hb),
      fun hne ↦ ⟨(hi hne).1.dataBlock_iff.2 (h.indirect hne), ?_⟩⟩
    rcases lt_or_ge (img.indirectAddr i) (2 ^ 23) with hlt | hle
    · intro b hb
      have hb' : b ∈ img.indirectBlocks i := indirectBlocks_eq hlt ▸ hb
      exact ((hi hne).2 b hb').1.dataBlock_iff.2 (h.entry hne hlt b hb')
    · exact h.misread hle

/-- The small image with the file's block moved past the end: block 7 of 7. -/
def edgeImage : Image :=
  ofChunks 7
    [sbChunk 7 3 4, inodeChunk 1 1 1 [4], inodeChunk 2 1 1 [5], inodeChunk 3 2 1 [7],
      (3 * bsize, [0xff]),
      direntChunk 4 0 1 [46], direntChunk 4 1 1 [46, 46], direntChunk 4 2 2 [100],
      direntChunk 4 3 3 [102], direntChunk 5 0 2 [46], direntChunk 5 1 1 [46, 46]]

set_option maxRecDepth 100000 in
/-- The tests let block 7 through, and the run goes on to index `visitblock` with it. -/
theorem edgeImage_rangeTested :
    edgeImage.Sized ∧ edgeImage.InUse 3 ∧ edgeImage.RangeTested 3 ∧ 7 ∈ edgeImage.addresses 3 ∧
      ¬ edgeImage.DataBlock 7 ∧ edgeImage.checkMode 5 = .error .outOfBounds := by
  refine ⟨by decide, by decide +kernel, ⟨by decide +kernel, ?_, ?_⟩, by decide +kernel,
    by decide, by decide +kernel⟩
  · exact fun h ↦ absurd (by decide +kernel : edgeImage.indirectAddr 3 = 0) h
  · exact fun h ↦ absurd (by decide +kernel : edgeImage.indirectAddr 3 = 0) h

/-! ### The tests in the run of the checker -/

section Run

variable {s s' : Scan} {i : ℕ}

private theorem direct_mem_addrTurns {j : ℕ} (hj : j < ndirect) :
    .direct ((img.dinode i).addrs j) ∈ img.addrTurns i :=
  List.mem_append_left _ (List.mem_map_of_mem (List.mem_range.2 hj))

private theorem entry_mem_addrTurns (h : img.indirectAddr i ≠ 0) {k : ℕ} (hk : k < nindirect) :
    .entry (img.entryAt i k) ∈ img.addrTurns i := by
  rw [addrTurns, if_neg h]
  exact List.mem_append_right _ (List.mem_cons_of_mem _ (List.mem_map_of_mem (List.mem_range.2 hk)))

/-- A run that gets through the addresses of inode `i` has made all range tests. -/
theorem rangeTested_of_scanAddrs (h : img.scanAddrs i s = .ok s') : img.RangeTested i := by
  rw [img.scanAddrs_eq img.dirTable,
    GuardedLoop.foldlM_eq_ok_iff (img.step_tracks img.dirTable)] at h
  have hadm : ∀ t ∈ img.addrTurns i, ∃ s, img.Admits s t := by
    intro t ht
    obtain ⟨pre, post, hsplit⟩ := List.append_of_mem ht
    exact ⟨_, ((img.step_eq_ok_iff _).1 (h.1 pre t post hsplit)).1⟩
  refine ⟨fun j hj h₀ ↦ ?_, fun hne ↦ ?_, fun hne k hk h₀ ↦ ?_⟩
  · obtain ⟨_, ha⟩ := hadm _ (direct_mem_addrTurns hj)
    exact (ha h₀).1
  · obtain ⟨_, ha⟩ := hadm _ (img.indirect_mem_addrTurns hne)
    exact ha.2
  · obtain ⟨_, ha⟩ := hadm _ (entry_mem_addrTurns hne hk)
    exact (ha.2 (mt img.word_eq_zero_iff.2 h₀)).1

private theorem checkDirect_badAddress {addr : ℕ} {r : Report}
    (hr : r = .badDirect ∨ r = .badIndirect) (h : img.checkDirect s addr = .error (.report r)) :
    addr ≠ 0 ∧ ¬ img.InRange (addrOff addr) := by
  rw [checkDirect] at h
  split_ifs at h <;> grind

private theorem checkIndirect_badAddress {addr : ℕ} {r : Report}
    (h : img.checkIndirect s addr = .error (.report r)) : ¬ img.InRange (addrOff addr) := by
  rw [checkIndirect] at h
  split_ifs at h <;> grind

private theorem checkEntry_badAddress {off : ℕ} {r : Report}
    (hr : r = .badDirect ∨ r = .badIndirect) (h : img.checkEntry s off = .error (.report r)) :
    img.word off ≠ 0 ∧ ¬ img.InRange (entryOff (img.word off)) := by
  have hne : ∀ {r' : Report}, r' ≠ .badDirect → r' ≠ .badIndirect →
      (.error (.report r') : Except Stop Scan) ≠ .error (.report r) := by
    intro r' h₁ h₂ heq
    cases heq
    exact hr.elim h₁ h₂
  rw [checkEntry] at h
  split at h
  next => cases h
  split at h
  next => cases h
  next hzero =>
  split at h
  next hrange => exact ⟨hzero, hrange⟩
  split at h
  next => cases h
  -- past the range test only the use count and the bitmap bit are reported
  dsimp only at h
  split at h
  next => exact absurd h (hne (by decide) (by decide))
  split at h
  next => cases h
  split at h
  next => exact absurd h (hne (by decide) (by decide))
  next => cases h

/-- A run that reports a bad address of inode `i` has failed a range test. -/
theorem not_rangeTested_of_report {r : Report} (hr : r = .badDirect ∨ r = .badIndirect)
    (h : img.scanAddrs i s = .error (.report r)) : ¬ img.RangeTested i := by
  rw [img.scanAddrs_eq img.dirTable,
    GuardedLoop.foldlM_eq_error_iff (img.step_tracks img.dirTable)] at h
  obtain ⟨pre, t, post, hsplit, -, hstep⟩ := h
  have ht : t ∈ img.addrTurns i := hsplit ▸ List.mem_append_right _ List.mem_cons_self
  intro htested
  rcases List.mem_append.1 ht with ht | ht
  · obtain ⟨j, hj, rfl⟩ := List.mem_map.1 ht
    obtain ⟨h₀, hbad⟩ := checkDirect_badAddress hr hstep
    exact hbad (htested.direct j (List.mem_range.1 hj) h₀)
  · split at ht
    next => exact absurd ht List.not_mem_nil
    next hne =>
      rcases List.mem_cons.1 ht with rfl | ht
      · exact checkIndirect_badAddress hstep (htested.indirect hne)
      · obtain ⟨k, hk, rfl⟩ := List.mem_map.1 ht
        obtain ⟨h₀, hbad⟩ := checkEntry_badAddress hr hstep
        exact hbad (htested.entry hne k (List.mem_range.1 hk) h₀)

end Run

end Image

end Fsck
