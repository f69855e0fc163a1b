import Cs537OS.Fsck.Tables

/-!
# What the checks before the bitmap scan establish

`Image.Passed` is the declarative content of everything check mode does before its last two
loops, the parent walk and the bitmap scan: no tables, only the reading of the image that
`Cs537OS.Fsck.Contents` gives. `Image.earlierChecks_eq_ok_iff` says that this content, together
with a completed parent walk over the recorded parents, is exactly what a run that reaches the
bitmap scan has checked.

The results about accepted images start from here: `accepted_iff` says what such an image has
passed, the rules, the parent walk and the bitmap scan, and `Accepted.passed` gives the rules.
-/

namespace Fsck

namespace Image

variable (img : Image)

/-! ### The directory table -/

/-- What the first loop leaves in `dirarr`. -/
def dirTable (i : ℕ) : ℕ := if img.IsDir i then 1 else 0

@[simp]
theorem dirTable_eq_one_iff {i : ℕ} : img.dirTable i = 1 ↔ img.IsDir i := by
  rw [dirTable]
  split <;> simp [*]

@[simp]
theorem dirTable_ne_zero_iff {i : ℕ} : img.dirTable i ≠ 0 ↔ img.IsDir i := by
  rw [dirTable]
  split <;> simp [*]

/-- The inodes of the table lie inside the image. -/
def InodesReadable : Prop := ∀ i < img.sb.ninodes, img.Readable (inodeOff i) 64

/-- One turn of the loop that fills `dirarr`. -/
private def noteDir (dirarr : ℕ → ℕ) (i : ℕ) : ℕ → ℕ :=
  if (img.dinode i).type = tDir then Function.update dirarr i 1 else dirarr

private theorem foldl_noteDir (n : ℕ) :
    (List.range n).foldl img.noteDir (fun _ ↦ 0) =
      fun i ↦ if i < n ∧ (img.dinode i).type = tDir then 1 else 0 := by
  induction n with
  | zero => simp
  | succ n ih =>
    rw [List.range_succ, List.foldl_append, ih]
    funext i
    by_cases hi : i = n
    · subst hi
      by_cases hd : (img.dinode i).type = tDir <;> simp [noteDir, hd]
    · have hlt : i < n + 1 ↔ i < n := by omega
      by_cases hd : (img.dinode n).type = tDir <;> simp [noteDir, hd, hi, hlt]

/-- The loop that fills `dirarr` goes through when the inode table lies inside the image. -/
theorem markDirs_eq_ok_iff {d : ℕ → ℕ} :
    img.markDirs = .ok d ↔ img.InodesReadable ∧ d = img.dirTable := by
  have hturn : ∀ dirarr d' i, (if ¬ img.Readable (inodeOff i) 64 then .error Stop.outOfBounds
      else if (img.dinode i).type = tDir then .ok (Function.update dirarr i 1)
      else .ok dirarr : Except Stop (ℕ → ℕ)) = .ok d' ↔
        img.Readable (inodeOff i) 64 ∧ d' = img.noteDir dirarr i := by
    intro dirarr d' i
    rw [noteDir]
    split_ifs <;> simp_all [eq_comm]
  have htracks : GuardedLoop.Tracks _ img.noteDir :=
    fun dirarr i d' h ↦ ((hturn dirarr d' i).1 h).2
  rw [markDirs, GuardedLoop.foldlM_eq_ok_iff htracks,
    GuardedLoop.passes_iff_forall_mem fun dirarr i ↦
      (hturn dirarr _ i).trans (and_iff_left rfl), foldl_noteDir]
  simp only [List.mem_range]
  rfl

/-! ### The tables of a completed scan -/

/-- What the tables of a completed scan hold. -/
structure Completed (s : Scan) : Prop where
  visitblock : ∀ b, s.visitblock b = img.blockUses.count b
  inodeinuse : ∀ i, s.inodeinuse i = if img.InUse i then 1 else 0
  inoderefer : ∀ j, s.inoderefer j = img.references j
  dirreference : ∀ j, img.IsDir j → s.dirreference j = (img.namings j).length
  childentry : ∀ i j, s.childentry i j = 1 ↔ img.IsDir j ∧ ∃ x ∈ img.namings j, x.dir = i
  parentinum : s.parentinum = img.recordedParent

theorem mem_namings_iff {j : ℕ} {x : Entry} :
    x ∈ img.namings j ↔ x ∈ img.scannedEntries ∧ x.ent.inum = j ∧ x.ent.isProper := by
  simp [namings]

/-- The tables hold the abstract reading of the image. -/
theorem completed_after : img.Completed (img.after img.dirTable img.scanOrder) where
  visitblock b := by rw [after_visitblock, scanOrder, filterMap_blockOf, blockUses]
  inodeinuse i := by rw [after_inodeinuse, countP_inuseOf]
  inoderefer j := by rw [after_inoderefer, filterMap_entryOf, references]
  dirreference j hj := by
    rw [after_dirreference _ _ _ (img.dirTable_eq_one_iff.2 hj), filterMap_entryOf,
      List.countP_eq_length_filter, namings]
  childentry i j := by
    rw [after_childentry, filterMap_entryOf, dirTable_eq_one_iff]
    refine and_congr_right fun _ ↦ exists_congr fun x ↦ ?_
    rw [mem_namings_iff, and_assoc]
    exact and_congr_right fun _ ↦ and_comm
  parentinum := by
    funext i
    rw [after_parentinum, filterMap_dotDotOf, recordedParent]

/-! ### The rules -/

/-- Rules 9 to 11 on inode `i`: in use and referred to go together, the unused first inode aside,
and a file's link count is the number of references. -/
structure Linked (i : ℕ) : Prop where
  referred : img.InUse i → 0 < img.references i
  inUse : 0 < img.references i → i ≠ 0 → img.InUse i
  nlink : (img.dinode i).type = tFile → (img.dinode i).nlink = img.references i

/-- Rule 12 on directory `i`: it is named once, and the root directory not at all. -/
def NamedOnce (i : ℕ) : Prop :=
  (img.namings i).length = if i = rootino then 0 else 1

/-- The declarative content of the checks before the parent walk. -/
structure Passed : Prop where
  sbReadable : img.Readable bsize 12
  ninodes_le : img.sb.ninodes ≤ 2 ^ 31
  inodesReadable : img.InodesReadable
  admitted : img.AllAdmitted img.dirTable img.scanOrder
  linked : ∀ i < img.sb.ninodes, img.Linked i
  namedOnce : ∀ i, img.IsDir i → img.NamedOnce i
  /-- The rule on parents: whoever names a directory is its recorded parent. -/
  parents : ∀ j, img.IsDir j → ∀ x ∈ img.namings j, img.recordedParent j = x.dir

section

variable {img} {s : Scan}

/-- Rules 9 to 12, read off the tables of a completed scan. -/
theorem Completed.checkRules_eq_ok_iff (h : img.Completed s) {i : ℕ} (hi : i < img.sb.ninodes)
    (hr : img.Readable (inodeOff i) 64) :
    img.checkRules s i = .ok () ↔ img.Linked i ∧ (img.IsDir i → img.NamedOnce i) := by
  have hu : s.inodeinuse i ≠ 0 ↔ img.InUse i := by
    rw [h.inodeinuse]
    split <;> simp [*]
  have hd : (img.dinode i).type = tDir ↔ img.IsDir i := (and_iff_right hi).symm
  have hname : img.IsDir i →
      (¬ ((rootino ≠ i ∧ 1 ≠ s.dirreference i) ∨ (i = rootino ∧ 0 ≠ s.dirreference i)) ↔
        img.NamedOnce i) := by
    intro hdir
    rw [h.dirreference i hdir, NamedOnce]
    by_cases hroot : i = rootino <;> simp [hroot, eq_comm]
  simp only [checkRules, GuardedLoop.guard_eq_ok_iff, h.inoderefer, hd]
  constructor
  · rintro ⟨h₉, h₁₀, -, h₁₁, h₁₂, -⟩
    refine ⟨⟨fun hi ↦ ?_, fun hpos h₀ ↦ ?_, fun hf ↦ ?_⟩, fun hdir ↦ ?_⟩
    · by_contra hlt
      exact h₉ ⟨hu.2 hi, by omega⟩
    · by_contra hn
      exact h₁₀ ⟨⟨by omega, h₀⟩, not_not.1 fun h' ↦ hn (hu.1 h')⟩
    · by_contra hn
      exact h₁₁ ⟨hf, hn⟩
    · exact (hname hdir).1 fun h' ↦ h₁₂ ⟨hdir, h'⟩
  · rintro ⟨hl, hn⟩
    refine ⟨?_, ?_, not_not.2 hr, ?_, ?_, trivial⟩
    · rintro ⟨h', hlt⟩
      have := hl.referred (hu.1 h')
      omega
    · rintro ⟨⟨hpos, h₀⟩, hz⟩
      exact hu.2 (hl.inUse (Nat.pos_of_ne_zero hpos) h₀) hz
    · rintro ⟨hf, hne⟩
      exact hne (hl.nlink hf)
    · rintro ⟨hdir, h'⟩
      exact (hname hdir).2 (hn hdir) h'

theorem Completed.rules_eq_ok_iff (h : img.Completed s) (hr : img.InodesReadable) :
    img.rules s = .ok () ↔
      (∀ i < img.sb.ninodes, img.Linked i) ∧ ∀ i, img.IsDir i → img.NamedOnce i := by
  rw [rules, GuardedLoop.checks_eq_ok_iff]
  simp only [List.mem_range]
  constructor
  · intro hall
    refine ⟨fun i hi ↦ ?_, fun i hdir ↦ ?_⟩
    · exact ((h.checkRules_eq_ok_iff hi (hr i hi)).1 (hall i hi)).1
    · exact ((h.checkRules_eq_ok_iff hdir.1 (hr i hdir.1)).1 (hall i hdir.1)).2 hdir
  · rintro ⟨hl, hn⟩ i hi
    exact (h.checkRules_eq_ok_iff hi (hr i hi)).2 ⟨hl i hi, hn i⟩

/-- The rule on parents, read off the tables of a completed scan. -/
theorem Completed.parents_eq_ok_iff (h : img.Completed s) :
    img.parents s = .ok () ↔
      ∀ j, img.IsDir j → ∀ x ∈ img.namings j, img.recordedParent j = x.dir := by
  have hcheck : ∀ i j, checkParent s i j = .ok () ↔
      (s.childentry i j = 1 → img.recordedParent j = i) := by
    intro i j
    rw [checkParent, GuardedLoop.guard_eq_ok_iff, h.parentinum, and_iff_left rfl, not_and, not_not]
  rw [parents, GuardedLoop.checks_eq_ok_iff]
  simp only [GuardedLoop.checks_eq_ok_iff, List.mem_range, hcheck, h.childentry]
  constructor
  · intro hall j hj x hx
    have hdir : img.IsDir x.dir := isDir_of_mem_scannedEntries _ (img.mem_namings_iff.1 hx).1
    exact hall x.dir hdir.1 j hj.1 ⟨hj, x, hx, rfl⟩
  · rintro hall i - j - ⟨hj, x, hx, rfl⟩
    exact hall j hj x hx

end

/-! ### The run up to the bitmap scan -/

/-- **What a run that reaches the bitmap scan has checked**, and the tables it carries there. -/
theorem earlierChecks_eq_ok_iff {fuel : ℕ} {s : Scan} :
    img.earlierChecks fuel = .ok s ↔
      img.Passed ∧ s = img.after img.dirTable img.scanOrder ∧
        ∃ marks, loopCheck fuel img.sb.ninodes img.dirTable img.recordedParent = .ok marks := by
  have hc := img.completed_after
  rw [earlierChecks, GuardedLoop.guard_eq_ok_iff, GuardedLoop.guard_eq_ok_iff, not_not, not_lt]
  constructor
  · rintro ⟨hsb, hn, hrun⟩
    obtain ⟨d, hd, hrun⟩ := GuardedLoop.bind_eq_ok_iff.1 hrun
    obtain ⟨s', hs', hrun⟩ := GuardedLoop.bind_eq_ok_iff.1 hrun
    obtain ⟨⟨⟩, hrules, hrun⟩ := GuardedLoop.bind_eq_ok_iff.1 hrun
    obtain ⟨⟨⟩, hparents, hrun⟩ := GuardedLoop.bind_eq_ok_iff.1 hrun
    obtain ⟨marks, hwalk, hrun⟩ := GuardedLoop.bind_eq_ok_iff.1 hrun
    obtain rfl : s' = s := Except.ok.inj hrun
    obtain ⟨hinodes, rfl⟩ := img.markDirs_eq_ok_iff.1 hd
    obtain ⟨hadm, rfl⟩ := (img.scanInodes_eq_ok_iff _).1 hs'
    obtain ⟨hl, hnamed⟩ := (hc.rules_eq_ok_iff hinodes).1 hrules
    rw [hc.parentinum] at hwalk
    exact ⟨⟨hsb, hn, hinodes, hadm, hl, hnamed, hc.parents_eq_ok_iff.1 hparents⟩, rfl, marks, hwalk⟩
  · rintro ⟨hp, rfl, marks, hwalk⟩
    rw [← hc.parentinum] at hwalk
    refine ⟨hp.sbReadable, hp.ninodes_le, ?_⟩
    rw [img.markDirs_eq_ok_iff.2 ⟨hp.inodesReadable, rfl⟩]
    show img.scanInodes img.dirTable >>= _ = _
    rw [(img.scanInodes_eq_ok_iff _).2 ⟨hp.admitted, rfl⟩]
    show img.rules _ >>= _ = _
    rw [(hc.rules_eq_ok_iff hp.inodesReadable).2 ⟨hp.linked, hp.namedOnce⟩]
    show img.parents _ >>= _ = _
    rw [hc.parents_eq_ok_iff.2 hp.parents]
    show loopCheck _ _ _ _ >>= _ = _
    rw [hwalk]
    rfl

/-- The uses of blocks counted by a completed scan. -/
def useCount (b : ℕ) : ℕ := img.blockUses.count b

/-- **What an accepted image has passed.** -/
theorem accepted_iff :
    img.Accepted ↔
      img.Passed ∧
        (∃ fuel marks,
          loopCheck fuel img.sb.ninodes img.dirTable img.recordedParent = .ok marks) ∧
        img.bitmapScan img.useCount = .ok () := by
  have hvisit : (img.after img.dirTable img.scanOrder).visitblock = img.useCount :=
    funext img.completed_after.visitblock
  simp only [Accepted, checkMode, GuardedLoop.bind_eq_ok_iff, earlierChecks_eq_ok_iff]
  constructor
  · rintro ⟨fuel, s, ⟨hp, rfl, marks, hwalk⟩, hscan⟩
    exact ⟨hp, ⟨fuel, marks, hwalk⟩, hvisit ▸ hscan⟩
  · rintro ⟨hp, ⟨fuel, marks, hwalk⟩, hscan⟩
    exact ⟨fuel, _, ⟨hp, rfl, marks, hwalk⟩, hvisit ▸ hscan⟩

theorem Accepted.passed {img : Image} (h : img.Accepted) : img.Passed := (img.accepted_iff.1 h).1

/-! ### Images written down by their non-zero bytes -/

/-- The image of `nblocks` blocks that holds the given runs of bytes and is zero elsewhere. -/
def ofChunks (nblocks : ℕ) (chunks : List (ℕ × List UInt8)) : Image where
  stSize := nblocks * bsize
  byte a := chunks.foldr
    (fun c rest ↦ if c.1 ≤ a ∧ a < c.1 + c.2.length then c.2.getD (a - c.1) 0 else rest) 0

/-- The superblock. -/
def sbChunk (size nblocks ninodes : UInt8) : ℕ × List UInt8 :=
  (bsize, [size, 0, 0, 0, nblocks, 0, 0, 0, ninodes, 0, 0, 0])

/-- Inode `i` with its type, its link count and its first addresses. -/
def inodeChunk (i : ℕ) (type nlink : UInt8) (addrs : List UInt8) : ℕ × List UInt8 :=
  (inodeOff i, [type, 0, 0, 0, 0, 0, nlink, 0, 0, 0, 0, 0] ++ addrs.flatMap fun a ↦ [a, 0, 0, 0])

/-- Directory entry `e` of block `b`. -/
def direntChunk (b e : ℕ) (inum : UInt8) (name : List UInt8) : ℕ × List UInt8 :=
  (bsize * b + 16 * e, inum :: 0 :: name)

/-- A root directory with a subdirectory (inode 2), a block each, and a file (inode 3) of a direct
block and one that its indirect block lists. -/
def smallImage : Image :=
  ofChunks 9
    [sbChunk 9 5 4, inodeChunk 1 1 1 [4], inodeChunk 2 1 1 [5],
      inodeChunk 3 2 1 [6, 0, 0, 0, 0, 0, 0, 0, 0, 0, 0, 0, 7], (3 * bsize, [0xff, 0x01]),
      (7 * bsize, [8]),
      direntChunk 4 0 1 [46], direntChunk 4 1 1 [46, 46], direntChunk 4 2 2 [100],
      direntChunk 4 3 3 [102], direntChunk 5 0 2 [46], direntChunk 5 1 1 [46, 46]]

set_option maxRecDepth 100000 in
theorem smallImage_accepted : smallImage.Accepted := ⟨5, by decide +kernel⟩

end Image

end Fsck
