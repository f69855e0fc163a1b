import Cs537OS.Fsck.Bounds

/-!
# The directory format check

While it scans the direct blocks of a directory the checker reports a `"."` entry with another
inode number at once, and after each block that `"."` or `".."` has not been seen yet. The flags
are kept from block to block but the test is made after every one of them, so the first direct
block has to hold both names; the blocks listed by the indirect block are not looked at for
either, and a directory without a direct block is not tested at all.

`Image.scanDir_report_iff` says when the report is made and `Image.scanDir_exact_iff` when that is
the case exactly if the directory is badly formatted. An entry of a direct block whose inode
number is no index of the tables ends the run before anything is reported (`Image.StraysIn`).
-/

namespace Fsck

namespace Image

variable (img : Image) (dirarr : ℕ → ℕ) (i : ℕ)

/-- The scan of the entries of directory `i`, after its addresses are checked. -/
def scanDir (s : Scan) : Except Stop Scan := do
  let s ← img.scanDirectBlocks dirarr i s
  img.scanIndirectBlocks dirarr i s

/-- A turn for an entry of directory `j` belongs to inode `j`. -/
theorem eq_of_dirent_mem_inodeTurns {i j off : ℕ} (h : .dirent j off ∈ img.inodeTurns i) :
    j = i := by
  rcases img.mem_inodeTurns h with h | ⟨a, h⟩ | ⟨-, h | h | ⟨-, h | h⟩⟩
  · cases h
  · cases h
  · cases h
  · obtain ⟨a, h | h | h⟩ := img.mem_addrTurns h <;> cases h
  · rcases img.mem_directTurns h with ⟨off', h⟩ | h
    · exact (Turn.dirent.inj h).1
    · cases h
  · rcases img.mem_indirectTurns h with ⟨off', h⟩ | ⟨off', h⟩ <;> cases h

/-- A run comes to the entries of directory `i` with both flags down. -/
theorem flags_of_reached {s : Scan}
    (h : (img.turnsBelow i ++ img.turnsBeforeEntries i).foldlM (img.step dirarr) Scan.zero =
      .ok s) :
    s.findroot i = 0 ∧ s.findcur i = 0 := by
  have hno : ∀ p, ¬ img.Saw p i (img.turnsBelow i ++ img.turnsBeforeEntries i) := by
    rintro p ⟨off, hmem, -⟩
    rcases List.mem_append.1 hmem with hmem | hmem
    · obtain ⟨k, hk, hmem⟩ := List.mem_flatMap.1 hmem
      have hlt : k < i := List.mem_range.1 hk
      have heq := img.eq_of_dirent_mem_inodeTurns hmem
      omega
    · obtain h | ⟨a, h⟩ | h | ⟨a, h | h | h⟩ := img.mem_turnsBeforeEntries hmem <;> cases h
  obtain ⟨-, rfl⟩ := (GuardedLoop.foldlM_eq_ok_iff (img.step_tracks dirarr)).1 h
  exact ⟨not_not.1 (mt (img.after_findroot dirarr _ i).1 (hno _)),
    not_not.1 (mt (img.after_findcur dirarr _ i).1 (hno _))⟩

/-! ### What the format asks for -/

/-- The used entries of the block with address `addr`. -/
def usedIn (addr : ℕ) : List Dirent :=
  ((List.range dpb).map fun e ↦ img.dirent (addrOff addr + 16 * e)).filter (·.inum ≠ 0)

/-- The used entries of the blocks that the indirect block of directory `i` lists. -/
def listedEntries : List Dirent := (img.indirectEntries i).filter (·.inum ≠ 0)

/-- The used entries of directory `i`. -/
def usedEntries : List Dirent := img.directEntries i ++ img.listedEntries i

/-- A `"."` entry of directory `i` with another inode number. -/
def BadDot (d : Dirent) : Prop := d.isDot ∧ i ≠ d.inum

/-- Both names occur. -/
def HasDots (l : List Dirent) : Prop := (∃ d ∈ l, d.isDot) ∧ ∃ d ∈ l, d.isDotDot

/-- Directory `i` is properly formatted: it contains `"."` and `".."`, and every `"."` is `i`. -/
def Formatted : Prop :=
  HasDots (img.usedEntries i) ∧ ∀ d ∈ img.usedEntries i, ¬ BadDot i d

instance (d : Dirent) : Decidable (BadDot i d) := inferInstanceAs (Decidable (_ ∧ _))

instance (l : List Dirent) : Decidable (HasDots l) := inferInstanceAs (Decidable (_ ∧ _))

instance : Decidable (img.Formatted i) := inferInstanceAs (Decidable (_ ∧ _))

theorem directEntries_eq : img.directEntries i = (img.directBlocks i).flatMap img.usedIn := by
  rw [directEntries, List.filter_flatMap]
  rfl

/-! ### What ends the scan of a block -/

/-- The first entry that ends the scan: a bad `"."`, or an inode number beyond the tables. -/
def firstHalt (l : List Dirent) : Option Dirent :=
  l.find? fun d ↦ BadDot i d ∨ ¬ d.inum < img.sb.ninodes

/-- How the scan ends at such an entry. -/
def haltAt (d : Dirent) : Stop := if BadDot i d then .report .badFormat else .outOfBounds

/-- A bad `"."` comes before every inode number beyond the tables. -/
def ReportsIn (l : List Dirent) : Prop := ∃ d, img.firstHalt i l = some d ∧ BadDot i d

/-- An inode number beyond the tables comes before every bad `"."`. -/
def StraysIn (l : List Dirent) : Prop := ∃ d, img.firstHalt i l = some d ∧ ¬ BadDot i d

instance (o : Option Dirent) (p : Dirent → Prop) [DecidablePred p] :
    Decidable (∃ d, o = some d ∧ p d) :=
  match o with
  | none => isFalse fun ⟨_, h, _⟩ ↦ absurd h nofun
  | some d => decidable_of_iff (p d) ⟨fun h ↦ ⟨d, rfl, h⟩, fun ⟨_, h, hp⟩ ↦ Option.some.inj h ▸ hp⟩

instance (l : List Dirent) : Decidable (img.ReportsIn i l) := inferInstanceAs (Decidable (∃ _, _))

instance (l : List Dirent) : Decidable (img.StraysIn i l) := inferInstanceAs (Decidable (∃ _, _))

variable {img dirarr i}

theorem firstHalt_append {l l' : List Dirent} (h : img.firstHalt i l = none) :
    img.firstHalt i (l ++ l') = img.firstHalt i l' := by
  rw [firstHalt] at h
  rw [firstHalt, List.find?_append, h, Option.none_or, firstHalt]

theorem firstHalt_append_of_some {l l' : List Dirent} {d : Dirent}
    (h : img.firstHalt i l = some d) : img.firstHalt i (l ++ l') = some d := by
  rw [firstHalt] at h
  rw [firstHalt, List.find?_append, h, Option.some_or]

/-- A list has a first bad `"."`, a first stray number, or neither. -/
theorem not_reportsIn_iff {l : List Dirent} :
    ¬ img.ReportsIn i l ↔ img.StraysIn i l ∨ img.firstHalt i l = none := by
  rw [ReportsIn, StraysIn]
  rcases img.firstHalt i l with _ | d
  · simp
  · simp

theorem ReportsIn.exists_badDot {l : List Dirent} (h : img.ReportsIn i l) :
    ∃ d ∈ l, BadDot i d := by
  obtain ⟨d, hd, hbad⟩ := h
  exact ⟨d, List.mem_of_find?_eq_some hd, hbad⟩

theorem not_badDot_of_firstHalt {l : List Dirent} (h : img.firstHalt i l = none) :
    ∀ d ∈ l, ¬ BadDot i d := by
  intro d hd hbad
  have hno := List.find?_eq_none.1 h d hd
  simp [hbad] at hno

/-! ### The scan of a block -/

/-- The flags after some entries: set before, or set by one of them. -/
structure Flagged (i : ℕ) (s s' : Scan) (l : List Dirent) : Prop where
  findroot : s'.findroot i ≠ 0 ↔ s.findroot i ≠ 0 ∨ ∃ d ∈ l, d.isDotDot
  findcur : s'.findcur i ≠ 0 ↔ s.findcur i ≠ 0 ∨ ∃ d ∈ l, d.isDot

theorem Flagged.cons {s s₁ s' : Scan} {d : Dirent} {l : List Dirent}
    (h₁ : s₁ = (s.noteDots i d).refer dirarr i d) (h : Flagged i s₁ s' l) :
    Flagged i s s' (d :: l) := by
  subst h₁
  constructor
  · rw [h.findroot]
    by_cases hd : d.isDotDot <;> simp [Scan.noteDots, hd]
  · rw [h.findcur]
    by_cases hd : d.isDot <;> simp [Scan.noteDots, hd]

/-- Whether an entry ends the scan. -/
theorem firstHalt_cons (d : Dirent) (l : List Dirent) :
    img.firstHalt i (d :: l) =
      if BadDot i d ∨ ¬ d.inum < img.sb.ninodes then some d else img.firstHalt i l := by
  rw [firstHalt, List.find?_cons]
  split
  next h => rw [if_pos (of_decide_eq_true h)]
  next h => rw [if_neg (of_decide_eq_false h)]; rfl

/-- A used entry ends the scan or sets its flags. -/
theorem scanDirent_used {off : ℕ} (hr : img.Readable off 16) (hused : (img.dirent off).inum ≠ 0)
    (s : Scan) :
    img.scanDirent dirarr i s off =
      if BadDot i (img.dirent off) ∨ ¬ (img.dirent off).inum < img.sb.ninodes then
        .error (haltAt i (img.dirent off))
      else .ok ((s.noteDots i (img.dirent off)).refer dirarr i (img.dirent off)) := by
  rw [scanDirent, if_neg (not_not.2 hr), if_neg hused, haltAt]
  show (if BadDot i (img.dirent off) then _ else _) = _
  by_cases hbad : BadDot i (img.dirent off)
  · simp [hbad]
  · simp [hbad]

/-- How a scan of entries ends: at the first entry that ends it, and otherwise with the flags the
entries set. -/
structure Ends (img : Image) (i : ℕ) (s : Scan) (l : List Dirent) (r : Except Stop Scan) :
    Prop where
  halted : ∀ d, img.firstHalt i l = some d → r = .error (haltAt i d)
  passed : img.firstHalt i l = none → ∃ s', r = .ok s' ∧ Flagged i s s' l

variable (dirarr) in
/-- The loop over the entries at the offsets `offs`. -/
theorem scanDirents_ends (offs : List ℕ) (hr : ∀ off ∈ offs, img.Readable (off : ℕ) 16)
    (s : Scan) :
    img.Ends i s ((offs.map img.dirent).filter (·.inum ≠ 0))
      (offs.foldlM (img.scanDirent dirarr i) s) := by
  induction offs generalizing s with
  | nil => exact ⟨fun d h ↦ absurd h nofun, fun _ ↦ ⟨s, rfl, by simp, by simp⟩⟩
  | cons off offs ih =>
    obtain ⟨hoff, hr⟩ := List.forall_mem_cons.1 hr
    rw [List.foldlM_cons, List.map_cons]
    rcases eq_or_ne (img.dirent off).inum 0 with hfree | hused
    · rw [scanDirent, if_neg (not_not.2 hoff), if_pos hfree,
        List.filter_cons_of_neg (by simpa using hfree)]
      exact ih hr s
    · rw [scanDirent_used hoff hused, List.filter_cons_of_pos (by simpa using hused)]
      by_cases hhalt : BadDot i (img.dirent off) ∨ ¬ (img.dirent off).inum < img.sb.ninodes
      · rw [if_pos hhalt]
        constructor
        · intro d hd
          rw [firstHalt_cons, if_pos hhalt] at hd
          rw [← Option.some.inj hd]
          rfl
        · intro hno
          rw [firstHalt_cons, if_pos hhalt] at hno
          cases hno
      · -- the entry goes through: the rest is scanned from the flags it sets
        have hrest := ih hr ((s.noteDots i (img.dirent off)).refer dirarr i (img.dirent off))
        rw [if_neg hhalt]
        constructor
        · intro d hd
          rw [firstHalt_cons, if_neg hhalt] at hd
          exact hrest.halted d hd
        · intro hno
          rw [firstHalt_cons, if_neg hhalt] at hno
          obtain ⟨s', hrun, hflag⟩ := hrest.passed hno
          exact ⟨s', hrun, hflag.cons rfl⟩

/-! ### The scan of the direct blocks -/

variable (img dirarr i) in
/-- One direct block of directory `i`, with the test after it. -/
def scanBlock (s : Scan) (addr : ℕ) : Except Stop Scan := do
  let s ← (List.range dpb).foldlM (fun s e ↦ img.scanDirent dirarr i s (addrOff addr + 16 * e)) s
  closeBlock i s

theorem scanDirectBlocks_eq_blocks (s : Scan) :
    img.scanDirectBlocks dirarr i s = (img.directBlocks i).foldlM (img.scanBlock dirarr i) s := by
  rw [directBlocks, List.foldlM_filter, List.foldlM_map, scanDirectBlocks]
  refine congrArg (fun f ↦ List.foldlM f s _) (funext fun s ↦ funext fun k ↦ ?_)
  by_cases h₀ : (img.dinode i).addrs k = 0
  · simp [h₀]
    rfl
  · simp [h₀, scanBlock]

variable (dirarr) in
/-- The entries of a readable block. -/
theorem scanBlock_ends {addr : ℕ} (hr : img.Readable (addrOff addr) bsize) (s : Scan) :
    img.Ends i s (img.usedIn addr)
      ((List.range dpb).foldlM
        (fun s e ↦ img.scanDirent dirarr i s (addrOff addr + 16 * e)) s) := by
  have hoffs : ∀ off ∈ (List.range dpb).map fun e ↦ addrOff addr + 16 * e,
      img.Readable (off : ℕ) 16 := by
    intro off hoff
    obtain ⟨e, he, rfl⟩ := List.mem_map.1 hoff
    have he : e < 32 := List.mem_range.1 he
    have hr : 0 ≤ (addrOff addr : ℤ) ∧ (addrOff addr : ℤ) + 512 ≤ img.stSize := hr
    constructor
    · omega
    · push_cast
      omega
  have hends := scanDirents_ends (i := i) dirarr _ hoffs s
  rw [List.foldlM_map, List.map_map] at hends
  exact hends

theorem haltAt_eq_iff {d : Dirent} : haltAt i d = .report .badFormat ↔ BadDot i d := by
  rw [haltAt]
  split
  next h => simp [h]
  next h => simp [h]

theorem reportsIn_iff_of_some {l : List Dirent} {d : Dirent} (h : img.firstHalt i l = some d) :
    img.ReportsIn i l ↔ BadDot i d := by
  simp [ReportsIn, h]

/-- Once both names were seen, the scan reports exactly when a bad `"."` comes first. -/
theorem scanBlocks_report_iff {blocks : List ℕ}
    (hr : ∀ addr ∈ blocks, img.Readable (addrOff addr) bsize) (s : Scan)
    (hroot : s.findroot i ≠ 0) (hcur : s.findcur i ≠ 0) :
    blocks.foldlM (img.scanBlock dirarr i) s = .error (.report .badFormat) ↔
      img.ReportsIn i (blocks.flatMap img.usedIn) := by
  induction blocks generalizing s with
  | nil => exact ⟨fun h ↦ absurd h nofun, fun ⟨d, h, _⟩ ↦ absurd h nofun⟩
  | cons b blocks ih =>
    obtain ⟨hb, hr⟩ := List.forall_mem_cons.1 hr
    have hends := scanBlock_ends (i := i) dirarr hb s
    rw [List.foldlM_cons, List.flatMap_cons, scanBlock]
    rcases hhalt : img.firstHalt i (img.usedIn b) with _ | d
    · obtain ⟨s', hrun, hflag⟩ := hends.passed hhalt
      have hroot' : s'.findroot i ≠ 0 := hflag.findroot.2 (.inl hroot)
      have hcur' : s'.findcur i ≠ 0 := hflag.findcur.2 (.inl hcur)
      rw [hrun, ReportsIn, firstHalt_append hhalt]
      show (closeBlock i s' >>= _) = _ ↔ _
      rw [closeBlock, if_neg (by simp [hroot', hcur'])]
      exact ih hr s' hroot' hcur'
    · rw [hends.halted d hhalt, reportsIn_iff_of_some (firstHalt_append_of_some hhalt),
        ← haltAt_eq_iff]
      exact ⟨fun h ↦ Except.error.inj h, fun h ↦ congrArg _ h⟩

variable (img i) in
/-- The report is made: the first direct block decides alone when it lacks a name. -/
def Reported : Prop :=
  match img.directBlocks i with
  | [] => False
  | b :: _ =>
    if HasDots (img.usedIn b) then img.ReportsIn i (img.directEntries i)
    else ¬ img.StraysIn i (img.usedIn b)

variable (dirarr) in
theorem scanDirectBlocks_report_iff
    (hr : ∀ addr ∈ img.directBlocks i, img.Readable (addrOff addr) bsize) {s : Scan}
    (hroot : s.findroot i = 0) (hcur : s.findcur i = 0) :
    img.scanDirectBlocks dirarr i s = .error (.report .badFormat) ↔ img.Reported i := by
  rw [scanDirectBlocks_eq_blocks, Reported, directEntries_eq]
  rcases hblocks : img.directBlocks i with _ | ⟨b, blocks⟩
  · exact ⟨fun h ↦ absurd h nofun, False.elim⟩
  rw [hblocks] at hr
  obtain ⟨hb, hr⟩ := List.forall_mem_cons.1 hr
  have hends := scanBlock_ends (i := i) dirarr hb s
  rw [List.foldlM_cons, List.flatMap_cons, scanBlock]
  show _ ↔ if HasDots (img.usedIn b) then _ else _
  rcases hhalt : img.firstHalt i (img.usedIn b) with _ | d
  · -- the first block is scanned to its end, and the flags tell which names it holds
    obtain ⟨s', hrun, hflag⟩ := hends.passed hhalt
    rw [hrun]
    show (closeBlock i s' >>= _) = _ ↔ _
    have hnames : ¬ (s'.findroot i = 0 ∨ s'.findcur i = 0) ↔ HasDots (img.usedIn b) := by
      have h₁ := hflag.findroot
      have h₂ := hflag.findcur
      rw [hroot] at h₁
      rw [hcur] at h₂
      rw [not_or, HasDots]
      exact (and_congr (h₁.trans (by simp)) (h₂.trans (by simp))).trans and_comm
    by_cases hdots : HasDots (img.usedIn b)
    · have hset := hnames.2 hdots
      rw [if_pos hdots, closeBlock, if_neg hset, ReportsIn, firstHalt_append hhalt]
      rw [not_or] at hset
      exact scanBlocks_report_iff hr s' hset.1 hset.2
    · rw [if_neg hdots, closeBlock, if_pos (not_not.1 (mt hnames.1 hdots))]
      exact iff_of_true rfl (by simp [StraysIn, hhalt])
  · -- the first block ends the scan
    rw [hends.halted d hhalt]
    have hend : (Except.error (haltAt i d) : Except Stop Scan) = .error (.report .badFormat) ↔
        BadDot i d := by
      rw [← haltAt_eq_iff]
      exact ⟨fun h ↦ Except.error.inj h, fun h ↦ congrArg _ h⟩
    refine Iff.trans hend ?_
    split
    next => exact (reportsIn_iff_of_some (firstHalt_append_of_some hhalt)).symm
    next => simp [StraysIn, hhalt]

theorem scanIndirectBlocks_ne_report (s : Scan) :
    img.scanIndirectBlocks dirarr i s ≠ .error (.report .badFormat) := by
  have hent : ∀ (s : Scan) (off : ℤ),
      img.scanIndirectDirent dirarr i s off ≠ .error (.report .badFormat) := by
    intro s off h
    rw [scanIndirectDirent] at h
    split_ifs at h <;> cases h
  have hblock : ∀ (s : Scan) (m : ℕ), (do
      let off := addrOff ((img.dinode i).addrs ndirect) + 4 * m
      let s ← img.readWord s off
      if img.word off = 0 then .ok s
      else (List.range dpb).foldlM (fun s (e : ℕ) ↦
          img.scanIndirectDirent dirarr i s (entryOff (img.word off) + 16 * e)) s) ≠
        Except.error (.report .badFormat) := by
    intro s m h
    rcases GuardedLoop.bind_eq_error_iff.1 h with h | ⟨s', -, h⟩
    · rw [readWord] at h
      split_ifs at h
      cases h
    · split at h
      next => cases h
      next => exact GuardedLoop.foldlM_ne_error (fun s e ↦ hent s _) s' _ h
  rw [scanIndirectBlocks]
  split
  next =>
    intro h
    cases h
  next => exact GuardedLoop.foldlM_ne_error hblock s _

/-- **When the scan reports a badly formatted directory.** -/
theorem scanDir_report_iff
    (hr : ∀ addr ∈ img.directBlocks i, img.Readable (addrOff addr) bsize) {s : Scan}
    (hroot : s.findroot i = 0) (hcur : s.findcur i = 0) :
    img.scanDir dirarr i s = .error (.report .badFormat) ↔ img.Reported i := by
  rw [← scanDirectBlocks_report_iff dirarr hr hroot hcur, scanDir,
    GuardedLoop.bind_eq_error_iff]
  refine or_iff_left ?_
  rintro ⟨s', -, h⟩
  exact scanIndirectBlocks_ne_report s' h

/-! ### When the report is exact -/

variable (img i) in
/-- The placement of the entries for which the verdict is right. -/
def FormatShown : Prop :=
  match img.directBlocks i with
  | [] => img.Formatted i
  | b :: _ =>
    if HasDots (img.usedIn b) then
      if img.StraysIn i (img.directEntries i) then img.Formatted i
      else (∃ d ∈ img.directEntries i, BadDot i d) ∨ ∀ d ∈ img.listedEntries i, ¬ BadDot i d
    else if img.StraysIn i (img.usedIn b) then img.Formatted i
    else ¬ img.Formatted i

/-- With both names in the first block, only the numbers of the `"."` entries matter. -/
theorem formatted_iff_of_hasDots {b : ℕ} {blocks : List ℕ}
    (hblocks : img.directBlocks i = b :: blocks) (hdots : HasDots (img.usedIn b)) :
    img.Formatted i ↔
      (∀ d ∈ img.directEntries i, ¬ BadDot i d) ∧ ∀ d ∈ img.listedEntries i, ¬ BadDot i d := by
  have hsub : ∀ d ∈ img.usedIn b, d ∈ img.usedEntries i := by
    intro d hd
    rw [usedEntries, directEntries_eq, hblocks, List.flatMap_cons]
    exact List.mem_append_left _ (List.mem_append_left _ hd)
  obtain ⟨⟨d, hd, hdot⟩, d', hd', hdotdot⟩ := hdots
  have hall : HasDots (img.usedEntries i) := ⟨⟨d, hsub d hd, hdot⟩, d', hsub d' hd', hdotdot⟩
  rw [Formatted, and_iff_right hall, usedEntries, List.forall_mem_append]

theorem reportsIn_iff_of_not_straysIn {l : List Dirent} (h : ¬ img.StraysIn i l) :
    img.ReportsIn i l ↔ ∃ d ∈ l, BadDot i d := by
  refine ⟨ReportsIn.exists_badDot, fun ⟨d, hd, hbad⟩ ↦ ?_⟩
  by_contra hno
  have hnone := (not_reportsIn_iff.1 hno).resolve_left h
  exact not_badDot_of_firstHalt hnone d hd hbad

/-- **When the format check is exact.** Without a direct block, or when an inode number beyond the
tables ends the scan first, nothing is reported, so the directory has to be well formatted. With
both names in the first direct block, a bad `"."` is found in the direct blocks only. Otherwise
the report is made whatever the later blocks hold. -/
theorem scanDir_exact_iff
    (hr : ∀ addr ∈ img.directBlocks i, img.Readable (addrOff addr) bsize) {s : Scan}
    (hroot : s.findroot i = 0) (hcur : s.findcur i = 0) :
    (img.scanDir dirarr i s = .error (.report .badFormat) ↔ ¬ img.Formatted i) ↔
      img.FormatShown i := by
  rw [scanDir_report_iff hr hroot hcur, Reported, FormatShown]
  rcases hblocks : img.directBlocks i with _ | ⟨b, blocks⟩
  · exact ⟨fun h ↦ not_not.1 (mt h.2 id), fun h ↦ iff_of_false id (not_not.2 h)⟩
  show ((if HasDots (img.usedIn b) then _ else _) ↔ _) ↔ if HasDots (img.usedIn b) then _ else _
  by_cases hdots : HasDots (img.usedIn b)
  · rw [if_pos hdots, if_pos hdots]
    by_cases hstray : img.StraysIn i (img.directEntries i)
    · have hno : ¬ img.ReportsIn i (img.directEntries i) := not_reportsIn_iff.2 (.inl hstray)
      rw [if_pos hstray]
      exact ⟨fun h ↦ not_not.1 (mt h.2 hno), fun h ↦ iff_of_false hno (not_not.2 h)⟩
    · rw [if_neg hstray, reportsIn_iff_of_not_straysIn hstray,
        formatted_iff_of_hasDots hblocks hdots]
      grind
  · rw [if_neg hdots, if_neg hdots]
    by_cases hstray : img.StraysIn i (img.usedIn b)
    · rw [if_pos hstray]
      exact ⟨fun h ↦ not_not.1 (mt h.2 (not_not.2 hstray)),
        fun h ↦ iff_of_false (not_not.2 hstray) (not_not.2 h)⟩
    · rw [if_neg hstray]
      exact iff_true_left hstray

set_option maxRecDepth 100000 in
/-- The subdirectory of the small image has both names in its one block. -/
theorem smallImage_scanDir_exact :
    smallImage.scanDir smallImage.dirTable 2 Scan.zero = .error (.report .badFormat) ↔
      ¬ smallImage.Formatted 2 := by
  have hblocks : smallImage.directBlocks 2 = [5] := by decide +kernel
  refine (scanDir_exact_iff (by decide +kernel) rfl rfl).2 ?_
  rw [FormatShown, hblocks]
  show if _ then _ else _
  rw [if_pos (by decide +kernel), if_neg (by decide +kernel)]
  exact .inr (by decide +kernel)

/-- A root directory with its two names in two blocks. -/
def splitImage : Image :=
  ofChunks 6
    [sbChunk 6 2 2, inodeChunk 1 1 1 [4, 5], (3 * bsize, [0x3f]),
      direntChunk 4 0 1 [46], direntChunk 5 0 1 [46, 46]]

set_option maxRecDepth 100000 in
/-- The directory is well formatted, and the checker reports it. -/
theorem splitImage_reported :
    splitImage.IsDir 1 ∧ (∀ b ∈ splitImage.directBlocks 1, b = 4 ∨ b = 5) ∧
      splitImage.Formatted 1 ∧ splitImage.checkMode 5 = .error (.report .badFormat) := by
  refine ⟨by decide +kernel, by decide +kernel, by decide +kernel, by decide +kernel⟩

end Image

end Fsck
