import Cs537OS.Fsck.ScanOrder
import Mathlib.Data.List.Nodup
import Mathlib.Tactic.SplitIfs

/-!
# What the inode scan leaves behind

The specification of a turn of the scan is one equation, `Image.step_eq_ok_iff`: the turn goes
through exactly when it `Admits` the tables it starts from, and then the tables move by `update`.
A completed scan (`Image.scanInodes_eq_ok_iff`) admitted every turn, and what the tables hold at
its end (`Image.Completed` of `Cs537OS.Fsck.Accepted`) is the abstract reading of the image of
`Cs537OS.Fsck.Contents`:

* `visitblock[b]` counts the uses of block `b`, `inodeinuse[i]` says whether inode `i` is in use;
* `inoderefer[j]` counts the scanned entries with inode number `j`, and `dirreference[j]` those of
  them that name a directory properly;
* `childentry[i][j]` says that directory `i` names directory `j` properly;
* `parentinum[i]` is the parent directory `i` recorded.
-/

namespace Fsck

namespace Image

variable (img : Image) (dirarr : ℕ → ℕ)

/-! ### One turn -/

/-- The tests that a turn makes when it goes through. -/
def Admits (s : Scan) : Turn → Prop
  | .inode i =>
    img.Readable (inodeOff i) 64 ∧ ValidType (img.dinode i).type ∧
      (i = rootino → (img.dinode i).type = tDir)
  | .rootBlock addr =>
    addr ≠ 0 → img.checkRootEntries (addrOff addr) (List.range dpb) = .ok ()
  | .inuse _ => True
  | .direct addr =>
    addr ≠ 0 → img.InRange (addrOff addr) ∧ (addr : ℤ) < img.totalblocks ∧
      s.visitblock addr = 0 ∧ img.Marked addr
  | .indirect addr => (addr : ℤ) < img.totalblocks ∧ img.InRange (addrOff addr)
  | .entry off =>
    img.Readable off 4 ∧ (img.u32 off ≠ 0 →
      img.InRange (entryOff (img.word off)) ∧ 0 ≤ img.word off ∧ img.word off < img.totalblocks ∧
        s.visitblock (img.u32 off) = 0 ∧ img.Marked (img.u32 off))
  | .dirent i off =>
    img.Readable off 16 ∧ ((img.dirent off).inum ≠ 0 →
      ((img.dirent off).isDot → i = (img.dirent off).inum) ∧
        (img.dirent off).inum < img.sb.ninodes)
  | .closeBlock i => s.findroot i ≠ 0 ∧ s.findcur i ≠ 0
  | .reread off => img.Readable off 4
  | .indirectDirent _ off =>
    img.Readable off 16 ∧ (img.dirent off.toNat).inum < img.sb.ninodes

theorem marked_iff {b : ℕ} :
    img.Marked b ↔ img.bitStart + b / 8 < img.stSize ∧ bitSet (img.bitByte b) b := by
  rw [Marked, bitSet_iff]

private theorem checkInode_eq_ok_iff {s s' : Scan} {i : ℕ} :
    img.checkInode s i = .ok s' ↔ img.Admits s (.inode i) ∧ s' = s := by
  rw [Admits, checkInode]
  split_ifs <;> grind

private theorem checkRootBlock_eq_ok_iff {s s' : Scan} {addr : ℕ} :
    img.checkRootBlock s addr = .ok s' ↔ img.Admits s (.rootBlock addr) ∧ s' = s := by
  rw [Admits, checkRootBlock]
  rcases img.checkRootEntries (addrOff addr) (List.range dpb) with e | ⟨⟩ <;>
    split_ifs <;> grind

private theorem checkDirect_eq_ok_iff {s s' : Scan} {addr : ℕ} :
    img.checkDirect s addr = .ok s' ↔
      img.Admits s (.direct addr) ∧ s' = img.update dirarr s (.direct addr) := by
  rw [Admits, marked_iff, update, checkDirect, Scan.visit_visitblock, bump_self]
  split_ifs <;> grind

private theorem checkIndirect_eq_ok_iff {s s' : Scan} {addr : ℕ} :
    img.checkIndirect s addr = .ok s' ↔
      img.Admits s (.indirect addr) ∧ s' = img.update dirarr s (.indirect addr) := by
  rw [Admits, update, checkIndirect]
  split_ifs <;> grind

private theorem checkEntry_eq_ok_iff {s s' : Scan} {off : ℕ} :
    img.checkEntry s off = .ok s' ↔
      img.Admits s (.entry off) ∧ s' = img.update dirarr s (.entry off) := by
  have h₀ : img.word off = 0 ↔ img.u32 off = 0 := img.word_eq_zero_iff
  rw [Admits, update, checkEntry]
  by_cases hneg : 0 ≤ img.word off
  · rw [img.word_toNat hneg, marked_iff]
    simp only [Scan.visit_visitblock, bump_self]
    split_ifs <;> grind
  · split_ifs <;> grind

private theorem scanDirent_eq_ok_iff {s s' : Scan} {i off : ℕ} :
    img.scanDirent dirarr i s off = .ok s' ↔
      img.Admits s (.dirent i off) ∧ s' = img.update dirarr s (.dirent i off) := by
  rw [Admits, update, scanDirent]
  split_ifs <;> grind

private theorem closeBlock_eq_ok_iff {s s' : Scan} {i : ℕ} :
    closeBlock i s = .ok s' ↔ img.Admits s (.closeBlock i) ∧ s' = s := by
  rw [Admits, closeBlock]
  split_ifs <;> grind

private theorem readWord_eq_ok_iff {s s' : Scan} {off : ℕ} :
    img.readWord s off = .ok s' ↔ img.Admits s (.reread off) ∧ s' = s := by
  rw [Admits, readWord]
  split_ifs <;> grind

private theorem scanIndirectDirent_eq_ok_iff {s s' : Scan} {i : ℕ} {off : ℤ} :
    img.scanIndirectDirent dirarr i s off = .ok s' ↔
      img.Admits s (.indirectDirent i off) ∧
        s' = img.update dirarr s (.indirectDirent i off) := by
  rw [Admits, update, scanIndirectDirent]
  split_ifs <;> grind

/-- **The specification of a turn.** -/
theorem step_eq_ok_iff {s s' : Scan} {t : Turn} :
    img.step dirarr s t = .ok s' ↔ img.Admits s t ∧ s' = img.update dirarr s t := by
  cases t with
  | inode i => exact img.checkInode_eq_ok_iff
  | rootBlock addr => exact img.checkRootBlock_eq_ok_iff
  | inuse i => exact ⟨fun h ↦ ⟨trivial, (Except.ok.inj h).symm⟩, fun h ↦ congrArg _ h.2.symm⟩
  | direct addr => exact img.checkDirect_eq_ok_iff dirarr
  | indirect addr => exact img.checkIndirect_eq_ok_iff dirarr
  | entry off => exact img.checkEntry_eq_ok_iff dirarr
  | dirent i off => exact img.scanDirent_eq_ok_iff dirarr
  | closeBlock i => exact img.closeBlock_eq_ok_iff
  | reread off => exact img.readWord_eq_ok_iff
  | indirectDirent i off => exact img.scanIndirectDirent_eq_ok_iff dirarr

theorem step_tracks : GuardedLoop.Tracks (img.step dirarr) (img.update dirarr) :=
  fun _ _ _ h ↦ ((img.step_eq_ok_iff dirarr).1 h).2

/-- The tables after the turns `l`, from zeroed tables. -/
def after (l : List Turn) : Scan := l.foldl (img.update dirarr) Scan.zero

/-- Every turn of `l` is admitted by the tables its predecessors leave. -/
def AllAdmitted (l : List Turn) : Prop :=
  ∀ pre t post, l = pre ++ t :: post → img.Admits (img.after dirarr pre) t

theorem passes_iff_allAdmitted {l : List Turn} :
    GuardedLoop.Passes (img.step dirarr) (img.update dirarr) Scan.zero l ↔
      img.AllAdmitted dirarr l := by
  refine forall₄_congr fun pre t post _ ↦ ?_
  rw [step_eq_ok_iff]
  exact and_iff_left rfl

/-- **A completed scan.** Every turn was admitted. -/
theorem scanInodes_eq_ok_iff {s : Scan} :
    img.scanInodes dirarr = .ok s ↔
      img.AllAdmitted dirarr img.scanOrder ∧ s = img.after dirarr img.scanOrder := by
  rw [scanInodes_eq, GuardedLoop.foldlM_eq_ok_iff (img.step_tracks dirarr),
    passes_iff_allAdmitted, after]

/-! ### What the turns touch -/

/-- The block a turn counts in `visitblock`. -/
def blockOf : Turn → Option ℕ
  | .direct addr => Option.guard (· ≠ 0) addr
  | .indirect addr => some addr
  | .entry off => Option.guard (· ≠ 0) (img.u32 off)
  | _ => none

/-- The inode a turn marks in use. -/
def inuseOf : Turn → Option ℕ
  | .inuse i => some i
  | _ => none

/-- The directory entry a turn counts. -/
def entryOf : Turn → Option Entry
  | .dirent i off => if (img.dirent off).inum = 0 then none else some ⟨i, img.dirent off⟩
  | .indirectDirent i off => some ⟨i, img.dirent off.toNat⟩
  | _ => none

/-- The parent a turn records for directory `i`. -/
def dotDotOf (i : ℕ) : Turn → Option ℕ
  | .dirent k off =>
    if k = i ∧ (img.dirent off).inum ≠ 0 ∧ (img.dirent off).isDotDot then
      some (img.dirent off).inum
    else none
  | _ => none

theorem mem_rootTurns {i : ℕ} {t : Turn} (h : t ∈ img.rootTurns i) :
    ∃ addr, t = .rootBlock addr := by
  rw [rootTurns] at h
  split at h
  · obtain ⟨k, -, rfl⟩ := List.mem_map.1 h
    exact ⟨_, rfl⟩
  · exact absurd h List.not_mem_nil

theorem mem_addrTurns {i : ℕ} {t : Turn} (h : t ∈ img.addrTurns i) :
    ∃ a, t = .direct a ∨ t = .indirect a ∨ t = .entry a := by
  rcases List.mem_append.1 h with h | h
  · obtain ⟨j, -, rfl⟩ := List.mem_map.1 h
    exact ⟨_, .inl rfl⟩
  · split at h
    · exact absurd h List.not_mem_nil
    · rcases List.mem_cons.1 h with rfl | h
      · exact ⟨_, .inr (.inl rfl)⟩
      · obtain ⟨k, -, rfl⟩ := List.mem_map.1 h
        exact ⟨_, .inr (.inr rfl)⟩

theorem mem_directTurns {i : ℕ} {t : Turn} (h : t ∈ img.directTurns i) :
    (∃ off, t = .dirent i off) ∨ t = .closeBlock i := by
  obtain ⟨k, -, h⟩ := List.mem_flatMap.1 h
  split at h
  · exact absurd h List.not_mem_nil
  · rcases List.mem_append.1 h with h | h
    · obtain ⟨e, -, rfl⟩ := List.mem_map.1 h
      exact .inl ⟨_, rfl⟩
    · exact .inr (List.mem_singleton.1 h)

theorem mem_indirectTurns {i : ℕ} {t : Turn} (h : t ∈ img.indirectTurns i) :
    (∃ off, t = .reread off) ∨ ∃ off, t = .indirectDirent i off := by
  rw [indirectTurns] at h
  split at h
  · exact absurd h List.not_mem_nil
  · obtain ⟨m, -, h⟩ := List.mem_flatMap.1 h
    rcases List.mem_cons.1 h with rfl | h
    · exact .inl ⟨_, rfl⟩
    · split at h
      · exact absurd h List.not_mem_nil
      · obtain ⟨e, -, rfl⟩ := List.mem_map.1 h
        exact .inr ⟨_, rfl⟩

/-- What the turns of one inode touch, when the tests on the inode itself and the pass over the
root directory touch nothing. -/
theorem filterMap_inodeTurns {γ : Type*} (pick : Turn → Option γ) (i : ℕ)
    (hi : ∀ i, pick (.inode i) = none) (hr : ∀ a, pick (.rootBlock a) = none) :
    (img.inodeTurns i).filterMap pick =
      if (img.dinode i).type = 0 then []
      else (pick (.inuse i)).toList ++ ((img.addrTurns i).filterMap pick ++
        if (img.dinode i).type = tDir then
          (img.directTurns i).filterMap pick ++ (img.indirectTurns i).filterMap pick
        else []) := by
  have hroot : (img.rootTurns i).filterMap pick = [] := by
    rw [List.filterMap_eq_nil_iff]
    intro t ht
    obtain ⟨addr, rfl⟩ := img.mem_rootTurns ht
    exact hr addr
  rw [inodeTurns, List.filterMap_cons_none (hi i), List.filterMap_append, hroot, List.nil_append]
  by_cases h₀ : (img.dinode i).type = 0
  · rw [if_pos h₀, if_pos h₀, List.filterMap_nil]
  · rw [if_neg h₀, if_neg h₀]
    have hrest : (img.addrTurns i ++ if (img.dinode i).type = tDir then
        img.directTurns i ++ img.indirectTurns i else []).filterMap pick =
          (img.addrTurns i).filterMap pick ++ if (img.dinode i).type = tDir then
            (img.directTurns i).filterMap pick ++ (img.indirectTurns i).filterMap pick
          else [] := by
      rw [List.filterMap_append]
      split <;> simp
    rcases hp : pick (.inuse i) with - | c
    · rw [List.filterMap_cons_none hp, hrest]
      rfl
    · rw [List.filterMap_cons_some hp, hrest]
      rfl

theorem filterMap_blockOf_addrTurns (i : ℕ) :
    (img.addrTurns i).filterMap img.blockOf = img.inodeBlocks i := by
  have hd : ((List.range ndirect).map fun j ↦ Turn.direct ((img.dinode i).addrs j)).filterMap
      img.blockOf = img.directBlocks i := by
    rw [directBlocks, ← List.filterMap_eq_filter, List.filterMap_map, List.filterMap_map]
    rfl
  have he : ((List.range nindirect).map fun k ↦ Turn.entry (img.entryAt i k)).filterMap
      img.blockOf = img.indirectBlocks i := by
    rw [indirectBlocks, ← List.filterMap_eq_filter, List.filterMap_map, List.filterMap_map]
    rfl
  rw [addrTurns, List.filterMap_append, hd, inodeBlocks]
  split
  · rfl
  · rw [List.filterMap_cons, he]
    rfl

/-- The blocks counted by the turns of the inodes below `n` are the blocks those inodes use. -/
theorem filterMap_blockOf (n : ℕ) :
    (img.turnsBelow n).filterMap img.blockOf = img.blocksBelow n := by
  rw [turnsBelow, List.filterMap_flatMap, blocksBelow]
  refine congrArg (fun g ↦ (List.range n).flatMap g) (funext fun i ↦ ?_)
  have hd : (img.directTurns i).filterMap img.blockOf = [] := by
    rw [List.filterMap_eq_nil_iff]
    intro t ht
    rcases img.mem_directTurns ht with ⟨off, rfl⟩ | rfl <;> rfl
  have hi : (img.indirectTurns i).filterMap img.blockOf = [] := by
    rw [List.filterMap_eq_nil_iff]
    intro t ht
    rcases img.mem_indirectTurns ht with ⟨off, rfl⟩ | ⟨off, rfl⟩ <;> rfl
  rw [filterMap_inodeTurns _ _ _ (fun _ ↦ rfl) (fun _ ↦ rfl), filterMap_blockOf_addrTurns, hd, hi]
  simp [blockOf]

/-- Skipped items of a nested loop contribute no turns. -/
private theorem flatMap_map_filter {α β γ : Type*} (f : α → β) (p : β → Bool) (g : β → List γ)
    (l : List α) :
    ((l.map f).filter p).flatMap g = l.flatMap fun a ↦ if p (f a) then g (f a) else [] := by
  induction l with
  | nil => rfl
  | cons a l ih =>
    rw [List.map_cons, List.filter_cons, List.flatMap_cons]
    split <;> simp [*]

theorem filterMap_entryOf_directTurns (i : ℕ) :
    (img.directTurns i).filterMap img.entryOf = (img.directEntries i).map (Entry.mk i) := by
  rw [directTurns, List.filterMap_flatMap, directEntries, directBlocks, flatMap_map_filter,
    ← List.filterMap_eq_filter, List.filterMap_flatMap, List.map_flatMap]
  refine congrArg (fun g ↦ (List.range ndirect).flatMap g) (funext fun k ↦ ?_)
  by_cases hk : (img.dinode i).addrs k = 0
  · simp [hk]
  · rw [if_neg hk, if_pos (by simpa using hk), List.filterMap_append, List.filterMap_map,
      List.filterMap_map, List.map_filterMap]
    have hclose : [Turn.closeBlock i].filterMap img.entryOf = [] := rfl
    rw [hclose, List.append_nil]
    refine congrArg (fun g ↦ (List.range dpb).filterMap g) (funext fun e ↦ ?_)
    simp only [Function.comp_apply, entryOf, Option.guard]
    split_ifs <;> simp_all

theorem filterMap_entryOf_indirectTurns (i : ℕ) :
    (img.indirectTurns i).filterMap img.entryOf = (img.indirectEntries i).map (Entry.mk i) := by
  rw [indirectTurns, indirectEntries]
  split
  · rfl
  · rw [List.filterMap_flatMap, flatMap_map_filter, List.map_flatMap]
    refine congrArg (fun g ↦ (List.range nindirect).flatMap g) (funext fun m ↦ ?_)
    rw [List.filterMap_cons_none rfl]
    by_cases hm : img.word (img.entryAt i m) = 0
    · simp [hm]
    · rw [if_neg hm, if_pos (by simpa using hm), List.filterMap_map, List.map_map,
        ← List.filterMap_eq_map]
      rfl

/-- The entries counted by the scan are the scanned entries. -/
theorem filterMap_entryOf : img.scanOrder.filterMap img.entryOf = img.scannedEntries := by
  rw [scanOrder, turnsBelow, List.filterMap_flatMap, scannedEntries]
  refine congrArg (fun g ↦ (List.range img.sb.ninodes).flatMap g) (funext fun i ↦ ?_)
  have ha : (img.addrTurns i).filterMap img.entryOf = [] := by
    rw [List.filterMap_eq_nil_iff]
    intro t ht
    obtain ⟨a, rfl | rfl | rfl⟩ := img.mem_addrTurns ht <;> rfl
  rw [filterMap_inodeTurns _ _ _ (fun _ ↦ rfl) (fun _ ↦ rfl), ha,
    filterMap_entryOf_directTurns, filterMap_entryOf_indirectTurns, dirEntries, List.map_append]
  by_cases hd : (img.dinode i).type = tDir
  · rw [if_pos hd, if_neg (by rw [hd]; decide)]
    rfl
  · rw [if_neg hd]
    split <;> rfl

/-- A loop over a range in which one index alone contributes. -/
private theorem flatMap_range_single {γ : Type*} (n i : ℕ) (x : List γ) :
    ((List.range n).flatMap fun k ↦ if k = i then x else []) = if i < n then x else [] := by
  induction n with
  | zero => rfl
  | succ n ih =>
    rw [List.range_succ, List.flatMap_append, ih, List.flatMap_cons, List.flatMap_nil,
      List.append_nil]
    split_ifs <;> simp_all <;> omega

theorem filterMap_dotDotOf_directTurns (i k : ℕ) :
    (img.directTurns k).filterMap (img.dotDotOf i) =
      if k = i then ((img.directEntries i).filter (·.isDotDot)).map (·.inum) else [] := by
  -- a recorded parent is one of the entries the same turns count
  have hpick : img.dotDotOf i = fun t ↦ match t with
      | .dirent k off => (img.entryOf (.dirent k off)).bind fun x ↦
          if x.dir = i ∧ x.ent.isDotDot then some x.ent.inum else none
      | _ => none := by
    funext t
    cases t with
    | dirent k off =>
      simp only [dotDotOf, entryOf]
      split_ifs <;> simp_all
    | _ => rfl
  have hbind : (img.directTurns k).filterMap (img.dotDotOf i) =
      (img.directTurns k).filterMap fun t ↦ (img.entryOf t).bind fun x ↦
        if x.dir = i ∧ x.ent.isDotDot then some x.ent.inum else none := by
    refine List.filterMap_congr fun t ht ↦ ?_
    rw [hpick]
    rcases img.mem_directTurns ht with ⟨off, rfl⟩ | rfl <;> rfl
  rw [hbind, ← List.filterMap_filterMap, filterMap_entryOf_directTurns, List.filterMap_map]
  split
  case isTrue hk =>
    subst hk
    rw [← List.filterMap_eq_map, List.filterMap_filter]
    refine congrArg (fun g ↦ (img.directEntries k).filterMap g) (funext fun d ↦ ?_)
    simp
  case isFalse hk =>
    rw [List.filterMap_eq_nil_iff]
    intro d _
    simp [hk]

/-- The parents recorded for directory `i` are its used `".."` entries. -/
theorem filterMap_dotDotOf (i : ℕ) :
    img.scanOrder.filterMap (img.dotDotOf i) = img.dotDots i := by
  rw [scanOrder, turnsBelow, List.filterMap_flatMap]
  have hturns : ∀ k, (img.inodeTurns k).filterMap (img.dotDotOf i) =
      if k = i then
        if (img.dinode i).type = tDir then
          ((img.directEntries i).filter (·.isDotDot)).map (·.inum)
        else []
      else [] := by
    intro k
    have ha : (img.addrTurns k).filterMap (img.dotDotOf i) = [] := by
      rw [List.filterMap_eq_nil_iff]
      intro t ht
      obtain ⟨a, rfl | rfl | rfl⟩ := img.mem_addrTurns ht <;> rfl
    have hi : (img.indirectTurns k).filterMap (img.dotDotOf i) = [] := by
      rw [List.filterMap_eq_nil_iff]
      intro t ht
      rcases img.mem_indirectTurns ht with ⟨off, rfl⟩ | ⟨off, rfl⟩ <;> rfl
    rw [filterMap_inodeTurns _ _ _ (fun _ ↦ rfl) (fun _ ↦ rfl), ha, hi,
      filterMap_dotDotOf_directTurns]
    by_cases hk : k = i
    · subst hk
      by_cases hd : (img.dinode k).type = tDir
      · rw [if_neg (by rw [hd]; decide)]
        simp [hd, dotDotOf]
      · simp [hd, dotDotOf]
    · simp [hk, dotDotOf]
  simp only [hturns]
  rw [flatMap_range_single, dotDots]
  by_cases hi : i < img.sb.ninodes <;> by_cases hd : (img.dinode i).type = tDir <;>
    simp [IsDir, hi, hd]

/-- The inodes marked in use by the scan are the in-use inodes, each marked once. -/
theorem countP_inuseOf (i : ℕ) :
    (img.scanOrder.filterMap inuseOf).countP (· = i) = if img.InUse i then 1 else 0 := by
  have hturns : ∀ k, (img.inodeTurns k).filterMap inuseOf =
      if (img.dinode k).type = 0 then [] else [k] := by
    intro k
    have ha : (img.addrTurns k).filterMap inuseOf = [] := by
      rw [List.filterMap_eq_nil_iff]
      intro t ht
      obtain ⟨a, rfl | rfl | rfl⟩ := img.mem_addrTurns ht <;> rfl
    have hd : (img.directTurns k).filterMap inuseOf = [] := by
      rw [List.filterMap_eq_nil_iff]
      intro t ht
      rcases img.mem_directTurns ht with ⟨off, rfl⟩ | rfl <;> rfl
    have hi : (img.indirectTurns k).filterMap inuseOf = [] := by
      rw [List.filterMap_eq_nil_iff]
      intro t ht
      rcases img.mem_indirectTurns ht with ⟨off, rfl⟩ | ⟨off, rfl⟩ <;> rfl
    rw [filterMap_inodeTurns _ _ _ (fun _ ↦ rfl) (fun _ ↦ rfl), ha, hd, hi]
    simp [inuseOf]
  have hfilter : (img.scanOrder.filterMap inuseOf).filter (· = i) =
      (List.range img.sb.ninodes).flatMap fun k ↦
        if k = i then if (img.dinode i).type = 0 then [] else [i] else [] := by
    rw [scanOrder, turnsBelow, List.filterMap_flatMap, List.filter_flatMap]
    refine congrArg (fun g ↦ (List.range img.sb.ninodes).flatMap g) (funext fun k ↦ ?_)
    rw [hturns]
    split_ifs <;> simp_all
  rw [List.countP_eq_length_filter, hfilter, flatMap_range_single]
  by_cases hi : i < img.sb.ninodes <;> by_cases h₀ : (img.dinode i).type = 0 <;>
    simp [InUse, hi, h₀]

/-! ### The tables after a sequence of turns -/

/-- `visitblock` counts the blocks touched. -/
theorem after_visitblock (l : List Turn) (b : ℕ) :
    (img.after dirarr l).visitblock b = (l.filterMap img.blockOf).count b := by
  have h := GuardedLoop.foldl_counter (img.update dirarr) (fun s ↦ s.visitblock b)
    img.blockOf (· == b) (fun s t ↦ ?_) Scan.zero l
  · exact h.trans (Nat.zero_add _)
  · have hbump : ∀ c, bump s.visitblock c b = s.visitblock b + if c = b then 1 else 0 := by
      intro c
      by_cases hc : c = b
      · simp [hc]
      · simp [bump_of_ne _ (Ne.symm hc), hc]
    cases t with
    | direct addr => by_cases h₀ : addr = 0 <;> simp [update, blockOf, Option.guard, h₀, hbump]
    | indirect addr => simp [update, blockOf, hbump]
    | entry off => by_cases h₀ : img.u32 off = 0 <;> simp [update, blockOf, Option.guard, h₀, hbump]
    | dirent i off => by_cases h₀ : (img.dirent off).inum = 0 <;> simp [update, blockOf, h₀]
    | _ => simp [update, blockOf]

/-- `inodeinuse` counts the inodes marked. -/
theorem after_inodeinuse (l : List Turn) (i : ℕ) :
    (img.after dirarr l).inodeinuse i = (l.filterMap inuseOf).countP (· = i) := by
  have h := GuardedLoop.foldl_counter (img.update dirarr) (fun s ↦ s.inodeinuse i)
    inuseOf (· = i) (fun s t ↦ ?_) Scan.zero l
  · exact h.trans (Nat.zero_add _)
  · cases t with
    | inuse k =>
      by_cases hk : k = i
      · simp [update, inuseOf, hk]
      · simp [update, inuseOf, hk, bump_of_ne _ (Ne.symm hk)]
    | direct addr => by_cases h₀ : addr = 0 <;> simp [update, inuseOf, h₀]
    | entry off => by_cases h₀ : img.u32 off = 0 <;> simp [update, inuseOf, h₀]
    | dirent k off => by_cases h₀ : (img.dirent off).inum = 0 <;> simp [update, inuseOf, h₀]
    | _ => simp [update, inuseOf]

/-- `inoderefer` counts the entries with a given inode number. -/
theorem after_inoderefer (l : List Turn) (j : ℕ) :
    (img.after dirarr l).inoderefer j =
      (l.filterMap img.entryOf).countP fun x ↦ x.ent.inum = j := by
  have h := GuardedLoop.foldl_counter (img.update dirarr) (fun s ↦ s.inoderefer j)
    img.entryOf (fun x ↦ x.ent.inum = j) (fun s t ↦ ?_) Scan.zero l
  · exact h.trans (Nat.zero_add _)
  · have hbump : ∀ c, bump s.inoderefer c j = s.inoderefer j + if c = j then 1 else 0 := by
      intro c
      by_cases hc : c = j
      · simp [hc]
      · simp [bump_of_ne _ (Ne.symm hc), hc]
    cases t with
    | direct addr => by_cases h₀ : addr = 0 <;> simp [update, entryOf, h₀]
    | entry off => by_cases h₀ : img.u32 off = 0 <;> simp [update, entryOf, h₀]
    | dirent i off =>
      by_cases h₀ : (img.dirent off).inum = 0
      · simp [update, entryOf, h₀]
      · simp [update, entryOf, h₀, hbump, List.countP_cons]
    | indirectDirent i off => simp [update, entryOf, hbump, List.countP_cons]
    | _ => simp [update, entryOf]

/-- `dirreference` counts the entries that name a given directory properly. -/
theorem after_dirreference (l : List Turn) {j : ℕ} (hj : dirarr j = 1) :
    (img.after dirarr l).dirreference j =
      (l.filterMap img.entryOf).countP fun x ↦ x.ent.inum = j ∧ x.ent.isProper := by
  have h := GuardedLoop.foldl_counter (img.update dirarr) (fun s ↦ s.dirreference j)
    img.entryOf (fun x ↦ x.ent.inum = j ∧ x.ent.isProper) (fun s t ↦ ?_) Scan.zero l
  · exact h.trans (Nat.zero_add _)
  · have hrefer : ∀ (s : Scan) (i : ℕ) (d : Dirent), (s.refer dirarr i d).dirreference j =
        s.dirreference j + if d.inum = j ∧ d.isProper then 1 else 0 := by
      intro s i d
      rw [Scan.refer_dirreference]
      by_cases hd : d.inum = j
      · by_cases hp : d.isProper <;> simp [hd, hj, hp]
      · split_ifs <;> simp_all [bump_of_ne _ (Ne.symm hd)]
    cases t with
    | direct addr => by_cases h₀ : addr = 0 <;> simp [update, entryOf, h₀]
    | entry off => by_cases h₀ : img.u32 off = 0 <;> simp [update, entryOf, h₀]
    | dirent i off =>
      by_cases h₀ : (img.dirent off).inum = 0
      · simp [update, entryOf, h₀]
      · simp only [update, entryOf, h₀, if_false, hrefer, Scan.noteDots_dirreference]
        simp [List.countP_cons]
    | indirectDirent i off =>
      simp only [update, entryOf, hrefer]
      simp [List.countP_cons]
    | _ => simp [update, entryOf]

/-- `childentry` remembers which directory names which directory properly. -/
theorem after_childentry (l : List Turn) (i j : ℕ) :
    (img.after dirarr l).childentry i j = 1 ↔
      dirarr j = 1 ∧ ∃ x ∈ l.filterMap img.entryOf,
        x.dir = i ∧ x.ent.inum = j ∧ x.ent.isProper := by
  have hrefer : ∀ (s : Scan) (k : ℕ) (d : Dirent), (s.refer dirarr k d).childentry i j = 1 ↔
      s.childentry i j = 1 ∨ dirarr j = 1 ∧ k = i ∧ d.inum = j ∧ d.isProper := by
    intro s k d
    rw [Scan.refer_childentry]
    by_cases hk : i = k
    · subst hk
      by_cases hd : j = d.inum
      · subst hd
        split_ifs <;> simp_all
      · split_ifs <;> simp_all [Ne.symm hd]
    · split_ifs <;> simp_all [Ne.symm hk]
  have h := GuardedLoop.foldl_flag (img.update dirarr) (fun s ↦ s.childentry i j = 1)
    (fun t ↦ dirarr j = 1 ∧ ∃ x, img.entryOf t = some x ∧
      x.dir = i ∧ x.ent.inum = j ∧ x.ent.isProper) (fun s t ↦ ?_) Scan.zero l
  · rw [after, h]
    simp only [Scan.zero, Nat.zero_ne_one, false_or, List.mem_filterMap]
    constructor
    · rintro ⟨t, ht, hj, x, hx, hrest⟩
      exact ⟨hj, x, ⟨t, ht, hx⟩, hrest⟩
    · rintro ⟨hj, x, ⟨t, ht, hx⟩, hrest⟩
      exact ⟨t, ht, hj, x, hx, hrest⟩
  · cases t with
    | direct addr => by_cases h₀ : addr = 0 <;> simp [update, entryOf, h₀]
    | entry off => by_cases h₀ : img.u32 off = 0 <;> simp [update, entryOf, h₀]
    | dirent k off =>
      by_cases h₀ : (img.dirent off).inum = 0
      · simp [update, entryOf, h₀]
      · simp only [update, entryOf, h₀, if_false, hrefer, Scan.noteDots_childentry]
        simp
    | indirectDirent k off =>
      simp only [update, entryOf, hrefer]
      simp
    | _ => simp [update, entryOf]

/-- `parentinum` holds the last parent recorded. -/
theorem after_parentinum (l : List Turn) (i : ℕ) :
    (img.after dirarr l).parentinum i = ((l.filterMap (img.dotDotOf i)).getLast?).getD 0 := by
  refine GuardedLoop.foldl_register (img.update dirarr) (fun s ↦ s.parentinum i)
    (img.dotDotOf i) (fun s t ↦ ?_) Scan.zero l
  cases t with
  | direct addr => by_cases h₀ : addr = 0 <;> simp [update, dotDotOf, h₀]
  | entry off => by_cases h₀ : img.u32 off = 0 <;> simp [update, dotDotOf, h₀]
  | dirent k off =>
    by_cases h₀ : (img.dirent off).inum = 0
    · simp [update, dotDotOf, h₀]
    · by_cases hk : k = i
      · by_cases hd : (img.dirent off).isDotDot <;>
          simp [update, dotDotOf, h₀, hk, hd, Scan.noteDots]
      · by_cases hd : (img.dirent off).isDotDot <;>
          simp [update, dotDotOf, h₀, hk, hd, Scan.noteDots, Function.update_of_ne (Ne.symm hk)]
  | _ => simp [update, dotDotOf]

/-- A used entry of a direct block of directory `i` that `p` holds of. -/
def Saw (p : Dirent → Prop) (i : ℕ) (l : List Turn) : Prop :=
  ∃ off, .dirent i off ∈ l ∧ (img.dirent off).inum ≠ 0 ∧ p (img.dirent off)

private theorem after_flag (get : Scan → ℕ) (p : Dirent → Prop) (i : ℕ)
    (hd : ∀ s k off, get (img.update dirarr s (.dirent k off)) ≠ 0 ↔
      get s ≠ 0 ∨ k = i ∧ (img.dirent off).inum ≠ 0 ∧ p (img.dirent off))
    (ho : ∀ s t, (∀ k off, t ≠ .dirent k off) → get (img.update dirarr s t) = get s)
    (h₀ : get Scan.zero = 0) (l : List Turn) :
    get (img.after dirarr l) ≠ 0 ↔ img.Saw p i l := by
  have h := GuardedLoop.foldl_flag (img.update dirarr) (fun s ↦ get s ≠ 0)
    (fun t ↦ ∃ off, t = .dirent i off ∧ (img.dirent off).inum ≠ 0 ∧ p (img.dirent off))
    (fun s t ↦ ?_) Scan.zero l
  · rw [after, h, h₀]
    simp only [ne_eq, not_true_eq_false, false_or]
    constructor
    · rintro ⟨t, ht, off, rfl, hoff⟩
      exact ⟨off, ht, hoff⟩
    · rintro ⟨off, ht, hoff⟩
      exact ⟨_, ht, off, rfl, hoff⟩
  · by_cases ht : ∃ k off, t = .dirent k off
    · obtain ⟨k, off, rfl⟩ := ht
      rw [hd]
      refine or_congr_right ⟨fun h ↦ ?_, ?_⟩
      · obtain ⟨rfl, h⟩ := h
        exact ⟨off, rfl, h⟩
      · rintro ⟨off', heq, h⟩
        cases heq
        exact ⟨rfl, h⟩
    · rw [ho s t fun k off hk ↦ ht ⟨k, off, hk⟩]
      refine (or_iff_left ?_).symm
      rintro ⟨off, rfl, -⟩
      exact ht ⟨i, off, rfl⟩

/-- `findroot` says whether a used `".."` entry was met. -/
theorem after_findroot (l : List Turn) (i : ℕ) :
    (img.after dirarr l).findroot i ≠ 0 ↔ img.Saw Dirent.isDotDot i l := by
  refine img.after_flag dirarr (fun s ↦ s.findroot i) _ i (fun s k off ↦ ?_) (fun s t ht ↦ ?_) rfl l
  · by_cases h₀ : (img.dirent off).inum = 0
    · simp [update, h₀]
    · by_cases hk : k = i
      · by_cases hd : (img.dirent off).isDotDot <;> simp [update, h₀, hk, hd, Scan.noteDots]
      · by_cases hd : (img.dirent off).isDotDot <;>
          simp [update, h₀, hk, hd, Scan.noteDots, Function.update_of_ne (Ne.symm hk)]
  · cases t with
    | direct addr => by_cases h₀ : addr = 0 <;> simp [update, h₀]
    | entry off => by_cases h₀ : img.u32 off = 0 <;> simp [update, h₀]
    | dirent k off => exact absurd rfl (ht k off)
    | _ => simp [update]

/-- `findcur` says whether a used `"."` entry was met. -/
theorem after_findcur (l : List Turn) (i : ℕ) :
    (img.after dirarr l).findcur i ≠ 0 ↔ img.Saw Dirent.isDot i l := by
  refine img.after_flag dirarr (fun s ↦ s.findcur i) _ i (fun s k off ↦ ?_) (fun s t ht ↦ ?_) rfl l
  · by_cases h₀ : (img.dirent off).inum = 0
    · simp [update, h₀]
    · by_cases hk : k = i
      · by_cases hd : (img.dirent off).isDot <;> simp [update, h₀, hk, hd, Scan.noteDots]
      · by_cases hd : (img.dirent off).isDot <;>
          simp [update, h₀, hk, hd, Scan.noteDots, Function.update_of_ne (Ne.symm hk)]
  · cases t with
    | direct addr => by_cases h₀ : addr = 0 <;> simp [update, h₀]
    | entry off => by_cases h₀ : img.u32 off = 0 <;> simp [update, h₀]
    | dirent k off => exact absurd rfl (ht k off)
    | _ => simp [update]

end Image

end Fsck
