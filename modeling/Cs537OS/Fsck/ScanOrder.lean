import Cs537OS.Foundation.GuardedLoop
import Cs537OS.Fsck.Check
import Cs537OS.Fsck.Contents

/-!
# The scan as one loop

The nested loops of the inode scan, flattened: `Image.scanOrder` lists every turn of every inner
loop in the order in which the source makes it, and `scanInodes_eq` says that the nested loops
are the one loop over that list. What a completed scan says is then read off turn by turn
(`GuardedLoop.Passes`), and each table it leaves is a count or a search over the list.

The turns carry what the loop body reads from its surroundings: the inode number where the body
uses `cur_inodenum`, an address or an offset where it reads the disk.
-/

namespace Fsck

/-- One turn of an inner loop of the inode scan. -/
inductive Turn
  /-- The tests on the type of inode `i`. -/
  | inode (i : ℕ)
  /-- The extra pass over one direct block of the root directory. -/
  | rootBlock (addr : ℕ)
  /-- `inodeinuse[i]++`. -/
  | inuse (i : ℕ)
  | direct (addr : ℕ)
  | indirect (addr : ℕ)
  /-- The entry of an indirect block at offset `off`. -/
  | entry (off : ℕ)
  /-- The directory entry at offset `off` in a direct block of directory `i`. -/
  | dirent (i off : ℕ)
  | closeBlock (i : ℕ)
  /-- The second read of the entry of an indirect block at offset `off`. -/
  | reread (off : ℕ)
  /-- The directory entry at offset `off` in an indirect-listed block of directory `i`. -/
  | indirectDirent (i : ℕ) (off : ℤ)

namespace Image

variable (img : Image) (dirarr : ℕ → ℕ)

/-- What the source does in a turn. -/
def step (s : Scan) : Turn → Except Stop Scan
  | .inode i => img.checkInode s i
  | .rootBlock addr => img.checkRootBlock s addr
  | .inuse i => .ok { s with inodeinuse := bump s.inodeinuse i }
  | .direct addr => img.checkDirect s addr
  | .indirect addr => img.checkIndirect s addr
  | .entry off => img.checkEntry s off
  | .dirent i off => img.scanDirent dirarr i s off
  | .closeBlock i => closeBlock i s
  | .reread off => img.readWord s off
  | .indirectDirent i off => img.scanIndirectDirent dirarr i s off

/-- The effect on the tables of a turn that goes through. -/
def update (s : Scan) : Turn → Scan
  | .inuse i => { s with inodeinuse := bump s.inodeinuse i }
  | .direct addr => if addr = 0 then s else s.visit addr
  | .indirect addr => s.visit addr
  | .entry off => if img.u32 off = 0 then s else s.visit (img.u32 off)
  | .dirent i off =>
    if (img.dirent off).inum = 0 then s
    else (s.noteDots i (img.dirent off)).refer dirarr i (img.dirent off)
  | .indirectDirent i off => s.refer dirarr i (img.dirent off.toNat)
  | .inode _ | .rootBlock _ | .closeBlock _ | .reread _ => s

/-! ### The order of the turns -/

/-- The turns over the addresses of inode `i`. -/
def addrTurns (i : ℕ) : List Turn :=
  (List.range ndirect).map (fun j ↦ .direct ((img.dinode i).addrs j)) ++
    if img.indirectAddr i = 0 then []
    else .indirect (img.indirectAddr i) ::
      (List.range nindirect).map fun k ↦ .entry (img.entryAt i k)

/-- The turns over the entries of directory `i` in its direct blocks. -/
def directTurns (i : ℕ) : List Turn :=
  (List.range ndirect).flatMap fun k ↦
    if (img.dinode i).addrs k = 0 then []
    else (List.range dpb).map (fun e ↦ .dirent i (addrOff ((img.dinode i).addrs k) + 16 * e)) ++
      [.closeBlock i]

/-- The turns over the entries of directory `i` in the blocks its indirect block lists. -/
def indirectTurns (i : ℕ) : List Turn :=
  if img.indirectAddr i = 0 then []
  else (List.range nindirect).flatMap fun m ↦
    .reread (img.entryAt i m) ::
      if img.word (img.entryAt i m) = 0 then []
      else (List.range dpb).map fun (e : ℕ) ↦
        .indirectDirent i (entryOff (img.word (img.entryAt i m)) + 16 * e)

/-- The turns over the root directory's direct blocks. -/
def rootTurns (i : ℕ) : List Turn :=
  if i = rootino then (List.range ndirect).map fun k ↦ .rootBlock ((img.dinode i).addrs k)
  else []

/-- The turns made for inode `i`. -/
def inodeTurns (i : ℕ) : List Turn :=
  .inode i :: (img.rootTurns i ++
    if (img.dinode i).type = 0 then []
    else .inuse i :: (img.addrTurns i ++
      if (img.dinode i).type = tDir then img.directTurns i ++ img.indirectTurns i else []))

/-- The turns made for the inodes below `n`. -/
def turnsBelow (n : ℕ) : List Turn := (List.range n).flatMap img.inodeTurns

/-- All turns of the inode scan. -/
def scanOrder : List Turn := img.turnsBelow img.sb.ninodes

/-! ### The nested loops are the one loop -/

theorem scanRoot_eq (i : ℕ) (s : Scan) :
    img.scanRoot i s = (img.rootTurns i).foldlM (img.step dirarr) s := by
  rw [scanRoot, rootTurns]
  split
  · exact GuardedLoop.foldlM_map (fun _ _ ↦ rfl) s _
  · rfl

theorem scanAddrs_eq (i : ℕ) (s : Scan) :
    img.scanAddrs i s = (img.addrTurns i).foldlM (img.step dirarr) s := by
  unfold scanAddrs addrTurns entryAt indirectAddr
  rw [List.foldlM_append]
  refine congr (congrArg _ (GuardedLoop.foldlM_map (fun _ _ ↦ rfl) s _)) (funext fun s' ↦ ?_)
  split
  · rfl
  · rw [List.foldlM_cons]
    refine congrArg _ (funext fun s'' ↦ ?_)
    exact GuardedLoop.foldlM_map (f := img.step dirarr)
      (g := fun k ↦ .entry (addrOff ((img.dinode i).addrs ndirect) + 4 * k)) (fun _ _ ↦ rfl) s'' _

theorem scanDirectBlocks_eq (i : ℕ) (s : Scan) :
    img.scanDirectBlocks dirarr i s = (img.directTurns i).foldlM (img.step dirarr) s := by
  refine GuardedLoop.foldlM_flatMap (fun s' k ↦ ?_) s _
  split
  · rfl
  · rw [List.foldlM_append]
    exact congr (congrArg _ (GuardedLoop.foldlM_map (fun _ _ ↦ rfl) s' _))
      (funext fun s'' ↦ (bind_pure (closeBlock i s'')).symm)

theorem scanIndirectBlocks_eq (i : ℕ) (s : Scan) :
    img.scanIndirectBlocks dirarr i s = (img.indirectTurns i).foldlM (img.step dirarr) s := by
  unfold scanIndirectBlocks indirectTurns entryAt indirectAddr
  split
  · rfl
  · refine GuardedLoop.foldlM_flatMap (fun s' m ↦ ?_) s _
    rw [List.foldlM_cons]
    refine congrArg _ (funext fun s'' ↦ ?_)
    split
    · rfl
    · exact GuardedLoop.foldlM_map (fun _ _ ↦ rfl) s'' _

theorem scanInode_eq (s : Scan) (i : ℕ) :
    img.scanInode dirarr s i = (img.inodeTurns i).foldlM (img.step dirarr) s := by
  rw [scanInode, inodeTurns, List.foldlM_cons]
  refine congrArg _ (funext fun s₁ ↦ ?_)
  rw [List.foldlM_append, ← scanRoot_eq]
  refine congrArg _ (funext fun s₂ ↦ ?_)
  by_cases h₀ : (img.dinode i).type = 0
  · rw [if_pos h₀, if_pos h₀]
    rfl
  · rw [if_neg h₀, if_neg h₀, List.foldlM_cons]
    show _ = List.foldlM (img.step dirarr) { s₂ with inodeinuse := bump s₂.inodeinuse i } _
    rw [List.foldlM_append, ← scanAddrs_eq]
    refine congrArg _ (funext fun s₃ ↦ ?_)
    by_cases hd : (img.dinode i).type = tDir
    · rw [if_pos hd, if_pos hd, List.foldlM_append, ← scanDirectBlocks_eq]
      exact congrArg _ (funext fun s₄ ↦ img.scanIndirectBlocks_eq dirarr i s₄)
    · rw [if_neg hd, if_neg hd]
      rfl

/-- **The nested loops of the inode scan are one loop** over the turns in source order. -/
theorem scanInodes_eq :
    img.scanInodes dirarr = img.scanOrder.foldlM (img.step dirarr) Scan.zero := by
  exact GuardedLoop.foldlM_flatMap (img.scanInode_eq dirarr) Scan.zero _

end Image

end Fsck
