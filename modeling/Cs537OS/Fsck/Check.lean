import Cs537OS.Fsck.Layout
import Mathlib.Logic.Function.Basic

/-!
# Check mode of `xv6_fsck`

`main` with one argument, after the image is mapped: the directory table, the scan of the inode
table with its nested loops over addresses and directory entries, the rules on the counters the
scan filled, the parent walk, and the scan of the bitmap.

A run ends in `.ok` when it reaches `exit(0)`. Otherwise it stops for one of three reasons
(`Stop`): it printed a report and called `exit(1)`; it used an index outside an array or an
address outside the image, which C leaves undefined and which this model therefore does not
continue; or the fuel of the parent walk, the only loop without a counter, ran out. Every access
with an index taken from the disk is guarded, in the place where the source makes it: before or
after the source's own test.

The counters are natural numbers: an `int` counter goes up at most once for each directory entry
or address scanned. The tables are functions of the index; their lengths are the bounds in the
guards (`sb->ninodes`, `totalblocks`). `findroot` and `findcur`, declared afresh for each
directory, are kept per inode number.
-/

namespace Fsck

/-! ### How a run ends -/

/-- The reports of check mode, in the order of their first use. -/
inductive Report
  | badInode
  | noRoot
  | badDirect
  | directTwice
  | markedFree
  | badIndirect
  | indirectTwice
  | badFormat
  | notInDirectory
  | referredFree
  | badRefCount
  | dirTwice
  | parentMismatch
  | inaccessible
  | bitmapOnly
deriving DecidableEq

/-- What is printed on `stderr`. -/
def Report.message : Report → String
  | badInode => "ERROR: bad inode.\n"
  | noRoot => "ERROR: root directory does not exist.\n"
  | badDirect => "ERROR: bad direct address in inode.\n"
  | directTwice => "ERROR: direct address used more than once.\n"
  | markedFree => "ERROR: address used by inode but marked free in bitmap.\n"
  | badIndirect => "ERROR: bad indirect address in inode.\n"
  | indirectTwice => "ERROR: indirect address used more than once.\n"
  | badFormat => "ERROR: directory not properly formatted.\n"
  | notInDirectory => "ERROR: inode marked use but not found in a directory.\n"
  | referredFree => "ERROR: inode referred to in directory but marked free.\n"
  | badRefCount => "ERROR: bad reference count for file.\n"
  | dirTwice => "ERROR: directory appears more than once in file system.\n"
  | parentMismatch => "ERROR: parent directory mismatch.\n"
  | inaccessible => "ERROR: inaccessible directory exists.\n"
  | bitmapOnly => "ERROR: bitmap marks block in use but it is not in use.\n"

/-- Why a run stops before `exit(0)`. -/
inductive Stop
  /-- `fprintf(stderr, ...); exit(1)`. -/
  | report (r : Report)
  /-- An index outside its array, or an address outside the image. -/
  | outOfBounds
  /-- The fuel of the parent walk ran out. -/
  | outOfFuel
deriving DecidableEq

/-- `t[i]++`. -/
def bump (t : ℕ → ℕ) (i : ℕ) : ℕ → ℕ := Function.update t i (t i + 1)

@[simp]
theorem bump_self (t : ℕ → ℕ) (i : ℕ) : bump t i i = t i + 1 := by
  simp [bump]

theorem bump_of_ne (t : ℕ → ℕ) {i j : ℕ} (h : j ≠ i) : bump t i j = t j := by
  simp [bump, h]

/-- The tables that the scan of the inode table fills. -/
@[ext]
structure Scan where
  visitblock : ℕ → ℕ
  inodeinuse : ℕ → ℕ
  inoderefer : ℕ → ℕ
  dirreference : ℕ → ℕ
  parentinum : ℕ → ℕ
  childentry : ℕ → ℕ → ℕ
  findroot : ℕ → ℕ
  findcur : ℕ → ℕ

/-- All tables zeroed. -/
def Scan.zero : Scan where
  visitblock _ := 0
  inodeinuse _ := 0
  inoderefer _ := 0
  dirreference _ := 0
  parentinum _ := 0
  childentry _ _ := 0
  findroot _ := 0
  findcur _ := 0

namespace Scan

/-- `++visitblock[b]`. -/
def visit (s : Scan) (b : ℕ) : Scan :=
  { s with visitblock := bump s.visitblock b }

/-- What both entry loops do with an entry of directory `i`: count the reference, and, when a
directory is named by something else than `"."` and `".."`, count that and remember the child. -/
def refer (s : Scan) (dirarr : ℕ → ℕ) (i : ℕ) (d : Dirent) : Scan :=
  if dirarr d.inum = 1 ∧ d.isProper then
    { s with
      inoderefer := bump s.inoderefer d.inum
      dirreference := bump s.dirreference d.inum
      childentry := Function.update s.childentry i
        (Function.update (s.childentry i) d.inum 1) }
  else { s with inoderefer := bump s.inoderefer d.inum }

/-- What the loop over a direct block does with `".."` and `"."` before that. -/
def noteDots (s : Scan) (i : ℕ) (d : Dirent) : Scan :=
  { s with
    parentinum := if d.isDotDot then Function.update s.parentinum i d.inum else s.parentinum
    findroot := if d.isDotDot then Function.update s.findroot i 1 else s.findroot
    findcur := if d.isDot then Function.update s.findcur i 1 else s.findcur }

section

variable (s : Scan) (dirarr : ℕ → ℕ) (b i : ℕ) (d : Dirent)

@[simp] theorem visit_visitblock : (s.visit b).visitblock = bump s.visitblock b := rfl
@[simp] theorem visit_inodeinuse : (s.visit b).inodeinuse = s.inodeinuse := rfl
@[simp] theorem visit_inoderefer : (s.visit b).inoderefer = s.inoderefer := rfl
@[simp] theorem visit_dirreference : (s.visit b).dirreference = s.dirreference := rfl
@[simp] theorem visit_parentinum : (s.visit b).parentinum = s.parentinum := rfl
@[simp] theorem visit_childentry : (s.visit b).childentry = s.childentry := rfl
@[simp] theorem visit_findroot : (s.visit b).findroot = s.findroot := rfl
@[simp] theorem visit_findcur : (s.visit b).findcur = s.findcur := rfl

@[simp] theorem refer_inoderefer :
    (s.refer dirarr i d).inoderefer = bump s.inoderefer d.inum := by
  rw [refer]
  split <;> rfl

@[simp] theorem refer_visitblock : (s.refer dirarr i d).visitblock = s.visitblock := by
  rw [refer]
  split <;> rfl

@[simp] theorem refer_inodeinuse : (s.refer dirarr i d).inodeinuse = s.inodeinuse := by
  rw [refer]
  split <;> rfl

@[simp] theorem refer_parentinum : (s.refer dirarr i d).parentinum = s.parentinum := by
  rw [refer]
  split <;> rfl

@[simp] theorem refer_findroot : (s.refer dirarr i d).findroot = s.findroot := by
  rw [refer]
  split <;> rfl

@[simp] theorem refer_findcur : (s.refer dirarr i d).findcur = s.findcur := by
  rw [refer]
  split <;> rfl

@[simp] theorem refer_dirreference :
    (s.refer dirarr i d).dirreference =
      if dirarr d.inum = 1 ∧ d.isProper then bump s.dirreference d.inum else s.dirreference := by
  rw [refer]
  split <;> rfl

@[simp] theorem refer_childentry :
    (s.refer dirarr i d).childentry =
      if dirarr d.inum = 1 ∧ d.isProper then
        Function.update s.childentry i (Function.update (s.childentry i) d.inum 1)
      else s.childentry := by
  rw [refer]
  split <;> rfl

@[simp] theorem noteDots_visitblock : (s.noteDots i d).visitblock = s.visitblock := rfl
@[simp] theorem noteDots_inodeinuse : (s.noteDots i d).inodeinuse = s.inodeinuse := rfl
@[simp] theorem noteDots_inoderefer : (s.noteDots i d).inoderefer = s.inoderefer := rfl
@[simp] theorem noteDots_dirreference : (s.noteDots i d).dirreference = s.dirreference := rfl
@[simp] theorem noteDots_childentry : (s.noteDots i d).childentry = s.childentry := rfl

end

end Scan

namespace Image

variable (img : Image)

/-! ### Checks of the inode itself -/

/-- Inode types the first rule lets through. -/
def ValidType (t : ℤ) : Prop := ¬ (t ≠ 0 ∧ t ≠ tDir ∧ t ≠ tFile ∧ t ≠ tDev)

instance (t : ℤ) : Decidable (ValidType t) := inferInstanceAs (Decidable (¬ _))

/-- The type tests on inode `i`: the first rule, and that the root is a directory. -/
def checkInode (s : Scan) (i : ℕ) : Except Stop Scan :=
  if ¬ img.Readable (inodeOff i) 64 then .error .outOfBounds
  else if ¬ ValidType (img.dinode i).type then .error (.report .badInode)
  else if i = rootino ∧ (img.dinode i).type ≠ tDir then .error (.report .noRoot)
  else .ok s

/-- The loop over the entries of one block of the root directory, from entry `e` on: it looks for
the first `".."`, used or not, and leaves the block there. -/
def checkRootEntries (off : ℕ) : List ℕ → Except Stop Unit
  | [] => .ok ()
  | e :: es =>
    if ¬ img.Readable (off + 16 * e : ℕ) 16 then .error .outOfBounds
    else if (img.dirent (off + 16 * e)).isDotDot then
      if rootino ≠ (img.dirent (off + 16 * e)).inum then .error (.report .noRoot) else .ok ()
    else checkRootEntries off es

/-- One direct block of the root directory, read before its address is checked. -/
def checkRootBlock (s : Scan) (addr : ℕ) : Except Stop Scan :=
  if addr = 0 then .ok s
  else match img.checkRootEntries (addrOff addr) (List.range dpb) with
    | .error e => .error e
    | .ok () => .ok s

/-! ### Checks of block addresses -/

/-- A direct address: range, use count, bitmap bit. -/
def checkDirect (s : Scan) (addr : ℕ) : Except Stop Scan :=
  if addr = 0 then .ok s
  else if ¬ img.InRange (addrOff addr) then .error (.report .badDirect)
  else if ¬ (addr : ℤ) < img.totalblocks then .error .outOfBounds
  else if 1 < (s.visit addr).visitblock addr then .error (.report .directTwice)
  else if ¬ img.bitStart + addr / 8 < img.stSize then .error .outOfBounds
  else if ¬ bitSet (img.bitByte addr) addr then .error (.report .markedFree)
  else .ok (s.visit addr)

/-- The address of the indirect block: it is counted first and range-checked afterwards; neither
its count nor its bitmap bit is looked at. -/
def checkIndirect (s : Scan) (addr : ℕ) : Except Stop Scan :=
  if ¬ (addr : ℤ) < img.totalblocks then .error .outOfBounds
  else if ¬ img.InRange (addrOff addr) then .error (.report .badIndirect)
  else .ok (s.visit addr)

/-- An entry of the indirect block: range, use count, bitmap bit. -/
def checkEntry (s : Scan) (off : ℕ) : Except Stop Scan :=
  if ¬ img.Readable off 4 then .error .outOfBounds
  else if img.word off = 0 then .ok s
  else if ¬ img.InRange (entryOff (img.word off)) then .error (.report .badIndirect)
  else if ¬ (0 ≤ img.word off ∧ img.word off < img.totalblocks) then .error .outOfBounds
  else
    let b := (img.word off).toNat
    if 1 < (s.visit b).visitblock b then .error (.report .indirectTwice)
    else if ¬ img.bitStart + b / 8 < img.stSize then .error .outOfBounds
    else if ¬ bitSet (img.bitByte b) b then .error (.report .markedFree)
    else .ok (s.visit b)

/-! ### Directory entries -/

/-- An entry in a direct block of directory `i`. -/
def scanDirent (dirarr : ℕ → ℕ) (i : ℕ) (s : Scan) (off : ℕ) : Except Stop Scan :=
  if ¬ img.Readable off 16 then .error .outOfBounds
  else if (img.dirent off).inum = 0 then .ok s
  else if (img.dirent off).isDot ∧ i ≠ (img.dirent off).inum then .error (.report .badFormat)
  else if ¬ (img.dirent off).inum < img.sb.ninodes then .error .outOfBounds
  else .ok ((s.noteDots i (img.dirent off)).refer dirarr i (img.dirent off))

/-- After each direct block of directory `i`: both `"."` and `".."` must have been seen. -/
def closeBlock (i : ℕ) (s : Scan) : Except Stop Scan :=
  if s.findroot i = 0 ∨ s.findcur i = 0 then .error (.report .badFormat) else .ok s

/-- An entry in an indirect-listed block of directory `i`: used or not, it is counted. -/
def scanIndirectDirent (dirarr : ℕ → ℕ) (i : ℕ) (s : Scan) (off : ℤ) : Except Stop Scan :=
  if ¬ img.Readable off 16 then .error .outOfBounds
  else if ¬ (img.dirent off.toNat).inum < img.sb.ninodes then .error .outOfBounds
  else .ok (s.refer dirarr i (img.dirent off.toNat))

/-- Guard of the second read of an entry of the indirect block. -/
def readWord (s : Scan) (off : ℕ) : Except Stop Scan :=
  if ¬ img.Readable off 4 then .error .outOfBounds else .ok s

/-! ### The loop over the inode table -/

/-- The extra pass over the direct blocks of the root directory. -/
def scanRoot (i : ℕ) (s : Scan) : Except Stop Scan :=
  if i = rootino then
    (List.range ndirect).foldlM (fun s k ↦ img.checkRootBlock s ((img.dinode i).addrs k)) s
  else .ok s

/-- The addresses of an in-use inode: direct, then indirect. -/
def scanAddrs (i : ℕ) (s : Scan) : Except Stop Scan := do
  let s ← (List.range ndirect).foldlM (fun s j ↦ img.checkDirect s ((img.dinode i).addrs j)) s
  if (img.dinode i).addrs ndirect = 0 then .ok s
  else do
    let s ← img.checkIndirect s ((img.dinode i).addrs ndirect)
    (List.range nindirect).foldlM
      (fun s k ↦ img.checkEntry s (addrOff ((img.dinode i).addrs ndirect) + 4 * k)) s

/-- The entries of directory `i` in its direct blocks. -/
def scanDirectBlocks (dirarr : ℕ → ℕ) (i : ℕ) (s : Scan) : Except Stop Scan :=
  (List.range ndirect).foldlM (fun s k ↦
    if (img.dinode i).addrs k = 0 then .ok s
    else do
      let s ← (List.range dpb).foldlM
        (fun s e ↦ img.scanDirent dirarr i s (addrOff ((img.dinode i).addrs k) + 16 * e)) s
      closeBlock i s) s

/-- The entries of directory `i` in the blocks its indirect block lists. -/
def scanIndirectBlocks (dirarr : ℕ → ℕ) (i : ℕ) (s : Scan) : Except Stop Scan :=
  if (img.dinode i).addrs ndirect = 0 then .ok s
  else
    (List.range nindirect).foldlM (fun s m ↦ do
      let off := addrOff ((img.dinode i).addrs ndirect) + 4 * m
      let s ← img.readWord s off
      if img.word off = 0 then .ok s
      else
        (List.range dpb).foldlM (fun s (e : ℕ) ↦
          img.scanIndirectDirent dirarr i s (entryOff (img.word off) + 16 * e)) s) s

/-- One turn of the loop over the inode table. -/
def scanInode (dirarr : ℕ → ℕ) (s : Scan) (i : ℕ) : Except Stop Scan := do
  let s ← img.checkInode s i
  let s ← img.scanRoot i s
  if (img.dinode i).type = 0 then .ok s
  else do
    let s ← img.scanAddrs i { s with inodeinuse := bump s.inodeinuse i }
    if (img.dinode i).type = tDir then do
      let s ← img.scanDirectBlocks dirarr i s
      img.scanIndirectBlocks dirarr i s
    else .ok s

/-- The loop that fills `dirarr`. -/
def markDirs : Except Stop (ℕ → ℕ) :=
  (List.range img.sb.ninodes).foldlM (fun dirarr i ↦
    if ¬ img.Readable (inodeOff i) 64 then .error .outOfBounds
    else if (img.dinode i).type = tDir then .ok (Function.update dirarr i 1)
    else .ok dirarr) (fun _ ↦ 0)

/-- The loop over the inode table. -/
def scanInodes (dirarr : ℕ → ℕ) : Except Stop Scan :=
  (List.range img.sb.ninodes).foldlM (img.scanInode dirarr) Scan.zero

/-! ### The rules on the counters -/

/-- Rules 9 to 12 on inode `i`. -/
def checkRules (s : Scan) (i : ℕ) : Except Stop Unit :=
  if s.inodeinuse i ≠ 0 ∧ s.inoderefer i < 1 then .error (.report .notInDirectory)
  else if (s.inoderefer i ≠ 0 ∧ i ≠ 0) ∧ s.inodeinuse i = 0 then .error (.report .referredFree)
  else if ¬ img.Readable (inodeOff i) 64 then .error .outOfBounds
  else if (img.dinode i).type = tFile ∧ (img.dinode i).nlink ≠ s.inoderefer i then
    .error (.report .badRefCount)
  else if (img.dinode i).type = tDir ∧
      ((rootino ≠ i ∧ 1 ≠ s.dirreference i) ∨ (i = rootino ∧ 0 ≠ s.dirreference i)) then
    .error (.report .dirTwice)
  else .ok ()

/-- The loop over rules 9 to 12. -/
def rules (s : Scan) : Except Stop Unit :=
  (List.range img.sb.ninodes).foldlM (fun _ i ↦ img.checkRules s i) ()

/-- A child remembered in directory `i` must have recorded `i` as its parent. -/
def checkParent (s : Scan) (i j : ℕ) : Except Stop Unit :=
  if s.childentry i j = 1 ∧ s.parentinum j ≠ i then .error (.report .parentMismatch) else .ok ()

/-- The two nested loops over `childentry`. -/
def parents (s : Scan) : Except Stop Unit :=
  (List.range img.sb.ninodes).foldlM (fun _ i ↦
    (List.range img.sb.ninodes).foldlM (fun _ j ↦ checkParent s i j) ()) ()

end Image

/-! ### The parent walk -/

/-- `while(parentinum[currentde]!=ROOTINO)`: the loop has no counter, so it is given fuel. -/
def walkParents (ninodes : ℕ) (parentinum : ℕ → ℕ) :
    ℕ → (ℕ → ℕ) → ℕ → Except Stop (ℕ → ℕ)
  | 0, _, _ => .error .outOfFuel
  | fuel + 1, loopdetect, currentde =>
    if ¬ currentde < ninodes then .error .outOfBounds
    else if parentinum currentde = rootino then .ok loopdetect
    else if loopdetect currentde ≠ 0 then .error (.report .inaccessible)
    else walkParents ninodes parentinum fuel (bump loopdetect currentde) (parentinum currentde)

/-- The walk from inode `i`, unless `i` is no directory or already marked. -/
def walkFrom (fuel ninodes : ℕ) (dirarr parentinum loopdetect : ℕ → ℕ) (i : ℕ) :
    Except Stop (ℕ → ℕ) :=
  if dirarr i ≠ 0 ∧ loopdetect i ≠ 1 then walkParents ninodes parentinum fuel loopdetect i
  else .ok loopdetect

/-- The loop detection: the marks of one walk are kept for the next. -/
def loopCheck (fuel ninodes : ℕ) (dirarr parentinum : ℕ → ℕ) : Except Stop (ℕ → ℕ) :=
  (List.range ninodes).foldlM (walkFrom fuel ninodes dirarr parentinum) (fun _ ↦ 0)

namespace Image

variable (img : Image)

/-! ### The bitmap scan -/

/-- The final loop at `addr`, which is an `int`. -/
def scanBit (visitblock : ℕ → ℕ) (addr : ℕ) : Except Stop Unit :=
  if 2 ^ 31 ≤ addr ∨ ¬ img.bitStart + addr / 8 < img.stSize then .error .outOfBounds
  else if ((img.bitByte addr).toNat >>> (addr % 8)) &&& 1 ≠ 0 then
    if ¬ (addr : ℤ) < img.totalblocks then .error .outOfBounds
    else if visitblock addr = 0 then .error (.report .bitmapOnly)
    else .ok ()
  else .ok ()

/-- `for(int addr=BBLOCK(0,sb->ninodes)+1;addr<sb->nblocks;addr++)`. -/
def scanBits : List ℕ :=
  List.range' (bblock 0 img.sb.ninodes + 1) (img.sb.nblocks - (bblock 0 img.sb.ninodes + 1))

/-- The final scan of the bitmap. -/
def bitmapScan (visitblock : ℕ → ℕ) : Except Stop Unit :=
  img.scanBits.foldlM (fun _ addr ↦ img.scanBit visitblock addr) ()

/-! ### The whole run -/

/-- Everything before the bitmap scan, ending with the tables. The loops that allocate the rows
of `childentry` run over an `int`, so more than `2 ^ 31` inodes drive its index below zero. -/
def earlierChecks (fuel : ℕ) : Except Stop Scan :=
  if ¬ img.Readable bsize 12 then .error .outOfBounds
  else if 2 ^ 31 < img.sb.ninodes then .error .outOfBounds
  else do
    let dirarr ← img.markDirs
    let s ← img.scanInodes dirarr
    img.rules s
    img.parents s
    let _ ← loopCheck fuel img.sb.ninodes dirarr s.parentinum
    .ok s

/-- Check mode, with `fuel` turns allowed to each parent walk. -/
def checkMode (fuel : ℕ) : Except Stop Unit := do
  let s ← img.earlierChecks fuel
  img.bitmapScan s.visitblock

/-- Check mode runs to `exit(0)`. -/
def Accepted : Prop := ∃ fuel, img.checkMode fuel = .ok ()

end Image

end Fsck
