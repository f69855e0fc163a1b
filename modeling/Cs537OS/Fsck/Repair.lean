import Cs537OS.Foundation.Patches
import Cs537OS.Fsck.Check

/-!
# Repair mode

`main` of `repair.c`, which is also the `-r` branch of `xv6_fsck`: the lookup of `lost_found` in
the root directory, the count of references, the table of lost inodes, and the two loops that
write directory entries into the mapped image.

The image is mapped shared, so what the loops write they also read: the bound `sb->ninodes` and
the inode of a lost directory are read from the image as it stands at that turn. A loop that has
been left is modelled by turns that change nothing, which is exact here because the condition on
which each loop is left stays true. An entry is written as the bytes that `->inum=` and `sprintf`
or `strcpy` store: two bytes, the name, its NUL, and nothing beyond.

As in check mode a run that reads or writes outside the image, or indexes outside a table, is not
continued. A failing `msync` ends the run with a message and leaves the image as it is, so it is
not told apart from a run that ends well.
-/

namespace Fsck

/-- `"lost_found"`. -/
def lostFoundName : List UInt8 := [108, 111, 115, 116, 95, 102, 111, 117, 110, 100]

/-- What the loop over the inode table fills. -/
@[ext]
structure Survey where
  lfinum : ℕ
  inodeinuse : ℕ → ℕ
  inoderefer : ℕ → ℕ
  dirinode : ℕ → ℕ

/-- All tables zeroed. -/
def Survey.zero : Survey where
  lfinum := 0
  inodeinuse _ := 0
  inoderefer _ := 0
  dirinode _ := 0

/-- The table of lost inodes and their number. -/
structure Lost where
  targetinode : ℕ → ℕ
  error : ℕ

/-- The loop that marks the lost inodes, at inode `i`. -/
def Survey.markTarget (t : Survey) (l : Lost) (i : ℕ) : Lost :=
  if t.inodeinuse i = 1 ∧ i ≠ rootino ∧ t.inoderefer i = 0 then
    ⟨Function.update l.targetinode i 1, l.error + 1⟩
  else l

/-- The lost inodes among the first `ninodes`. -/
def Survey.findLost (t : Survey) (ninodes : ℕ) : Lost :=
  (List.range ninodes).foldl t.markTarget ⟨fun _ ↦ 0, 0⟩

/-- The bytes of a `ushort`: higher bits are lost. -/
def le16 (n : ℕ) : List UInt8 := [UInt8.ofNat n, UInt8.ofNat (n / 256)]

/-- What `sprintf` prints for `"%d"` of a number that is not negative. -/
def decimal (n : ℕ) : List UInt8 := (Nat.toDigits 10 n).map fun c ↦ UInt8.ofNat c.toNat

/-- An inode number and a name stored in the entry at offset `off`. -/
def direntPatch (off inum : ℕ) (name : List UInt8) : Patch UInt8 :=
  ⟨off, le16 inum ++ (name ++ [0])⟩

namespace Image

variable (img : Image)

/-! ### The lookup of `lost_found` -/

/-- The loop over the entries of one block: it leaves the block at the first entry of that name,
used or not. -/
def findLostFound (off : ℤ) : List ℕ → Except Stop (Option ℕ)
  | [] => .ok none
  | e :: es =>
    if ¬ img.Readable (off + 16 * e) 16 then .error .outOfBounds
    else if nameIs (img.dirent (off + 16 * e).toNat).name lostFoundName then
      .ok (some (img.dirent (off + 16 * e).toNat).inum)
    else findLostFound off es

/-- One block of the root directory. -/
def lookupBlock (lfinum : ℕ) (off : ℤ) : Except Stop ℕ := do
  let found ← img.findLostFound off (List.range dpb)
  .ok (found.getD lfinum)

/-- A direct address of the root directory; the loop is left once `lfinum` is not zero. -/
def lookupDirect (lfinum addr : ℕ) : Except Stop ℕ :=
  if lfinum ≠ 0 ∨ addr = 0 then .ok lfinum else img.lookupBlock lfinum (addrOff addr)

/-- An entry of the root directory's indirect block. -/
def lookupListed (lfinum off : ℕ) : Except Stop ℕ :=
  if lfinum ≠ 0 then .ok lfinum
  else if ¬ img.Readable off 4 then .error .outOfBounds
  else if img.word off = 0 then .ok lfinum
  else img.lookupBlock lfinum (entryOff (img.word off))

/-- The lookup in directory `i`. -/
def lookup (i : ℕ) : Except Stop ℕ := do
  let lfinum ← (List.range ndirect).foldlM
    (fun lfinum j ↦ img.lookupDirect lfinum ((img.dinode i).addrs j)) 0
  if lfinum = 0 ∧ (img.dinode i).addrs ndirect ≠ 0 then
    (List.range nindirect).foldlM
      (fun lfinum j ↦ img.lookupListed lfinum (addrOff ((img.dinode i).addrs ndirect) + 4 * j))
      lfinum
  else .ok lfinum

/-- `if(i==ROOTINO)` around the lookup. -/
def lookupAt (i lfinum : ℕ) : Except Stop ℕ :=
  if i = rootino then img.lookup i else .ok lfinum

/-! ### The count of references -/

/-- Entry `e` of the block at offset `off`; `counts` selects the entries that are counted. -/
def countDirent (counts : ℕ → Bool) (off : ℤ) (refer : ℕ → ℕ) (e : ℕ) : Except Stop (ℕ → ℕ) :=
  if ¬ img.Readable (off + 16 * e) 16 then .error .outOfBounds
  else if (img.dirent (off + 16 * e).toNat).inum ≠ 0 ∧ counts e then
    if ¬ (img.dirent (off + 16 * e).toNat).inum < img.sb.ninodes then .error .outOfBounds
    else .ok (bump refer (img.dirent (off + 16 * e).toNat).inum)
  else .ok refer

/-- The loop over the entries of a block. -/
def countBlock (counts : ℕ → Bool) (off : ℤ) (refer : ℕ → ℕ) : Except Stop (ℕ → ℕ) :=
  (List.range dpb).foldlM (img.countDirent counts off) refer

/-- A direct address of a directory: in every block the first two entries are passed over. -/
def countDirect (refer : ℕ → ℕ) (addr : ℕ) : Except Stop (ℕ → ℕ) :=
  if addr = 0 then .ok refer
  else img.countBlock (fun e ↦ e != 0 && e != 1) (addrOff addr) refer

/-- An entry of a directory's indirect block: in the block listed there every entry counts. -/
def countListed (refer : ℕ → ℕ) (off : ℕ) : Except Stop (ℕ → ℕ) :=
  if ¬ img.Readable off 4 then .error .outOfBounds
  else if img.word off = 0 then .ok refer
  else img.countBlock (fun _ ↦ true) (entryOff (img.word off)) refer

/-- The entries of inode `i`, if it is a directory. -/
def countDir (i : ℕ) (refer : ℕ → ℕ) : Except Stop (ℕ → ℕ) :=
  if (img.dinode i).type = tDir then do
    let refer ← (List.range ndirect).foldlM
      (fun refer k ↦ img.countDirect refer ((img.dinode i).addrs k)) refer
    if (img.dinode i).addrs ndirect = 0 then .ok refer
    else
      (List.range nindirect).foldlM
        (fun refer m ↦ img.countListed refer (addrOff ((img.dinode i).addrs ndirect) + 4 * m)) refer
  else .ok refer

/-! ### The loop over the inode table -/

/-- One turn of the loop over the inode table. -/
def surveyInode (t : Survey) (i : ℕ) : Except Stop Survey :=
  if ¬ img.Readable (inodeOff i) 64 then .error .outOfBounds
  else do
    let lfinum ← img.lookupAt i t.lfinum
    let inoderefer ← img.countDir i t.inoderefer
    .ok {
      lfinum := lfinum
      inoderefer := inoderefer
      dirinode := if (img.dinode i).type = tDir then Function.update t.dirinode i 1 else t.dirinode
      inodeinuse :=
        if (img.dinode i).type ≠ 0 then Function.update t.inodeinuse i 1 else t.inodeinuse }

/-- Everything before the lost inodes are marked. -/
def survey : Except Stop Survey :=
  if ¬ img.Readable bsize 12 then .error .outOfBounds
  else if 2 ^ 31 < img.sb.ninodes then .error .outOfBounds
  else (List.range img.sb.ninodes).foldlM img.surveyInode Survey.zero

/-! ### The loops that write -/

/-- A store into the image. -/
def store (p : Patch UInt8) : Except Stop Image :=
  if ¬ img.Readable p.off p.vals.length then .error .outOfBounds
  else .ok { img with byte := p.write img.byte }

end Image

/-- The variables of the loop that writes the links. -/
structure Relink where
  img : Image
  error : ℕ
  /-- Offset of `dircur`. -/
  dircur : ℕ

/-- The loop that links the lost inodes, at `j`; the tables have `ninodes` elements. -/
def linkTarget (ninodes : ℕ) (l : Lost) (s : Relink) (j : ℕ) : Except Stop Relink :=
  if ¬ (0 < s.error ∧ j < s.img.sb.ninodes) then .ok s
  else if ¬ j < ninodes then .error .outOfBounds
  else if l.targetinode j ≠ 0 then do
    let img ← s.img.store (direntPatch s.dircur j (decimal s.error))
    .ok ⟨img, s.error - 1, s.dircur + 16⟩
  else .ok s

/-- The loop that rewrites `"."` and `".."` of the lost directories, at `j`. -/
def relinkDir (ninodes : ℕ) (t : Survey) (l : Lost) (img : Image) (j : ℕ) : Except Stop Image :=
  if ¬ j < img.sb.ninodes then .ok img
  else if ¬ j < ninodes then .error .outOfBounds
  else if l.targetinode j ≠ 0 ∧ t.dirinode j ≠ 0 then
    if ¬ img.Readable (Image.inodeOff j) 64 then .error .outOfBounds
    else do
      let direntpar := addrOff ((img.dinode j).addrs 0)
      let img ← img.store (direntPatch direntpar j [46])
      img.store (direntPatch (direntpar + 16) t.lfinum [46, 46])
  else .ok img

namespace Image

variable (img : Image)

/-- What is done when some inode is lost. Of the inode `lfinum` only `addrs[0]` is read; it need
not lie in the inode table. -/
def relink (t : Survey) (l : Lost) : Except Stop Image :=
  if ¬ img.Readable (inodeOff t.lfinum + 12 : ℕ) 4 then .error .outOfBounds
  else do
    let dircur := addrOff ((img.dinode t.lfinum).addrs 0)
    let s ← (List.range (img.sb.ninodes + 1)).foldlM (linkTarget img.sb.ninodes l)
      ⟨img, l.error, dircur + 2 * 16⟩
    (List.range (img.sb.ninodes + 1)).foldlM (relinkDir img.sb.ninodes t l) s.img

/-- A run of repair mode, ending with the image as it then is. -/
def repair : Except Stop Image := do
  let t ← img.survey
  let l := t.findLost img.sb.ninodes
  if l.error ≠ 0 then img.relink t l else .ok img

end Image

end Fsck
