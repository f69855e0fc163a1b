import Cs537OS.FileSys.Disk
import Mathlib.Algebra.Order.Ring.Int

/-!
# Inodes

The inode structures of the disk, the copies of them that the kernel works on, and the functions
that read and write the contents of a file. The functions take the disk and the copy and return what
has become of them; a panic is an error with its message.

`bmap` allocates what is missing, and returns 0 when `balloc` does. It may then have changed the
copy and the disk all the same: the indirect block can have been allocated and the data block not.
When the indirect block cannot be allocated `bmap` goes on with block 0.

* `readInode_iupdate` — what `iupdate` writes is what `ilock` reads;
* `readInode_iupdate_of_ne`, `readInode_bwrite` — and other writes do not change it.
-/

namespace FileSys

open LittleEndian

def NDIRECT : ℕ := 12

def NINDIRECT : ℕ := BSIZE / 4

def MAXFILE : ℕ := NDIRECT + NINDIRECT

def T_DIR : ℕ := 1

/-- The in-memory copy of an inode. A `short` is given by its pattern. -/
structure Inode where
  inum : ℕ
  type : ℕ
  major : ℕ
  minor : ℕ
  nlink : ℕ
  size : ℕ
  /-- `addrs[NDIRECT+1]`. -/
  addrs : ℕ → ℕ

namespace Inode

/-- The fields of `struct dinode` before `addrs`, with their widths. -/
def head (ip : Inode) : List (ℕ × ℕ) :=
  [(2, ip.type), (2, ip.major), (2, ip.minor), (2, ip.nlink), (4, ip.size)]

/-- The fields of `struct dinode` with their widths. -/
def fields (ip : Inode) : List (ℕ × ℕ) :=
  ip.head ++ (List.range (NDIRECT + 1)).map fun k ↦ (4, ip.addrs k)

/-- `ip->addrs[k] = addr`. -/
def setAddr (ip : Inode) (k addr : ℕ) : Inode :=
  { ip with addrs := Function.update ip.addrs k addr }

/-- The fields of a `struct dinode` after `memset`. -/
def blank (inum type : ℕ) : Inode := ⟨inum, type, 0, 0, 0, 0, fun _ ↦ 0⟩

end Inode

/-- Where inode `inum` is in its block. -/
def dinodeOff (inum : ℕ) : ℕ := inum % IPB * 64

/-- The copy that `ilock` makes of an inode. -/
def readInode (d : Disk) (inum : ℕ) : Inode where
  inum := inum
  type := value (d (IBLOCK inum)) (dinodeOff inum) 2
  major := value (d (IBLOCK inum)) (dinodeOff inum + 2) 2
  minor := value (d (IBLOCK inum)) (dinodeOff inum + 4) 2
  nlink := value (d (IBLOCK inum)) (dinodeOff inum + 6) 2
  size := value (d (IBLOCK inum)) (dinodeOff inum + 8) 4
  addrs k := if k ≤ NDIRECT then value (d (IBLOCK inum)) (dinodeOff inum + 12 + 4 * k) 4 else 0

/-- Copy inode, which has changed, from memory to disk. -/
def iupdate (d : Disk) (ip : Inode) : Disk :=
  d.bwrite (IBLOCK ip.inum)
    (Patch.write (d (IBLOCK ip.inum)) ⟨dinodeOff ip.inum, record ip.fields⟩)

/-- Allocate a new inode with the given type: its number. -/
def ialloc (d : Disk) (type : ℕ) : Except String (ℕ × Disk) :=
  match (List.range' 1 ((readsb d).ninodes - 1)).find? fun inum ↦ (readInode d inum).type == 0 with
  | some inum => .ok (inum, iupdate d (.blank inum type))
  | none => .error "ialloc: no inodes"

/-- The disk block address of the nth block in inode `ip`, or 0. If there is no such block, `bmap`
allocates one. -/
def bmap (d : Disk) (ip : Inode) (bn : ℕ) : Except String (ℕ × Inode × Disk) :=
  if bn < NDIRECT then
    if ip.addrs bn = 0 then
      let (addr, d) := balloc d
      .ok (addr, ip.setAddr bn addr, d)
    else .ok (ip.addrs bn, ip, d)
  else if bn - NDIRECT < NINDIRECT then
    -- load indirect block, allocating if necessary
    let (ip, d) :=
      if ip.addrs NDIRECT = 0 then
        let (addr, d) := balloc d
        (ip.setAddr NDIRECT addr, d)
      else (ip, d)
    let bp := d (ip.addrs NDIRECT)
    let addr := value bp (4 * (bn - NDIRECT)) 4
    if addr = 0 then
      let (addr, d) := balloc d
      .ok (addr, ip, d.bwrite (ip.addrs NDIRECT)
        (Patch.write bp ⟨4 * (bn - NDIRECT), bytes 4 addr⟩))
    else .ok (addr, ip, d)
  else .error "bmap: out of range"

/-- Free what `ip->addrs[i]` points to. -/
def truncAddr (i : ℕ) (ip : Inode) (d : Disk) : Except String (Inode × Disk) :=
  if ip.addrs i = 0 then .ok (ip, d)
  else do
    let d ← bfree d (ip.addrs i)
    .ok (ip.setAddr i 0, d)

/-- Free what entry `j` of the indirect block points to. -/
def truncEntry (addr j : ℕ) (d : Disk) : Except String Disk :=
  if value (d addr) (4 * j) 4 = 0 then .ok d else bfree d (value (d addr) (4 * j) 4)

/-- Truncate inode (discard contents). -/
def itrunc (d : Disk) (ip : Inode) : Except String (Inode × Disk) := do
  let (ip, d) ← (List.range NDIRECT).foldlM (fun s i ↦ truncAddr i s.1 s.2) (ip, d)
  let (ip, d) ←
    if ip.addrs NDIRECT = 0 then .ok (ip, d)
    else do
      let d ← (List.range NINDIRECT).foldlM (fun d j ↦ truncEntry (ip.addrs NDIRECT) j d) d
      truncAddr NDIRECT ip d
  let ip := { ip with size := 0 }
  .ok (ip, iupdate d ip)

/-- The loop of `readi`, with the bytes it copies to `dst`. It takes at most `n` turns. -/
def readiLoop (n : ℕ) : ℕ → Disk → Inode → ℕ → ℕ → Except String (List UInt8 × Inode × Disk)
  | 0, d, ip, _, _ => .ok ([], ip, d)
  | fuel + 1, d, ip, off, tot =>
    if tot < n then do
      let (sector_number, ip, d) ← bmap d ip (off / BSIZE)
      if sector_number = 0 then
        .error "readi: trying to read a block that was never allocated"
      else
        let m := min (n - tot) (BSIZE - off % BSIZE)
        let dst := (List.range m).map fun i ↦ d sector_number (off % BSIZE + i)
        let (rest, ip, d) ← readiLoop n fuel d ip (off + m) (tot + m)
        .ok (dst ++ rest, ip, d)
    else .ok ([], ip, d)

/-- Read data from an inode that is not a device: the bytes that are copied, or nothing for -1. -/
def readi (d : Disk) (ip : Inode) (off n : ℕ) :
    Except String (Option (List UInt8) × Inode × Disk) :=
  if off > ip.size ∨ (off + n) % 2 ^ 32 < off then .ok (none, ip, d)
  else
    let n := if (off + n) % 2 ^ 32 > ip.size then ip.size - off else n
    do
      let (dst, ip, d) ← readiLoop n n d ip off 0
      .ok (some dst, ip, d)

/-- `memmove(bp->data + off%BSIZE, src, m)` and `bwrite`, for the block `b`. -/
def Disk.copyIn (d : Disk) (b off m : ℕ) (src : ℕ → UInt8) : Disk :=
  d.bwrite b (Patch.write (d b) ⟨off % BSIZE, (List.range m).map src⟩)

/-- The loop of `writei`: where it ends, and how many bytes it has written. -/
def writeiLoop (src : ℕ → UInt8) (n : ℕ) :
    ℕ → Disk → Inode → ℕ → ℕ → Except String (ℕ × ℕ × Inode × Disk)
  | 0, d, ip, off, tot => .ok (off, tot, ip, d)
  | fuel + 1, d, ip, off, tot =>
    if tot < n then do
      let (sector_number, ip, d) ← bmap d ip (off / BSIZE)
      if sector_number = 0 then .ok (off, tot, ip, d)
      else
        let m := min (n - tot) (BSIZE - off % BSIZE)
        let d := d.copyIn sector_number off m fun i ↦ src (tot + i)
        writeiLoop src n fuel d ip (off + m) (tot + m)
    else .ok (off, tot, ip, d)

/-- Write data to an inode that is not a device: how many bytes were written, or -1. -/
def writei (d : Disk) (ip : Inode) (src : ℕ → UInt8) (off n : ℕ) :
    Except String (ℤ × Inode × Disk) :=
  if off > ip.size ∨ (off + n) % 2 ^ 32 < off then .ok (-1, ip, d)
  else
    let n := if (off + n) % 2 ^ 32 > MAXFILE * BSIZE then MAXFILE * BSIZE - off else n
    do
      let (off, n, ip, d) ← writeiLoop src n n d ip off 0
      if n > 0 ∧ off > ip.size then
        let ip := { ip with size := off }
        .ok (n, ip, iupdate d ip)
      else .ok (n, ip, d)

/-! ### What is on the disk of an inode -/

namespace Inode

variable (ip : Inode)

/-- The fields fit into `struct dinode`. -/
structure Fits : Prop where
  type : ip.type < 2 ^ 16
  major : ip.major < 2 ^ 16
  minor : ip.minor < 2 ^ 16
  nlink : ip.nlink < 2 ^ 16
  size : ip.size < 2 ^ 32
  addrs : ∀ k, ip.addrs k < 2 ^ 32
  /-- There are no more. -/
  beyond : ∀ k, NDIRECT < k → ip.addrs k = 0

theorem width_head : width ip.head = 12 := rfl

theorem width_fields : width ip.fields = 64 := by
  rw [fields, width_append, width_map, List.length_range]
  rfl

variable {ip}

theorem getElem?_addrs {k : ℕ} (hk : k ≤ NDIRECT) :
    ip.fields[5 + k]? = some (4, ip.addrs k) := by
  rw [fields, List.getElem?_append_right (Nat.le_add_right 5 k)]
  show ((List.range (NDIRECT + 1)).map _)[5 + k - 5]? = _
  rw [Nat.add_sub_cancel_left, List.getElem?_map, List.getElem?_range (Nat.lt_succ_of_le hk)]
  rfl

/-- Where an address is. -/
theorem width_take_addrs {k : ℕ} (hk : k ≤ NDIRECT) :
    width (ip.fields.take (5 + k)) = 12 + 4 * k := by
  have htake : (ip.head ++ (List.range (NDIRECT + 1)).map fun k ↦ (4, ip.addrs k)).take
      (ip.head.length + k) =
      ip.head ++ ((List.range (NDIRECT + 1)).map fun k ↦ (4, ip.addrs k)).take k :=
    List.take_length_add_append k
  have hfields : ip.fields.take (5 + k) = _ := htake
  rw [hfields, width_append, width_head, ← List.map_take, width_map, List.length_take,
    List.length_range, Nat.min_eq_left (hk.trans (Nat.le_succ _))]

end Inode

variable {d : Disk} {ip : Inode} {i j b : ℕ}

theorem fits_readInode (d : Disk) (i : ℕ) : (readInode d i).Fits := by
  have hlt : ∀ a k, value (d (IBLOCK i)) a k < 256 ^ k := value_lt _
  refine ⟨hlt _ 2, hlt _ 2, hlt _ 2, hlt _ 2, hlt _ 4, fun k ↦ ?_, fun k hk ↦ if_neg (by omega)⟩
  show (if k ≤ NDIRECT then _ else 0) < _
  split_ifs
  · exact hlt _ 4
  · exact Nat.two_pow_pos 32

/-- **What `iupdate` writes is what `ilock` reads.** -/
theorem readInode_iupdate (h : ip.Fits) : readInode (iupdate d ip) ip.inum = ip := by
  have hblock : iupdate d ip (IBLOCK ip.inum) =
      Patch.write (d (IBLOCK ip.inum)) ⟨dinodeOff ip.inum, record ip.fields⟩ :=
    Function.update_self ..
  have hread : ∀ {i k w}, ip.fields[i]? = some (k, w) → w < 256 ^ k →
      value (iupdate d ip (IBLOCK ip.inum)) (dinodeOff ip.inum + width (ip.fields.take i)) k =
        w := by
    intro i k w hi hw
    rw [hblock]
    exact value_of_record (Patch.holds_write _) hi hw
  have haddrs : ∀ k ≤ NDIRECT,
      value (iupdate d ip (IBLOCK ip.inum)) (dinodeOff ip.inum + 12 + 4 * k) 4 = ip.addrs k := by
    intro k hk
    have haddr := hread (Inode.getElem?_addrs hk) (h.addrs k)
    rwa [Inode.width_take_addrs hk, ← Nat.add_assoc] at haddr
  rw [readInode]
  congr 1
  · exact hread (i := 0) rfl h.type
  · exact hread (i := 1) rfl h.major
  · exact hread (i := 2) rfl h.minor
  · exact hread (i := 3) rfl h.nlink
  · exact hread (i := 4) rfl h.size
  · funext k
    split_ifs with hk
    · exact haddrs k hk
    · exact (h.beyond k (by omega)).symm

/-- An inode depends on its bytes only. -/
theorem readInode_congr {d' : Disk}
    (h : ∀ o < 64, d' (IBLOCK i) (dinodeOff i + o) = d (IBLOCK i) (dinodeOff i + o)) :
    readInode d' i = readInode d i := by
  have hvalue : ∀ a k, a + k ≤ 64 →
      value (d' (IBLOCK i)) (dinodeOff i + a) k = value (d (IBLOCK i)) (dinodeOff i + a) k := by
    intro a k hle
    refine value_congr fun o ho ↦ ?_
    rw [Nat.add_assoc]
    exact h _ (by omega)
  rw [readInode, readInode, Inode.mk.injEq]
  refine ⟨rfl, hvalue 0 2 (by decide), hvalue 2 2 (by decide), hvalue 4 2 (by decide),
    hvalue 6 2 (by decide), hvalue 8 4 (by decide), funext fun k ↦ ?_⟩
  split_ifs with hk
  · rw [Nat.add_assoc]
    refine hvalue _ 4 ?_
    have hk : k ≤ 12 := hk
    omega
  · rfl

theorem readInode_bwrite {data : Block} (h : b ≠ IBLOCK i) :
    readInode (d.bwrite b data) i = readInode d i :=
  readInode_congr fun _ _ ↦ congrFun (Function.update_of_ne h.symm ..) _

/-- Two inodes are apart. -/
theorem readInode_iupdate_of_ne (h : i ≠ ip.inum) :
    readInode (iupdate d ip) i = readInode d i := by
  rcases eq_or_ne (IBLOCK i) (IBLOCK ip.inum) with heq | hne
  · refine readInode_congr fun o ho ↦ ?_
    rw [iupdate, heq, Disk.bwrite, Function.update_self]
    refine Patch.write_of_outside ?_
    show dinodeOff i + o < dinodeOff ip.inum ∨
      dinodeOff ip.inum + (record ip.fields).length ≤ dinodeOff i + o
    rw [length_record, Inode.width_fields]
    have hmod : i % IPB ≠ ip.inum % IPB := by
      rw [IBLOCK, IBLOCK] at heq
      have hi := Nat.div_add_mod i IPB
      have hip := Nat.div_add_mod ip.inum IPB
      have hdiv : i / IPB = ip.inum / IPB := by omega
      rw [hdiv] at hi
      omega
    rw [dinodeOff, dinodeOff]
    omega
  · exact readInode_bwrite hne.symm

theorem iupdate_of_ne {c : ℕ} (h : c ≠ IBLOCK ip.inum) : iupdate d ip c = d c := by
  rw [iupdate, Disk.bwrite, Function.update_of_ne h]

theorem two_le_IBLOCK (i : ℕ) : 2 ≤ IBLOCK i := Nat.le_add_left ..

theorem readsb_iupdate (d : Disk) (ip : Inode) : readsb (iupdate d ip) = readsb d :=
  readsb_bwrite (Nat.lt_of_succ_le (two_le_IBLOCK ip.inum)).ne'

/-- Inodes are before the bitmap. -/
theorem IBLOCK_lt {n : ℕ} (h : i < n) : IBLOCK i < n / IPB + 3 := by
  have hdiv := Nat.div_le_div_right (c := IPB) h.le
  rw [IBLOCK]
  omega

end FileSys
