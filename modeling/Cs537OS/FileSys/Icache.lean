import Cs537OS.FileSys.Consistent
import Cs537OS.Foundation.Transitions

/-!
# The inode cache

The kernel works on inodes through a table of copies. An entry is in use while its reference count
is not 0; its copy is read from the disk when it is locked for the first time, and `iput` of the
last reference frees the inode on the disk when no directory names it any more.

Processes share the table. A step is one call of a function of the file system, made by a process
that keeps the rules of the comments: a file is read and written by who has its lock, and a
reference is given back once, by who has it, while the lock has a reference of its own. What process
has which references, and which has set `I_BUSY`, is a history that no function reads. A process
that would have to wait for a lock does not take a step.

A name in a directory is what leads to an inode, so `iget` is called with the number of an inode
that is allocated.
-/

namespace FileSys

/-- Maximum number of active i-nodes. -/
def NINODE : ℕ := 50

def T_DEV : ℕ := 3

/-- In-core inode. -/
structure Cached (π : Type) where
  inum : ℕ
  /-- Reference count. -/
  ref : ℕ
  /-- `I_BUSY`, with the process that has set it. -/
  busy : Option π
  /-- The copy of the disk inode, when `I_VALID` is set. -/
  copy : Option Inode

/-- The disk, the cache, and the references that the processes have. -/
structure State (π : Type) where
  disk : Disk
  inode : ℕ → Cached π
  refs : List (π × ℕ)

/-- What a function returns. -/
inductive Result
  | void
  /-- A pointer into the cache. -/
  | inode (k : ℕ)
  | wrote (n : ℤ)
  /-- The bytes that were copied to `dst`, or -1. -/
  | read (dst : Option (List UInt8))
deriving DecidableEq

/-- A call of a function by process `p`, where `k` is an entry of the cache. -/
inductive Act (π : Type)
  | iget (p : π) (inum : ℕ)
  | idup (p : π) (k : ℕ)
  | ialloc (p : π) (type : ℕ)
  | ilock (p : π) (k : ℕ)
  | iunlock (p : π) (k : ℕ)
  | iput (p : π) (k : ℕ)
  | readi (p : π) (k off n : ℕ)
  | writei (p : π) (k : ℕ) (src : ℕ → UInt8) (off n : ℕ)
  /-- New values for the header of the copy, and `iupdate`. -/
  | iupdate (p : π) (k major minor nlink : ℕ)

namespace State

variable {π : Type} (s : State π)

/-- An entry is changed. -/
def setEntry (k : ℕ) (e : Cached π) : State π := { s with inode := Function.update s.inode k e }

/-- The entry of the cache for an inode. -/
def find (inum : ℕ) : Option ℕ :=
  (List.range NINODE).find? fun k ↦ 0 < (s.inode k).ref ∧ (s.inode k).inum = inum

/-- Find the inode with number `inum` and return the in-memory copy. -/
def iget (p : π) (inum : ℕ) : Except String (ℕ × State π) :=
  match s.find inum with
  | some k =>
    let s' := s.setEntry k { s.inode k with ref := (s.inode k).ref + 1 }
    .ok (k, { s' with refs := (p, k) :: s.refs })
  | none =>
    -- allocate fresh inode
    match (List.range NINODE).find? fun k ↦ (s.inode k).ref = 0 with
    | some k =>
      let s' := s.setEntry k { inum := inum, ref := 1, busy := none, copy := none }
      .ok (k, { s' with refs := (p, k) :: s.refs })
    | none => .error "iget: no inodes"

/-- Increment reference count. -/
def idup (p : π) (k : ℕ) : State π :=
  let s' := s.setEntry k { s.inode k with ref := (s.inode k).ref + 1 }
  { s' with refs := (p, k) :: s.refs }

/-- Allocate a new inode with the given type. -/
def ialloc (p : π) (type : ℕ) : Except String (ℕ × State π) := do
  let (inum, disk) ← FileSys.ialloc s.disk type
  { s with disk := disk }.iget p inum

/-- Lock the given inode, which is not locked. -/
def ilock (p : π) (k : ℕ) : Except String (State π) :=
  if (s.inode k).ref < 1 then .error "ilock"
  else
    match (s.inode k).copy with
    | some _ => .ok (s.setEntry k { s.inode k with busy := some p })
    | none =>
      let ip := readInode s.disk (s.inode k).inum
      if ip.type = 0 then .error "ilock: no type"
      else .ok (s.setEntry k { s.inode k with busy := some p, copy := some ip })

/-- Unlock the given inode. -/
def iunlock (k : ℕ) : Except String (State π) :=
  if (s.inode k).busy.isNone ∨ (s.inode k).ref < 1 then .error "iunlock"
  else .ok (s.setEntry k { s.inode k with busy := none })

/-- The inode is no longer used: truncate and free it. -/
def free (k : ℕ) (ip : Inode) : Except String (State π) :=
  if (s.inode k).busy.isSome then .error "iput busy"
  else do
    let (ip, disk) ← itrunc s.disk ip
    let ip := { ip with type := 0 }
    let s' := s.setEntry k { s.inode k with busy := none, copy := none }
    .ok { s' with disk := FileSys.iupdate disk ip }

variable [DecidableEq π]

/-- `ip->ref--`. -/
def drop (p : π) (k : ℕ) : State π :=
  let s' := s.setEntry k { s.inode k with ref := (s.inode k).ref - 1 }
  { s' with refs := s.refs.erase (p, k) }

/-- Drop a reference to an inode. -/
def iput (p : π) (k : ℕ) : Except String (State π) :=
  match (s.inode k).copy with
  | none => .ok (s.drop p k)
  | some ip =>
    if (s.inode k).ref = 1 ∧ ip.nlink = 0 then do
      let s ← s.free k ip
      .ok (s.drop p k)
    else .ok (s.drop p k)

/-- A copy and the disk are changed. -/
def store (k : ℕ) (ip : Inode) (disk : Disk) : State π :=
  let s' := s.setEntry k { s.inode k with copy := some ip }
  { s' with disk := disk }

/-- One call. -/
def step : Act π → Except String (Result × State π)
  | .iget p inum => (s.iget p inum).map fun r ↦ (.inode r.1, r.2)
  | .idup p k => .ok (.inode k, s.idup p k)
  | .ialloc p type => (s.ialloc p type).map fun r ↦ (.inode r.1, r.2)
  | .ilock p k => (s.ilock p k).map (Prod.mk .void)
  | .iunlock _ k => (s.iunlock k).map (Prod.mk .void)
  | .iput p k => (s.iput p k).map (Prod.mk .void)
  | .readi _ k off n =>
    match (s.inode k).copy with
    | none => .error "not locked"
    | some ip => do
      let (dst, ip, disk) ← FileSys.readi s.disk ip off n
      .ok (.read dst, s.store k ip disk)
  | .writei _ k src off n =>
    match (s.inode k).copy with
    | none => .error "not locked"
    | some ip => do
      let (n, ip, disk) ← FileSys.writei s.disk ip src off n
      .ok (.wrote n, s.store k ip disk)
  | .iupdate _ k major minor nlink =>
    match (s.inode k).copy with
    | none => .error "not locked"
    | some ip =>
      let ip := { ip with major := major, minor := minor, nlink := nlink }
      .ok (.void, s.store k ip (FileSys.iupdate s.disk ip))

/-- The process has the lock. -/
def Locked (p : π) (k : ℕ) : Prop := k < NINODE ∧ (s.inode k).busy = some p

instance (p : π) (k : ℕ) : Decidable (s.Locked p k) :=
  inferInstanceAs (Decidable (_ ∧ _))

/-- The file is not a device. -/
def Plain (k : ℕ) : Prop := ∀ ip ∈ (s.inode k).copy, ip.type ≠ T_DEV

instance (k : ℕ) : Decidable (s.Plain k) :=
  inferInstanceAs (Decidable (∀ ip ∈ (s.inode k).copy, ip.type ≠ T_DEV))

end State

instance (d : Disk) (i : ℕ) : Decidable (Live d i) :=
  decidable_of_iff (0 < i ∧ i < (readsb d).ninodes ∧ (readInode d i).type ≠ 0)
    ⟨fun ⟨hpos, hlt, htype⟩ ↦ ⟨hpos, hlt, htype⟩, fun ⟨hpos, hlt, htype⟩ ↦ ⟨hpos, hlt, htype⟩⟩

namespace State

variable {π : Type} [DecidableEq π] (s : State π)

/-- The rules that the callers keep. The arguments are of the types the source gives them. -/
def May : Act π → Prop
  | .iget _ inum => Live s.disk inum
  | .idup p k => (p, k) ∈ s.refs
  | .ialloc _ type => 0 < type ∧ type < 2 ^ 16
  | .ilock p k => (p, k) ∈ s.refs ∧ (s.inode k).busy = none
  | .iunlock p k => s.Locked p k
  | .iput p k => (p, k) ∈ s.refs ∧ ((s.inode k).busy = some p → 2 ≤ s.refs.count (p, k))
  | .readi p k off n => s.Locked p k ∧ s.Plain k ∧ off < 2 ^ 32 ∧ n < 2 ^ 32
  | .writei p k _ off n => s.Locked p k ∧ s.Plain k ∧ off < 2 ^ 32 ∧ n < 2 ^ 32
  | .iupdate p k major minor nlink =>
    s.Locked p k ∧ major < 2 ^ 16 ∧ minor < 2 ^ 16 ∧ nlink < 2 ^ 16

instance (a : Act π) : Decidable (s.May a) := by
  cases a <;> rw [May] <;> infer_instance

/-- What is on the disk of an inode, or in its copy where there is one. -/
def view (i : ℕ) : Inode := ((s.find i).bind fun k ↦ (s.inode k).copy).getD (readInode s.disk i)

/-- Nothing is in the cache of a file system without errors. -/
def Starts : Prop :=
  (∀ k, (s.inode k).ref = 0 ∧ (s.inode k).busy = none) ∧ s.refs = [] ∧
    Consistent s.disk (readInode s.disk)

end State

/-- The processes `π` and their file system. -/
def system (π : Type) [DecidableEq π] : System (State π) (Act π) where
  init := State.Starts
  next s a t := s.May a ∧ ∃ r, s.step a = .ok (r, t)

end FileSys
