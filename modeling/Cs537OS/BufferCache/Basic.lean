import Cs537OS.FileSys.Disk
import Cs537OS.Foundation.LinkedRing
import Cs537OS.Foundation.Transitions
import Mathlib.Data.Fintype.Basic

/-!
# The buffer cache and the disk driver

A process that wants a sector calls `bread`, which looks for the buffer of the sector in the ring of
all buffers and takes the one that was not used for the longest time if there is none. It has the
buffer until it calls `brelse`. `iderw` puts a buffer into the queue of the disk and sleeps until
the disk has read or written it; the disk works on the first buffer of the queue, and its interrupt
takes that buffer out and starts the next one.

`bcache.lock` and `idelock` protect the ring and the queue. A step is what is done under one of them
from where it is taken to where it is given back, by `release` or in `sleep`, or what is done
without them in between. A process that sleeps is woken by `wakeup` or `kill` and goes on with its
loop in a later step.

The processes keep the rules at the head of the source: who uses a buffer has it from `bread`, and
who has changed the data calls `bwrite` before `brelse`. `changed` is the history of that, which no
function reads. The disk interrupts when it has done what it was told, or when it has failed to.
`ideintr` asks it only after a read which of the two it was, and does no more than leave the data of
the buffer as it is; `erred` is the history of that.
-/

namespace BufferCache

open FileSys (Block)

/-- Size of disk block cache. -/
def NBUF : ℕ := 10

/-- `&bcache.head`. -/
def HEAD : ℕ := NBUF

/-- IO Buffer. -/
structure Buf (τ : Type) where
  dev : ℕ
  sector : ℕ
  /-- `B_BUSY`, with the process that has set it. -/
  busy : Option τ
  /-- `B_VALID`. -/
  valid : Bool
  /-- `B_DIRTY`. -/
  dirty : Bool
  data : Block
  changed : Bool

/-- What the disk is told to do, with the unit and the sector on it. -/
inductive Command
  | read (unit sector : ℕ)
  | write (unit sector : ℕ) (data : Block)

/-- Where a process is. -/
inductive Place
  /-- In none of the functions. -/
  | out
  /-- At `loop` in `bget`. -/
  | bget (dev sector : ℕ)
  /-- In `bread`, with the buffer from `bget`. -/
  | bread (b : ℕ)
  /-- At the beginning of `iderw`. -/
  | iderw (b : ℕ)
  /-- In the loop at the end of `iderw`. -/
  | request (b : ℕ)
deriving DecidableEq

structure State (τ : Type) where
  buf : ℕ → Buf τ
  /-- `prev` and `next`. -/
  links : Links ℕ
  /-- `idequeue`, with `qnext`. -/
  idequeue : List ℕ
  command : Option Command
  /-- The sectors of the two disks. -/
  sectors : ℕ × ℕ → Block
  havedisk1 : Bool
  place : τ → Place
  /-- The buffer that a process sleeps on. -/
  asleep : τ → Option ℕ
  /-- The disk has failed to do what it was told. -/
  erred : Bool

/-- What happens, to process `t` or to the disk. -/
inductive Act (τ : Type)
  /-- `bread` is called. -/
  | bread (t : τ) (dev sector : ℕ)
  /-- New contents of `b->data`. -/
  | modify (t : τ) (b : ℕ) (data : Block)
  /-- `bwrite` is called. -/
  | bwrite (t : τ) (b : ℕ)
  | brelse (t : τ) (b : ℕ)
  /-- The process goes on where it is. -/
  | run (t : τ)
  /-- The interrupt of the disk, which has failed or not. -/
  | ideintr (failed : Bool)
  | kill (t : τ)

/-- The unit and the sector that `idestart` gives to the disk. -/
def address (dev sector : ℕ) : ℕ × ℕ := (dev % 2, sector % 2 ^ 28)

namespace Buf

variable {τ : Type} (e : Buf τ)

/-- `(b->flags & (B_VALID|B_DIRTY)) == B_VALID`. -/
def Done : Prop := e.valid = true ∧ e.dirty = false

instance : Decidable e.Done := inferInstanceAs (Decidable (_ ∧ _))

/-- The buffer is for the sector. -/
def IsFor (dev sector : ℕ) : Prop := e.dev = dev ∧ e.sector = sector

instance (dev sector : ℕ) : Decidable (e.IsFor dev sector) := inferInstanceAs (Decidable (_ ∧ _))

/-- The command for a buffer. -/
def command : Command :=
  let a := address e.dev e.sector
  if e.dirty then .write a.1 a.2 e.data else .read a.1 a.2

end Buf

/-- Create linked list of buffers. -/
def binit (r : Links ℕ) : Links ℕ :=
  (List.range NBUF).foldl (fun r b ↦ r.pushFront HEAD b) ((r.setPrev HEAD HEAD).setNext HEAD HEAD)

namespace State

variable {τ : Type} (s : State τ)

/-- Start the request for `b`. -/
def idestart (b : ℕ) : State τ := { s with command := some (s.buf b).command }

/-- The disk does what it was told, or fails and leaves its sectors as they are. -/
def complete (failed : Bool) : State τ :=
  match s.command, failed with
  | some (.write unit sector data), false =>
    { s with sectors := Function.update s.sectors (unit, sector) data }
  | _, _ => s

/-- What comes from the disk. -/
def input (b : ℕ) : Block :=
  match s.command with
  | some (.read unit sector) => s.sectors (unit, sector)
  | _ => (s.buf b).data

/-- Wake the processes that sleep on `b`. -/
def wakeup (b : ℕ) : State τ :=
  { s with asleep := fun t ↦ if s.asleep t = some b then none else s.asleep t }

/-- A buffer is changed. -/
def setBuf (b : ℕ) (e : Buf τ) : State τ := { s with buf := Function.update s.buf b e }

/-- `idewait(1)`, with the error bits that the disk has set. -/
def idewait (failed : Bool) : ℤ := if failed then -1 else 0

/-- Interrupt handler. -/
def ideintr (failed : Bool) : State τ :=
  match s.idequeue with
  | [] => s
  | b :: rest =>
    let s' := s.complete failed
    -- Read data if needed.
    let data := if (s'.buf b).dirty = false ∧ 0 ≤ idewait failed then s'.input b
      else (s'.buf b).data
    let s' := { s' with idequeue := rest, command := none, erred := s.erred || failed }
    let s' := s'.setBuf b { s'.buf b with valid := true, dirty := false, data := data }
    -- Wake process waiting for this buf.
    let s' := s'.wakeup b
    -- Start disk on next buf in queue.
    match rest with
    | [] => s'
    | b' :: _ => s'.idestart b'

variable [DecidableEq τ]

def goto (t : τ) (l : Place) : State τ := { s with place := Function.update s.place t l }

def sleep (t : τ) (b : ℕ) : State τ := { s with asleep := Function.update s.asleep t (some b) }

/-- Look through buffer cache for sector on device `dev`. If not found, allocate fresh block. -/
def bget (t : τ) (dev sector : ℕ) : Except String (State τ) :=
  match Links.search (fun b ↦ (s.buf b).IsFor dev sector) s.links.next HEAD (NBUF + 1)
      (s.links.next HEAD) with
  | some b =>
    if (s.buf b).busy = none then
      .ok ((s.setBuf b { s.buf b with busy := some t }).goto t (.bread b))
    else .ok (s.sleep t b)
  | none =>
    match Links.search (fun b ↦ (s.buf b).busy = none) s.links.prev HEAD (NBUF + 1)
        (s.links.prev HEAD) with
    | some b =>
      let e := { s.buf b with
        dev := dev, sector := sector, busy := some t, valid := false, dirty := false }
      .ok ((s.setBuf b e).goto t (.bread b))
    | none => .error "bget: no buffers"

/-- Wait for request to finish. -/
def request (t : τ) (b : ℕ) : State τ :=
  if (s.buf b).Done then s.goto t .out else s.sleep t b

/-- Sync buf with disk. -/
def iderw (t : τ) (b : ℕ) : Except String (State τ) :=
  if (s.buf b).busy = none then .error "iderw: buf not busy"
  else if (s.buf b).Done then .error "iderw: nothing to do"
  else if (s.buf b).dev ≠ 0 ∧ s.havedisk1 = false then .error "iderw: ide disk 1 not present"
  else
    -- Append b to idequeue.
    let s' := { s with idequeue := s.idequeue ++ [b] }
    -- Start disk if necessary.
    let s' := if s.idequeue = [] then s'.idestart b else s'
    .ok ((s'.goto t (.request b)).request t b)

/-- Write b's contents to disk. -/
def bwrite (t : τ) (b : ℕ) : Except String (State τ) :=
  if (s.buf b).busy = none then .error "bwrite"
  else .ok ((s.setBuf b { s.buf b with dirty := true, changed := false }).goto t (.iderw b))

/-- Release the buffer `b`. -/
def brelse (b : ℕ) : Except String (State τ) :=
  if (s.buf b).busy = none then .error "brelse"
  else
    let s' := { s with links := (s.links.unlink b).pushFront HEAD b }
    .ok ((s'.setBuf b { s.buf b with busy := none }).wakeup b)

/-- A process goes on. -/
def run (t : τ) : Except String (State τ) :=
  match s.place t with
  | .out => .ok s
  | .bget dev sector => s.bget t dev sector
  | .bread b => .ok (s.goto t (if (s.buf b).valid then .out else .iderw b))
  | .iderw b => s.iderw t b
  | .request b => .ok (s.request t b)

def step : Act τ → Except String (State τ)
  | .bread t dev sector => .ok (s.goto t (.bget dev sector))
  | .modify _ b data => .ok (s.setBuf b { s.buf b with data := data, changed := true })
  | .bwrite t b => s.bwrite t b
  | .brelse _ b => s.brelse b
  | .run t => s.run t
  | .ideintr failed => .ok (s.ideintr failed)
  | .kill t => .ok { s with asleep := Function.update s.asleep t none }

/-- A process has the buffer and is in none of the functions. -/
def Uses (t : τ) (b : ℕ) : Prop := s.place t = .out ∧ b < NBUF ∧ (s.buf b).busy = some t

instance (t : τ) (b : ℕ) : Decidable (s.Uses t b) := inferInstanceAs (Decidable (_ ∧ _ ∧ _))

/-- The sector is there: on disk 0, or on disk 1 if there is one. -/
def Present (dev sector : ℕ) : Prop :=
  (dev = 0 ∨ dev = 1 ∧ s.havedisk1 = true) ∧ sector < 2 ^ 28

instance (dev sector : ℕ) : Decidable (s.Present dev sector) :=
  inferInstanceAs (Decidable (_ ∧ _))

/-- The rules that the processes keep, and which of them can go on. -/
def May : Act τ → Prop
  | .bread t dev sector => s.place t = .out ∧ s.Present dev sector
  | .modify t b _ => s.Uses t b
  | .bwrite t b => s.Uses t b
  | .brelse t b => s.Uses t b ∧ (s.buf b).changed = false
  | .run t => s.place t ≠ .out ∧ s.asleep t = none
  | .ideintr _ => True
  | .kill _ => True

instance (a : Act τ) : Decidable (s.May a) := by
  cases a <;> rw [May] <;> infer_instance

/-- After `binit`. -/
def Starts : Prop :=
  (∃ r : Links ℕ, s.links = binit r) ∧
    (∀ b, (s.buf b).dev = 2 ^ 32 - 1 ∧ (s.buf b).busy = none ∧ (s.buf b).valid = false ∧
      (s.buf b).dirty = false ∧ (s.buf b).changed = false) ∧
    s.idequeue = [] ∧ s.command = none ∧ (∀ t, s.place t = .out ∧ s.asleep t = none) ∧
    s.erred = false

end State

/-- The disk does not fail. -/
def NoError {τ : Type} (_ : State τ) : Act τ → Prop
  | .ideintr failed => failed = false
  | _ => True

instance {τ : Type} (s : State τ) : ∀ a, Decidable (NoError s a)
  | .ideintr failed => inferInstanceAs (Decidable (failed = false))
  | .bread _ _ _ => isTrue trivial
  | .modify _ _ _ => isTrue trivial
  | .bwrite _ _ => isTrue trivial
  | .brelse _ _ => isTrue trivial
  | .run _ => isTrue trivial
  | .kill _ => isTrue trivial

/-- The processes `τ`, their buffers and the disk. -/
def system (τ : Type) [DecidableEq τ] : System (State τ) (Act τ) where
  init := State.Starts
  next s a t := s.May a ∧ s.step a = .ok t

end BufferCache
