import Cs537OS.Foundation.Transitions
import Cs537OS.StackReloc.Vm

/-!
# New address spaces

`exec` and `fork` of the kernel with the relocated stack, and the runs of several processes.

A new page directory comes from `setupkvm` and maps no user page. `exec` fills it with the segments
of the program, which start above the two pages that are kept free, and a page for the stack; `fork`
copies the pages of the parent. What is read from a file is an input of the step: the program
headers, and whether reading them and the segments goes well.

Writing to user pages changes no page table, so the contents of the stack and of the segments are
left out; so are the pages that hold page directories. But `loaduvm` reads a segment to the physical
pages that it finds in the new page directory, which maps every page from `USERTOP` on one to one.
A segment with data there (`Proghdr.Stray`) overwrites whatever the page is used for, page tables
included, and every state may follow. Data below `USERTOP` that has no page is read to address 0,
where the kernel faults or writes to the page that the caller has there.

Every process has the list of free pages as it sees it. Between its own calls others take pages and
give pages back, which is the action `others`.
-/

open Xv6

namespace StackReloc

/-- A program header, and how reading it and its segment goes. -/
structure Proghdr where
  /-- The type is `ELF_PROG_LOAD`. -/
  load : Bool
  va : UInt32
  filesz : UInt32
  memsz : UInt32
  /-- The header is read in full. -/
  read : Bool
  /-- So is the segment. -/
  loaded : Bool

/-- The segment is loaded, and data of it goes to addresses from `USERTOP` on. The sum that
`allocuvm` gets has wrapped then. -/
def Proghdr.Stray (ph : Proghdr) : Prop :=
  ph.load ∧ ph.filesz ≤ ph.memsz ∧ uint (ph.va.toNat + ph.memsz.toNat) ≤ USERTOP ∧
    ph.va.toNat % PGSIZE = 0 ∧ ph.filesz ≠ 0 ∧ USERTOP < ph.va.toNat + ph.filesz.toNat

/-- The loop over the program headers comes to a segment with stray data, if there is memory for
the segments before it. -/
def Stray : List Proghdr → Prop
  | [] => False
  | ph :: phs => ph.read ∧ (ph.Stray ∨
      (ph.load → ph.filesz ≤ ph.memsz ∧ ph.loaded) ∧ Stray phs)

/-- A program to be executed. -/
structure Program where
  /-- The file is there, is an ELF file, and a page directory is to be had. -/
  valid : Bool
  phdrs : List Proghdr
  /-- The arguments are not too many and fit on the stack. -/
  args : Bool

namespace Vm

/-- A new page directory. -/
def setupkvm (freelist : List ℕ) : Vm := ⟨fun _ ↦ none, freelist⟩

/-- Free all pages of user memory. -/
def freevm (m : Vm) : Except Panic Vm := do
  let r ← m.deallocuvm USERTOP 0
  .ok r.2

/-- The loop of `exec` that loads the program; the size it comes to, or none when the program is
bad. -/
def loadSegments : List Proghdr → ℕ → Vm → Except Panic (Option ℕ × Vm)
  | [], sz, m => .ok (some sz, m)
  | ph :: phs, sz, m =>
    if ¬ ph.read then
      .ok (none, m)
    else if ¬ ph.load then
      loadSegments phs sz m
    else if ph.memsz < ph.filesz then
      .ok (none, m)
    else do
      let r ← m.allocuvm sz (uint (ph.va.toNat + ph.memsz.toNat))
      if r.1 = 0 then
        .ok (none, r.2)
      else if ph.va.toNat % PGSIZE ≠ 0 then
        .error ⟨"loaduvm: addr must be page aligned"⟩
      else if ¬ ph.loaded then
        .ok (none, r.2)
      else
        loadSegments phs r.1 r.2

/-- The loops of `copyuvm`, the one over the heap and the one over the stack, from the page table
`pte` into `d`. -/
def copyPages (pte : ℕ → Option ℕ) : List ℕ → Vm → Except Panic (Bool × Vm)
  | [], d => .ok (true, d)
  | i :: is, d =>
    match pte (i / PGSIZE) with
    | none => .error ⟨"copyuvm: page not present"⟩
    | some _ =>
      match d.kalloc with
      | none => .ok (false, d)
      | some (mem, d') => do
        let d'' ← d'.mappages i mem
        copyPages pte is d''

/-- Create a copy of an address space for a child. The flag says whether there was memory for it. -/
def copyuvm (m : Vm) (sz stackaddr : ℕ) : Except Panic (Bool × Vm) := do
  let r ← copyPages m.pte (pages (2 * PGSIZE) sz ++ pages stackaddr USERTOP) (setupkvm m.freelist)
  if r.1 then
    .ok r
  else do
    let d ← r.2.freevm
    .ok (false, d)

end Vm

/-- A process after a call that failed, with the free pages left. -/
def Proc.setFreelist (p : Proc) (freelist : List ℕ) : Proc :=
  { p with vm := { p.vm with freelist := freelist } }

/-- Execute a program. Returns 0 on success, -1 on failure. -/
def exec (p : Proc) (prog : Program) : Except Panic (ℤ × Proc) :=
  if ¬ prog.valid then
    .ok (-1, p)
  else do
    let r ← Vm.loadSegments prog.phdrs (2 * PGSIZE) (.setupkvm p.vm.freelist)
    match r.1 with
    | none => do
      let m ← r.2.freevm
      .ok (-1, p.setFreelist m.freelist)
    | some sz => do
      let s ← r.2.allocuvm (USERTOP - PGSIZE) USERTOP
      if s.1 = 0 then
        .error ⟨"allocate new stack failed"⟩
      else if ¬ prog.args then do
        let m ← s.2.freevm
        .ok (-1, p.setFreelist m.freelist)
      else do
        let old ← (p.setFreelist s.2.freelist).vm.freevm
        .ok (0, { p with
          sz := sz
          stackHead := USERTOP - PGSIZE
          vm := { s.2 with freelist := old.freelist } })

/-- Create a new process copying `p` as the parent: the parent, and the child if there was memory
for it. -/
def fork (p : Proc) : Except Panic (Proc × Option Proc) := do
  let r ← p.vm.copyuvm p.sz p.stackHead
  if r.1 then
    .ok (p.setFreelist r.2.freelist, some { p with killed := false, vm := r.2 })
  else
    .ok (p.setFreelist r.2.freelist, none)

/-! ### Runs of several processes -/

/-- The processes there are. -/
abbrev Procs := Slot → Option Proc

/-- Why a step is not taken. -/
inductive Fault where
  /-- The action is not possible in this state. -/
  | blocked
  | panic (why : Panic)

/-- What can happen to a process. -/
inductive ProcAction where
  /-- It grows or shrinks, touches a page, or others change the list of free pages. -/
  | memory (a : Action)
  | exec (prog : Program)
  /-- The child gets the entry `c`. -/
  | fork (c : Slot)
  /-- It exits and its parent waits for it. -/
  | exit

/-- A panic stops the machine. -/
def orPanic {α : Type} : Except Panic α → Except Fault α
  | .error e => .error (.panic e)
  | .ok x => .ok x

namespace Procs

/-- One step of process `q`. -/
def step (ps : Procs) (q : Slot) (a : ProcAction) : Except Fault Procs :=
  match ps q with
  | none => .error .blocked
  | some p =>
    match a with
    | .memory a => do
      let p' ← orPanic (StackReloc.step p a)
      .ok (Function.update ps q (some p'))
    | .exec prog => do
      let r ← orPanic (StackReloc.exec p prog)
      .ok (Function.update ps q (some r.2))
    | .fork c =>
      if ps c = none then do
        let r ← orPanic (StackReloc.fork p)
        .ok (Function.update (Function.update ps q (some r.1)) c r.2)
      else
        .error .blocked
    | .exit => .ok (Function.update ps q none)

end Procs

/-- The action writes data of a segment over memory that is not of the new image. -/
def ProcAction.Stray : ProcAction → Prop
  | .exec prog => prog.valid ∧ StackReloc.Stray prog.phdrs
  | _ => False

/-- The runs that start with a process that has executed the program `start`. What stray data leaves
of the page tables is not known. -/
def procSystem (start : Program) : System Procs (Slot × ProcAction) where
  init ps := ∃ q p p', exec p start = .ok (0, p') ∧
    (ps = Function.update (fun _ ↦ none) q (some p') ∨ (ProcAction.exec start).Stray)
  next ps a ps' := ps.step a.1 a.2 = .ok ps' ∨ (ps a.1).isSome ∧ a.2.Stray

end StackReloc
