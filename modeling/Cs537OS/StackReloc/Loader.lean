import Cs537OS.StackReloc.Elf
import Cs537OS.StackReloc.Vm

/-!
# Loading a program

`exec` of the kernel with the relocated stack in full: the program headers come from the file, the
page directory and its tables from the allocator, and the segments are written to physical pages. A
segment goes wherever the entry for its address points, in user memory or not, so each page that is
written is kept together with the pages that the new page directory maps as user memory.

The list of free pages is the list of the pages that `kalloc` is going to return. Where other
processes take pages and give pages back in the meantime it is the list of those this call gets,
which ends where `kalloc` finds nothing.

What is pushed on the stack is left out, and so is the name of the process; of the trap frame, the
registers that `exec` sets are kept. The numbers of arguments and their lengths are what `exec`
looks at.
-/

open Xv6

namespace StackReloc.Elf

/-- Top of physical memory. -/
def PHYSTOP : ℕ := 0x1000000

/-- Max exec arguments. -/
def MAXARG : ℕ := 32

/-- Page directory index. -/
def PDX (a : ℕ) : ℕ := a / 2 ^ 22

/-- The parts of memory that every page directory maps one to one: from the I/O space over the text
and the data of the kernel to the end of memory, and the devices. -/
def kmap : List (ℕ × ℕ) := [(USERTOP, PHYSTOP), (0xFE000000, 2 ^ 32)]

/-- The entries of a page directory that `kmap` needs. -/
def kernelTables : List ℕ :=
  kmap.flatMap fun k ↦ List.range' (PDX k.1) (PDX (k.2 - 1) + 1 - PDX k.1)

/-- A page directory: the user pages it maps, and the pages that it and its tables are in. -/
structure Pgdir where
  user : ℕ → Option ℕ
  dir : ℕ
  tables : List ℕ

/-- The registers of a trap frame that `exec` sets. -/
structure Trapframe where
  eip : ℕ
  esp : ℕ

/-- A process that calls `exec`. -/
structure Task where
  pgdir : Pgdir
  sz : ℕ
  stackHead : ℕ
  tf : Trapframe

/-- How a call may end without coming back. -/
inductive Stop where
  | panic (why : Panic)
  /-- The kernel touches an address that is not mapped: `trap` marks the process as killed and goes
  back to the same instruction. -/
  | pagefault (addr : ℕ)
deriving DecidableEq

def liftPanic {α : Type} : Except Panic α → Except Stop α
  | .error why => .error (.panic why)
  | .ok x => .ok x

/-- A page that is written with data of a segment, and the user pages of the new page directory at
that time. -/
structure Write where
  page : ℕ
  image : List ℕ
deriving DecidableEq

/-- The user pages that are mapped. -/
def userPages (m : Vm) : List ℕ := (List.range (USERTOP / PGSIZE)).filterMap m.pte

/-- The address in the entry for `a`, 0 where the entry is not present; none where there is no
table. From `USERTOP` on the tables map every page one to one. -/
def walkpgdir (m : Vm) (a : ℕ) : Option ℕ :=
  if PDX a ∉ kernelTables then
    none
  else if a < USERTOP then
    some ((m.pte (a / PGSIZE)).getD 0)
  else
    some (a / PGSIZE * PGSIZE)

/-- The physical page at the linear address `a` in the address space of `t`. -/
def physical (t : Task) (a : ℕ) : Option ℕ :=
  if a < USERTOP then
    t.pgdir.user (a / PGSIZE)
  else if PDX a ∈ kernelTables then
    some (a / PGSIZE * PGSIZE)
  else
    none

/-- What `readi` does to memory when it reads `n` bytes to `dst` for the address space `m`. -/
def store (t : Task) (m : Vm) (dst : ℕ) (n : ℤ) : Except Stop (List Write) :=
  if n ≤ 0 then
    .ok []
  else
    match physical t dst with
    | none => .error (.pagefault dst)
    | some page => .ok [⟨page, userPages m⟩]

/-- The loop of `loaduvm`. Reading fails before `i` goes round. -/
def loadPages (t : Task) (f : File) (m : Vm) (addr offset sz : ℕ) :
    List ℕ → Except Stop (ℤ × List Write)
  | [] => .ok (0, [])
  | i :: is =>
    match walkpgdir m (uint (addr + i)) with
    | none => .error (.panic ⟨"loaduvm: address should exist"⟩)
    | some pa => do
      let n := if sz - i < PGSIZE then sz - i else PGSIZE
      let w ← store t m pa (f.readi (uint (offset + i)) n)
      if f.readi (uint (offset + i)) n ≠ n then
        .ok (-1, w)
      else do
        let r ← loadPages t f m addr offset sz is
        .ok (r.1, w ++ r.2)

/-- Load a program segment into the address space `m`. -/
def loaduvm (t : Task) (m : Vm) (addr : ℕ) (f : File) (offset sz : ℕ) :
    Except Stop (ℤ × List Write) :=
  if addr % PGSIZE ≠ 0 then
    .error (.panic ⟨"loaduvm: addr must be page aligned"⟩)
  else
    loadPages t f m addr offset sz (Vm.pages 0 sz)

/-- The page tables that `mappages` creates for the entries of the directory in turn. -/
def mapTables : List ℕ → Vm → Option (List ℕ) × Vm
  | [], m => (some [], m)
  | _ :: is, m =>
    match m.kalloc with
    | none => (none, m)
    | some (pgtab, m') => ((mapTables is m').1.map (pgtab :: ·), (mapTables is m').2)

/-- Set up the kernel part of a page table, with the address space that it begins. -/
def setupkvm (freelist : List ℕ) : Option Pgdir × Vm :=
  match Vm.kalloc ⟨fun _ ↦ none, freelist⟩ with
  | none => (none, ⟨fun _ ↦ none, freelist⟩)
  | some (pgdir, m) => ((mapTables kernelTables m).1.map fun tables ↦ ⟨m.pte, pgdir, tables⟩,
      (mapTables kernelTables m).2)

/-- Free a page table and all the physical memory pages in the user part. Returns the free pages. -/
def freevm (d : Pgdir) (freelist : List ℕ) : Except Panic (List ℕ) := do
  let r ← Vm.deallocuvm ⟨d.user, freelist⟩ USERTOP 0
  .ok ((d.tables.foldl Vm.kfree r.2).kfree d.dir).freelist

/-- Copy `len` bytes to user address `va`: whether all of its pages are user pages. -/
def copyout (m : Vm) (va len : ℕ) : Bool :=
  len == 0 ||
    (Vm.pages (va / PGSIZE * PGSIZE) (va + len)).all fun (va0 : ℕ) ↦
      (m.pte (uint va0 / PGSIZE)).isSome

/-- Push the argument strings of the given lengths. Returns the number of arguments and the stack
pointer. -/
def pushArgs (m : Vm) : List ℕ → ℕ → ℕ → Option (ℕ × ℕ)
  | [], argc, sp => some (argc, sp)
  | len :: argv, argc, sp =>
    if argc ≥ MAXARG then
      none
    else
      let sp := uint (sp - (len + 1)) / 4 * 4
      if copyout m sp (len + 1) then pushArgs m argv (argc + 1) sp else none

/-- Push the arguments and the rest of the stack. Returns the stack pointer. -/
def pushStack (m : Vm) (argv : List ℕ) (stackaddr : ℕ) : Option ℕ := do
  let r ← pushArgs m argv 0 stackaddr
  let sp := uint (r.2 - (3 + r.1 + 1) * 4)
  if copyout m sp ((3 + r.1 + 1) * 4) then some sp else none

/-- What the loop over the program headers comes to: the size, or none for a bad program. -/
structure Loaded where
  size : Option ℕ
  vm : Vm
  written : List Write

/-- Load the program into memory. -/
def loadProgram (t : Task) (f : File) : List (Option Proghdr) → ℕ → Vm → Except Stop Loaded
  | [], sz, m => .ok ⟨some sz, m, []⟩
  | none :: _, _, m => .ok ⟨none, m, []⟩
  | some ph :: phs, sz, m =>
    if ph.type ≠ ELF_PROG_LOAD then
      loadProgram t f phs sz m
    else if ph.memsz < ph.filesz then
      .ok ⟨none, m, []⟩
    else do
      let r ← liftPanic (m.allocuvm sz (uint (ph.va + ph.memsz)))
      if r.1 = 0 then
        .ok ⟨none, r.2, []⟩
      else do
        let s ← loaduvm t r.2 ph.va f ph.offset ph.filesz
        if s.1 < 0 then
          .ok ⟨none, r.2, s.2⟩
        else do
          let l ← loadProgram t f phs r.1 r.2
          .ok { l with written := s.2 ++ l.written }

structure Outcome where
  ret : ℤ
  task : Task
  freelist : List ℕ
  written : List Write

/-- The end of `exec` for a bad program. -/
def bad (t : Task) (d : Pgdir) (m : Vm) : Except Stop Outcome := do
  let freelist ← liftPanic (freevm { d with user := m.pte } m.freelist)
  .ok ⟨-1, t, freelist, []⟩

/-- The rest of `exec` when the program is in memory: the stack and the commit. -/
def runLoaded (t : Task) (d : Pgdir) (entry sz : ℕ) (argv : List ℕ) (m : Vm) :
    Except Stop Outcome := do
  let s ← liftPanic (m.allocuvm (USERTOP - PGSIZE) USERTOP)
  if s.1 = 0 then
    .error (.panic ⟨"allocate new stack failed"⟩)
  else
    match pushStack s.2 argv s.1 with
    | none => bad t d s.2
    | some sp => do
      let freelist ← liftPanic (freevm t.pgdir s.2.freelist)
      .ok
        { ret := 0
          task :=
            { pgdir := { d with user := s.2.pte }
              sz := sz
              stackHead := USERTOP - PGSIZE
              tf := ⟨entry, sp⟩ }
          freelist := freelist
          written := [] }

/-- What follows the loop over the program headers. -/
def finish (t : Task) (d : Pgdir) (entry : ℕ) (argv : List ℕ) : Option ℕ → Vm → Except Stop Outcome
  | none, m => bad t d m
  | some sz, m => runLoaded t d entry sz argv m

/-- Execute the program in a file, none for a path that leads nowhere, with arguments of the lengths
`argv`. -/
def exec (t : Task) (freelist : List ℕ) (file : Option File) (argv : List ℕ) :
    Except Stop Outcome :=
  match file with
  | none => .ok ⟨-1, t, freelist, []⟩
  | some f =>
    if uint (f.readi 0 Elfhdr.sizeof) < Elfhdr.sizeof then
      .ok ⟨-1, t, freelist, []⟩
    else if f.elfhdr.magic ≠ ELF_MAGIC then
      .ok ⟨-1, t, freelist, []⟩
    else
      match setupkvm freelist with
      | (none, m) => .ok ⟨-1, t, m.freelist, []⟩
      | (some d, m) => do
        let l ← loadProgram t f f.phdrs (2 * PGSIZE) m
        let r ← finish t d f.elfhdr.entry argv l.size l.vm
        -- no segment is written any more after the loop
        .ok { r with written := l.written }

/-! ### What `exec` promises -/

/-- A page of physical memory that the allocator handles: `kfree` takes no other. The kernel ends
above the first megabyte. -/
def Frame (pa : ℕ) : Prop := pa % PGSIZE = 0 ∧ 0x100000 ≤ pa ∧ pa < PHYSTOP

instance (pa : ℕ) : Decidable (Frame pa) := inferInstanceAs (Decidable (_ ∧ _ ∧ _))

/-- The allocator and the process that calls `exec`: the pages they have are pages of the allocator,
and the process has no page at address 0. -/
structure WellFormed (t : Task) (freelist : List ℕ) : Prop where
  free : ∀ pa ∈ freelist, Frame pa
  user : ∀ n pa, t.pgdir.user n = some pa → Frame pa
  dir : Frame t.pgdir.dir
  tables : ∀ pa ∈ t.pgdir.tables, Frame pa
  null : t.pgdir.user 0 = none

/-- A new image is in place, with the gap between it and the stack. -/
def Committed (t : Task) : Prop :=
  2 * PGSIZE ≤ t.sz ∧ t.sz + 5 * PGSIZE ≤ t.stackHead ∧ t.stackHead = USERTOP - PGSIZE

/-- The call returns, with a new image or with the process as it was, and no segment is written to
a page but those of the new image. -/
def AllOrNothing (t : Task) (o : Except Stop Outcome) : Prop :=
  ∃ r, o = .ok r ∧ (r.ret = 0 ∧ Committed r.task ∨ r.ret = -1 ∧ r.task = t) ∧
    ∀ w ∈ r.written, w.page ∈ w.image

end StackReloc.Elf
