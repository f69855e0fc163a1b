import Cs537OS.Foundation.Agreement
import Cs537OS.StackReloc.Ram
import Cs537OS.Xv6.Copyout

/-!
# What `exec` writes

`exec` once more, with the contents of the pages: what the segments are loaded with, and the
arguments and addresses that are pushed on the new stack. The module on the loader has the same
functions without the contents.

`exec` gets the addresses of the argument strings, which are in the memory of its caller. It reads
each string when it pushes it, when the segments have been loaded (`cstring`).
-/

open Xv6 Agreement

namespace StackReloc

/-- `memset(v, 0, PGSIZE)`. -/
def Ram.zeroPage (r : Ram) (v : ℕ) : Ram := { r with mem := Function.update r.mem v fun _ ↦ 0 }

namespace Space

/-- The loop of `allocuvm` over the pages to be mapped. -/
def allocPages (oldsz newsz : ℕ) : List ℕ → Space → Except Panic (ℕ × Space)
  | [], s => .ok (newsz, s)
  | a :: as, s =>
    match s.ram.kalloc with
    | none => do
      let r ← s.deallocuvm newsz oldsz
      .ok (0, r.2)
    | some (mem, ram) => do
      let s' ← Space.mappages ⟨s.pte, ram.zeroPage mem⟩ a PGSIZE mem
      allocPages oldsz newsz as s'

/-- Allocate physical memory to grow a process from `oldsz` to `newsz`. Returns the new size or 0
on error. -/
def allocuvm (s : Space) (oldsz newsz : ℕ) : Except Panic (ℕ × Space) :=
  if newsz > USERTOP then
    .ok (0, s)
  else if newsz < oldsz then
    .ok (oldsz, s)
  else
    allocPages oldsz newsz (Vm.pages (PGROUNDUP oldsz) newsz) s

end Space

namespace Contents

open Elf (File Task Pgdir Stop liftPanic)

/-- The bytes of a file that are read at `off` when `readi` returns `n`. -/
def fileBytes (f : File) (off : ℕ) (n : ℤ) : List UInt8 :=
  (List.range n.toNat).map fun j ↦ f.byte (off + j)

/-- What `readi` does to memory when it reads `n` bytes at `off` to `dst`. -/
def store (t : Task) (f : File) (dst off : ℕ) (n : ℤ) (mem : ℕ → Page) : Except Stop (ℕ → Page) :=
  if n ≤ 0 then
    .ok mem
  else
    match Elf.physical t dst with
    | none => .error (.pagefault dst)
    | some page => .ok (Paging.poke mem page ⟨dst % PGSIZE, fileBytes f off n⟩)

/-- The loop of `loaduvm`. Reading fails before `i` goes round. -/
def loadPages (t : Task) (f : File) (m : Vm) (addr offset sz : ℕ) :
    List ℕ → (ℕ → Page) → Except Stop (ℤ × (ℕ → Page))
  | [], mem => .ok (0, mem)
  | i :: is, mem =>
    match Elf.walkpgdir m (uint (addr + i)) with
    | none => .error (.panic ⟨"loaduvm: address should exist"⟩)
    | some pa => do
      let n := if sz - i < PGSIZE then sz - i else PGSIZE
      let mem ← store t f pa (uint (offset + i)) (f.readi (uint (offset + i)) n) mem
      if f.readi (uint (offset + i)) n ≠ n then
        .ok (-1, mem)
      else
        loadPages t f m addr offset sz is mem

/-- Load a program segment into the address space `s`. -/
def loaduvm (t : Task) (s : Space) (addr : ℕ) (f : File) (offset sz : ℕ) :
    Except Stop (ℤ × Space) :=
  if addr % PGSIZE ≠ 0 then
    .error (.panic ⟨"loaduvm: addr must be page aligned"⟩)
  else do
    let r ← loadPages t f s.vm addr offset sz (Vm.pages 0 sz) s.ram.mem
    .ok (r.1, { s with ram := { s.ram with mem := r.2 } })

/-- What the loop over the program headers comes to: the size, or none for a bad program. -/
structure Loaded where
  size : Option ℕ
  space : Space

/-- Load the program into memory. -/
def loadProgram (t : Task) (f : File) : List (Option Elf.Proghdr) → ℕ → Space → Except Stop Loaded
  | [], sz, s => .ok ⟨some sz, s⟩
  | none :: _, _, s => .ok ⟨none, s⟩
  | some ph :: phs, sz, s =>
    if ph.type ≠ Elf.ELF_PROG_LOAD then
      loadProgram t f phs sz s
    else if ph.memsz < ph.filesz then
      .ok ⟨none, s⟩
    else do
      let r ← liftPanic (s.allocuvm sz (uint (ph.va + ph.memsz)))
      if r.1 = 0 then
        .ok ⟨none, r.2⟩
      else do
        let l ← loaduvm t r.2 ph.va f ph.offset ph.filesz
        if l.1 < 0 then
          .ok ⟨none, l.2⟩
        else
          loadProgram t f phs r.1 l.2

/-- The string at the linear address `a`, which `strlen` measures and `copyout` copies: the bytes
before the first NUL. The first argument is a bound on the bytes; no string goes round all of
memory. -/
def cstring (t : Task) (mem : ℕ → Page) : ℕ → ℕ → Except Stop (List UInt8)
  | 0, a => .error (.pagefault a)
  | n + 1, a =>
    match Elf.physical t a with
    | none => .error (.pagefault a)
    | some page =>
      if mem page (a % PGSIZE) = 0 then
        .ok []
      else do
        let s ← cstring t mem n (uint (a + 1))
        .ok (mem page (a % PGSIZE) :: s)

/-- Push the argument strings at the addresses `argv`. The addresses of those that have been pushed
are in `ustack`, behind the first three words. Returns them and the stack pointer. -/
def pushArgs (t : Task) (pte : ℕ → Option ℕ) : List ℕ → List ℕ → ℕ → (ℕ → Page) →
    Except Stop (Option (List ℕ × ℕ) × (ℕ → Page))
  | [], ustack, sp, mem => .ok (some (ustack, sp), mem)
  | a :: argv, ustack, sp, mem =>
    if ustack.length ≥ Elf.MAXARG then
      .ok (none, mem)
    else do
      let s ← cstring t mem (2 ^ 32) a
      let sp := uint (sp - (s.length + 1)) / 4 * 4
      let c := copyout pte sp (s ++ [0]) mem
      if c.1 then pushArgs t pte argv (ustack ++ [sp]) sp c.2 else .ok (none, c.2)

/-- What is pushed below the strings: a fake return address, the number of arguments, the address of
the array of their addresses, and this array with a null at its end. -/
def frame (ustack : List ℕ) (sp : ℕ) : List ℕ :=
  [0xffffffff, ustack.length, uint (sp - (ustack.length + 1) * 4)] ++ ustack ++ [0]

/-- Push the frame below the strings. Returns the stack pointer. -/
def pushFrame (pte : ℕ → Option ℕ) (ustack : List ℕ) (sp : ℕ) (mem : ℕ → Page) :
    Option ℕ × (ℕ → Page) :=
  let sp' := uint (sp - (3 + ustack.length + 1) * 4)
  let c := copyout pte sp' ((frame ustack sp).flatMap wordBytes) mem
  (if c.1 then some sp' else none, c.2)

/-- Push the arguments and the rest of the stack. Returns the stack pointer. -/
def pushStack (t : Task) (pte : ℕ → Option ℕ) (argv : List ℕ) (stackaddr : ℕ) (mem : ℕ → Page) :
    Except Stop (Option ℕ × (ℕ → Page)) := do
  let r ← pushArgs t pte argv [] stackaddr mem
  match r.1 with
  | none => .ok (none, r.2)
  | some (ustack, sp) => .ok (pushFrame pte ustack sp r.2)

structure Outcome where
  ret : ℤ
  task : Task
  ram : Ram

/-- The end of `exec` for a bad program. -/
def bad (t : Task) (d : Pgdir) (s : Space) : Except Stop Outcome := do
  let ram ← liftPanic (freevm { d with user := s.pte } s.ram)
  .ok ⟨-1, t, ram⟩

/-- The rest of `exec` when the program is in memory: the stack and the commit. -/
def runLoaded (t : Task) (d : Pgdir) (entry sz : ℕ) (argv : List ℕ) (s : Space) :
    Except Stop Outcome := do
  let r ← liftPanic (s.allocuvm (USERTOP - PGSIZE) USERTOP)
  if r.1 = 0 then
    .error (.panic ⟨"allocate new stack failed"⟩)
  else do
    let c ← pushStack t r.2.pte argv r.1 r.2.ram.mem
    match c.1 with
    | none => bad t d { r.2 with ram := { r.2.ram with mem := c.2 } }
    | some sp => do
      let ram ← liftPanic (freevm t.pgdir { r.2.ram with mem := c.2 })
      .ok
        { ret := 0
          task :=
            { pgdir := { d with user := r.2.pte }
              sz := sz
              stackHead := USERTOP - PGSIZE
              tf := ⟨entry, sp⟩ }
          ram := ram }

/-- What follows the loop over the program headers. -/
def finish (t : Task) (d : Pgdir) (entry : ℕ) (argv : List ℕ) :
    Option ℕ → Space → Except Stop Outcome
  | none, s => bad t d s
  | some sz, s => runLoaded t d entry sz argv s

/-- Execute the program in a file, none for a path that leads nowhere, with the arguments at the
addresses `argv`. -/
def exec (t : Task) (r : Ram) (file : Option File) (argv : List ℕ) : Except Stop Outcome :=
  match file with
  | none => .ok ⟨-1, t, r⟩
  | some f =>
    if uint (f.readi 0 Elf.Elfhdr.sizeof) < Elf.Elfhdr.sizeof then
      .ok ⟨-1, t, r⟩
    else if f.elfhdr.magic ≠ Elf.ELF_MAGIC then
      .ok ⟨-1, t, r⟩
    else
      match setupkvm r with
      | (none, r) => .ok ⟨-1, t, r⟩
      | (some d, r) => do
        let l ← loadProgram t f f.phdrs (2 * PGSIZE) ⟨d.user, r⟩
        finish t d f.elfhdr.entry argv l.size l.space

end Contents

/-! ### The two accounts of memory agree -/

/-- The results of a function on address spaces without and with contents. -/
def SameVm (r : ℕ × Space) (r' : ℕ × Vm) : Prop := r.1 = r'.1 ∧ r.2.vm = r'.2

namespace Space

theorem deallocPage_agree (s : Space) (a : ℕ) :
    Agree (fun s m ↦ s.vm = m) (s.deallocPage a) (s.vm.deallocPage a) := by
  rw [deallocPage, Vm.deallocPage]
  rcases hpte : s.pte (a / PGSIZE) with - | pa
  · simp only [vm, hpte]
    exact .ok rfl
  · simp only [vm, hpte]
    exact .ite Iff.rfl (fun _ ↦ .error _) fun _ ↦ .ok rfl

theorem deallocuvm_agree (s : Space) (oldsz newsz : ℕ) :
    Agree SameVm (s.deallocuvm oldsz newsz) (s.vm.deallocuvm oldsz newsz) := by
  rw [deallocuvm, Vm.deallocuvm]
  refine .ite Iff.rfl (fun _ ↦ .ok ⟨rfl, rfl⟩) fun _ ↦ ?_
  have hloop := Agree.foldlM (f := deallocPage) (g := Vm.deallocPage) (R := fun s m ↦ s.vm = m)
    (fun s m a hs ↦ hs ▸ s.deallocPage_agree a) (a := s) rfl (Vm.pages (PGROUNDUP newsz) oldsz)
  exact hloop.bind fun s' m' hs ↦ .ok ⟨rfl, hs⟩

theorem mapPage_agree (s : Space) {a : ℕ} (ha : a < USERTOP) (pa : ℕ) :
    Agree (fun s m ↦ s.vm = m) (s.mapPage a pa) (s.vm.mappages a pa) := by
  rw [mapPage, Vm.mappages]
  exact .ite (or_iff_right (Nat.not_le.2 ha)) (fun _ ↦ .error _) fun _ ↦ .ok rfl

theorem allocPages_agree {oldsz newsz : ℕ} {as : List ℕ} (has : ∀ a ∈ as, PGSIZE ∣ a ∧ a < USERTOP)
    (s : Space) :
    Agree SameVm (s.allocPages oldsz newsz as) (s.vm.allocPages oldsz newsz as) := by
  induction as generalizing s with
  | nil => exact .ok ⟨rfl, rfl⟩
  | cons a as ih =>
    obtain ⟨⟨halign, ha⟩, has⟩ := List.forall_mem_cons.1 has
    obtain ⟨pte, freelist, mem⟩ := s
    rcases freelist with - | ⟨v, next⟩
    · exact (deallocuvm_agree ⟨pte, [], mem⟩ newsz oldsz).bind fun r r' hr ↦ .ok ⟨rfl, hr.2⟩
    · have hmap := mapPage_agree ⟨pte, Ram.zeroPage ⟨next, mem⟩ v⟩ ha v
      rw [← mappages_eq halign] at hmap
      exact hmap.bind fun s' m' hs ↦ hs ▸ ih has s'

theorem allocuvm_agree (s : Space) (oldsz newsz : ℕ) :
    Agree SameVm (s.allocuvm oldsz newsz) (s.vm.allocuvm oldsz newsz) := by
  rw [allocuvm, Vm.allocuvm]
  refine .ite Iff.rfl (fun _ ↦ .ok ⟨rfl, rfl⟩) fun htop ↦
    .ite Iff.rfl (fun _ ↦ .ok ⟨rfl, rfl⟩) fun _ ↦ allocPages_agree (fun a ha ↦ ?_) s
  obtain ⟨i, rfl, hlt⟩ := Vm.mem_pages.1 ha
  exact ⟨Nat.dvd_add (Vm.dvd_PGROUNDUP oldsz) (Nat.dvd_mul_left _ _),
    hlt.trans_le (Nat.le_of_not_lt htop)⟩

end Space

/-- The free pages of two results. -/
def SameFree (r : Ram) (freelist : List ℕ) : Prop := r.freelist = freelist

theorem foldl_kfree_agree (pas : List ℕ) {r : Ram} {m : Vm} (h : r.freelist = m.freelist) :
    (pas.foldl Ram.kfree r).freelist = (pas.foldl Vm.kfree m).freelist := by
  induction pas generalizing r m with
  | nil => exact h
  | cons pa pas ih =>
    rw [List.foldl_cons, List.foldl_cons]
    exact ih (congrArg (pa :: ·) h)

theorem freevm_agree (d : Elf.Pgdir) (r : Ram) :
    Agree SameFree (freevm d r) (Elf.freevm d r.freelist) := by
  refine (Space.deallocuvm_agree ⟨d.user, r⟩ USERTOP 0).bind fun s s' hs ↦ .ok ?_
  exact congrArg (d.dir :: ·) (foldl_kfree_agree d.tables (congrArg Vm.freelist hs.2))

namespace Contents

open Elf (File Task Pgdir Stop liftPanic)

variable {t : Task} {f : File} {pte : ℕ → Option ℕ} {mem : ℕ → Page}

theorem liftPanic_agree {α β : Type} {R : α → β → Prop} {x : Except Panic α} {y : Except Panic β}
    (h : Agree R x y) : Agree R (liftPanic x) (liftPanic y) := by
  cases h with
  | error e => exact .error _
  | ok hR => exact .ok hR

theorem store_agree (m : Vm) (dst off : ℕ) (n : ℤ) (mem : ℕ → Page) :
    Agree (fun _ _ ↦ True) (store t f dst off n mem) (Elf.store t m dst n) := by
  rw [store, Elf.store]
  refine .ite Iff.rfl (fun _ ↦ .ok trivial) fun _ ↦ ?_
  rcases Elf.physical t dst with - | page
  · exact .error _
  · exact .ok trivial

theorem loadPages_agree {m : Vm} {addr offset sz : ℕ} (is : List ℕ) (mem : ℕ → Page) :
    Agree (fun r r' ↦ r.1 = r'.1) (loadPages t f m addr offset sz is mem)
      (Elf.loadPages t f m addr offset sz is) := by
  induction is generalizing mem with
  | nil => exact .ok rfl
  | cons i is ih =>
    rw [loadPages, Elf.loadPages]
    rcases Elf.walkpgdir m (uint (addr + i)) with - | pa
    · exact .error _
    · refine (store_agree m _ _ _ mem).bind fun mem' w _ ↦ ?_
      refine .ite Iff.rfl (fun _ ↦ .ok rfl) fun _ ↦ ?_
      -- the other account puts the list of pages together after the rest of the loop
      exact (ih mem').map_right fun _ _ h ↦ h

theorem loaduvm_agree (s : Space) (addr offset sz : ℕ) :
    Agree (fun r r' ↦ r.1 = r'.1 ∧ r.2.vm = s.vm) (loaduvm t s addr f offset sz)
      (Elf.loaduvm t s.vm addr f offset sz) := by
  rw [loaduvm, Elf.loaduvm]
  refine .ite Iff.rfl (fun _ ↦ .error _) fun _ ↦ ?_
  exact (loadPages_agree (Vm.pages 0 sz) s.ram.mem).map_left fun r r' hr ↦ ⟨hr, rfl⟩

theorem loadProgram_agree (phs : List (Option Elf.Proghdr)) (sz : ℕ) (s : Space) :
    Agree (fun l l' ↦ l.size = l'.size ∧ l.space.vm = l'.vm) (loadProgram t f phs sz s)
      (Elf.loadProgram t f phs sz s.vm) := by
  induction phs generalizing sz s with
  | nil => exact .ok ⟨rfl, rfl⟩
  | cons oph phs ih =>
    rcases oph with - | ph
    · exact .ok ⟨rfl, rfl⟩
    rw [loadProgram, Elf.loadProgram]
    refine .ite Iff.rfl (fun _ ↦ ih sz s) fun _ ↦ .ite Iff.rfl (fun _ ↦ .ok ⟨rfl, rfl⟩) fun _ ↦ ?_
    refine (liftPanic_agree (s.allocuvm_agree sz (uint (ph.va + ph.memsz)))).bind ?_
    rintro ⟨newsz, s'⟩ ⟨-, m'⟩ ⟨rfl, rfl⟩
    refine .ite Iff.rfl (fun _ ↦ .ok ⟨rfl, rfl⟩) fun _ ↦ ?_
    refine (loaduvm_agree s' ph.va ph.offset ph.filesz).bind ?_
    rintro ⟨ret, s''⟩ ⟨-, w⟩ ⟨rfl, hvm⟩
    refine .ite Iff.rfl (fun _ ↦ .ok ⟨rfl, hvm⟩) fun _ ↦ ?_
    have hrest := ih newsz s''
    rw [hvm] at hrest
    exact hrest.map_right fun _ _ h ↦ h

/-! ### The stack -/

/-- Without the contents, `copyout` goes by the pages of the bytes. -/
theorem elf_copyout_iff {m : Vm} {va len : ℕ} : Elf.copyout m va len = true ↔
    ∀ i < len, (m.pte (uint ((va + i : ℕ) : ℤ) / PGSIZE)).isSome := by
  rw [Elf.copyout, Bool.or_eq_true, beq_iff_eq, List.all_eq_true]
  have hpage : ∀ i,
      uint ((va / PGSIZE * PGSIZE + (va % PGSIZE + i) / PGSIZE * PGSIZE : ℕ) : ℤ) / PGSIZE =
      uint ((va + i : ℕ) : ℤ) / PGSIZE := fun i ↦ by
    unfold uint PGSIZE
    omega
  constructor
  · rintro (rfl | h) i hi
    · exact absurd hi (Nat.not_lt_zero i)
    · rw [← hpage]
      refine h _ (Vm.mem_pages.2 ⟨(va % PGSIZE + i) / PGSIZE, rfl, ?_⟩)
      rw [PGSIZE]
      omega
  · intro h
    refine or_iff_not_imp_left.2 fun hlen a ha ↦ ?_
    obtain ⟨j, rfl, hj⟩ := Vm.mem_pages.1 ha
    -- the first byte of the copy in that page
    have hfirst : (va % PGSIZE + (j * PGSIZE - va % PGSIZE)) / PGSIZE = j := by
      unfold PGSIZE at *
      rcases j with - | j <;> omega
    have hi : j * PGSIZE - va % PGSIZE < len := by
      have hdiv := Nat.div_add_mod' va PGSIZE
      omega
    have hbyte := h _ hi
    rwa [← hpage, hfirst] at hbyte

theorem copyout_fst (pte : ℕ → Option ℕ) (freelist : List ℕ) {va : ℕ} (hva : va < 2 ^ 32)
    (buf : List UInt8) (mem : ℕ → Page) :
    (copyout pte va buf mem).1 = Elf.copyout ⟨pte, freelist⟩ va buf.length := by
  rw [Bool.eq_iff_iff, copyout_iff hva, elf_copyout_iff]

theorem length_frame (ustack : List ℕ) (sp : ℕ) :
    (frame ustack sp).length = 3 + ustack.length + 1 := by
  rw [frame, List.length_append, List.length_append]
  rfl

theorem pushFrame_fst (pte : ℕ → Option ℕ) (freelist : List ℕ) (ustack : List ℕ) (sp : ℕ)
    (mem : ℕ → Page) :
    (pushFrame pte ustack sp mem).1 =
      if Elf.copyout ⟨pte, freelist⟩ (uint (sp - (3 + ustack.length + 1) * 4))
        ((3 + ustack.length + 1) * 4) then
        some (uint (sp - (3 + ustack.length + 1) * 4)) else none := by
  have hcopy := copyout_fst pte freelist (uint_lt (sp - (3 + ustack.length + 1) * 4))
    ((frame ustack sp).flatMap wordBytes) mem
  rw [length_flatMap_wordBytes, length_frame] at hcopy
  rw [← hcopy]
  rfl

/-- An empty image. -/
theorem image_zero (free : List ℕ) : Elf.image free 0 = ⟨fun _ ↦ none, free⟩ := by
  refine congrArg (Vm.mk · free) (funext fun n ↦ ?_)
  show (if n < 2 then none else ([] : List ℕ)[n - 2]?) = none
  split_ifs <;> rfl

end Contents

end StackReloc
