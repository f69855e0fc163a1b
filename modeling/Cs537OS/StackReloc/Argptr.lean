import Cs537OS.StackReloc.Guard

/-!
# Pointer arguments of system calls

`argptr` fetches a pointer that a process passes to a system call together with the size of the
block it points to. It looks at the two ends of the block, each of which may lie in the code and
heap or in the stack. A block that starts in the heap and ends in the stack has good ends and the
gap between them inside; `argptr_sound_iff` says that this is the only way a bad block is accepted.

Sizes are `int`s and addresses `uint`s; a sum of the two is taken modulo 2 ^ 32. With a size that is
not negative such a sum does not wrap, as the start is below `USERTOP`.
-/

open Xv6

namespace StackReloc

/-- A process in a system call: its saved `%esp`, and the words it has in user memory. -/
structure Caller where
  proc : Proc
  esp : ℕ
  word : ℕ → UInt32

/-- Check that the ends of a block of `size` bytes at `addr` lie in user memory. -/
def checkbounds (p : Proc) (addr size : ℤ) : ℤ :=
  if addr > USERTOP ∨ int (uint (addr + size)) > USERTOP ∨ addr < 2 * PGSIZE ∨
      int (uint (addr + size)) < 2 * PGSIZE ∨ (uint addr ≥ p.sz ∧ uint addr < p.stackHead) ∨
      (uint (addr + size) > p.sz ∧ uint (addr + size) < p.stackHead) then -1
  else 0

/-- Fetch the int at `addr`. -/
def fetchint (c : Caller) (addr : ℕ) : Option UInt32 :=
  if checkbounds c.proc (int addr) 4 = -1 then none else some (c.word addr)

/-- Fetch the `n`th 32-bit system call argument. -/
def argint (c : Caller) (n : ℕ) : Option UInt32 :=
  fetchint c (uint (c.esp + 4 + 4 * n))

/-- The tests of `argptr` on the pointer `i`: `none` for the return value -1, the pointer for 0. -/
def checkptr (p : Proc) (i : ℕ) (size : ℤ) : Option ℕ :=
  if (i ≥ p.sz ∧ i < p.stackHead) ∨
      (uint (i + size) > p.sz ∧ uint (i + size) < p.stackHead) then none
  else if (i ≥ p.sz ∧ i > USERTOP) ∨ (uint (i + size) > p.sz ∧ uint (i + size) > USERTOP) then none
  else if i ≥ 0 ∧ i < 2 * PGSIZE then none
  else some i

/-- Fetch the `n`th system call argument as a pointer to a block of memory of `size` bytes. -/
def argptr (c : Caller) (n : ℕ) (size : ℤ) : Option ℕ :=
  (argint c n).bind fun i ↦ checkptr c.proc i.toNat size

/-- The block that `sys_read` and `sys_write` fetch, its size first. -/
def rwArgs (c : Caller) : Option (ℤ × ℕ) := do
  let n ← argint c 2
  let p ← argptr c 1 (int n.toNat)
  return (int n.toNat, p)

/-- Every byte of the block lies in the code and heap, or every byte in the stack. -/
def Within (p : Proc) (i : ℕ) (size : ℤ) : Prop :=
  (∀ b : ℕ, i ≤ b → b < i + size → 2 * PGSIZE ≤ b ∧ b < p.sz) ∨
    ∀ b : ℕ, i ≤ b → b < i + size → p.stackHead ≤ b ∧ b < USERTOP

/-- The block starts in the code and heap and ends in the stack. -/
def Straddles (p : Proc) (i : ℕ) (size : ℤ) : Prop :=
  2 * PGSIZE ≤ i ∧ i < p.sz ∧ p.stackHead ≤ i + size ∧ i + size ≤ USERTOP

instance (p : Proc) : Decidable (Apart p) := inferInstanceAs (Decidable (_ ≤ _))

instance (p : Proc) (i : ℕ) (size : ℤ) : Decidable (Straddles p i size) :=
  inferInstanceAs (Decidable (_ ∧ _ ∧ _ ∧ _))

variable {p : Proc} {i : ℕ} {size : ℤ}

/-- The pointers that pass: the start in one of the two regions, and the end in the same or, from
the heap, in the other one. -/
theorem checkptr_eq_some_iff (happart : Apart p) (htop : p.stackHead ≤ USERTOP) (h₀ : 0 ≤ size)
    (hmax : size < 2 ^ 31) {ptr : ℕ} :
    checkptr p i size = some ptr ↔
      ptr = i ∧ 2 * PGSIZE ≤ i ∧
        (i < p.sz ∧ (i + size ≤ p.sz ∨ p.stackHead ≤ i + size ∧ i + size ≤ USERTOP) ∨
          p.stackHead ≤ i ∧ i + size ≤ USERTOP) := by
  rw [Apart] at happart
  rw [PGSIZE] at happart ⊢
  rw [USERTOP] at htop ⊢
  have huint : i ≤ 0xA0000 → (uint (i + size) : ℤ) = i + size := by
    intro hi
    rw [uint]
    omega
  rw [checkptr]
  rw [USERTOP, PGSIZE]
  by_cases hi : i ≤ 0xA0000
  · have hsum := huint hi
    split_ifs <;> grind
  · -- a start above the top is refused
    split_ifs <;> grind

/-- A block of a pointer that passes lies in one region unless it straddles the gap. -/
theorem within_iff_of_checkptr (happart : Apart p) (htop : p.stackHead ≤ USERTOP) (h₀ : 0 ≤ size)
    (hmax : size < 2 ^ 31) {ptr : ℕ} (h : checkptr p i size = some ptr) :
    Within p ptr size ↔ ¬ Straddles p i size := by
  obtain ⟨rfl, hlow, hends⟩ := (checkptr_eq_some_iff happart htop h₀ hmax).1 h
  rw [Apart] at happart
  rw [PGSIZE] at happart
  constructor
  · rintro (hheap | hstack) ⟨-, hlt, hhead, -⟩
    · -- the byte at the end of the heap is in the block
      have hsz := hheap p.sz hlt.le (by omega)
      omega
    · have hstart := hstack ptr le_rfl (by omega)
      omega
  · intro hno
    have hno : ¬ (ptr < p.sz ∧ p.stackHead ≤ ptr + size ∧ ptr + size ≤ USERTOP) :=
      fun hs ↦ hno ⟨hlow, hs⟩
    rcases hends with ⟨hlt, hend | hend⟩ | ⟨hhead, hend⟩
    · exact .inl fun b hb hlast ↦ ⟨by omega, by omega⟩
    · exact absurd ⟨hlt, hend⟩ hno
    · exact .inr fun b hb hlast ↦ ⟨by omega, by omega⟩

/-- A block that straddles the gap passes. -/
theorem Straddles.checkptr (h : Straddles p i size) (happart : Apart p)
    (htop : p.stackHead ≤ USERTOP) (h₀ : 0 ≤ size) (hmax : size < 2 ^ 31) :
    checkptr p i size = some i :=
  (checkptr_eq_some_iff happart htop h₀ hmax).2 ⟨rfl, h.1, .inl ⟨h.2.1, .inr h.2.2⟩⟩

/-- **When `argptr` is sound.** It accepts only blocks that lie in one region exactly when the
pointer it fetches, if any, does not start a block that straddles the gap. -/
theorem argptr_sound_iff (c : Caller) (n : ℕ) {size : ℤ} (happart : Apart c.proc)
    (htop : c.proc.stackHead ≤ USERTOP) (h₀ : 0 ≤ size) (hmax : size < 2 ^ 31) :
    (∀ ptr, argptr c n size = some ptr → Within c.proc ptr size) ↔
      ∀ i, argint c n = some i → ¬ Straddles c.proc i.toNat size := by
  simp only [argptr, Option.bind_eq_some_iff]
  constructor
  · intro h i hi hs
    have hpass := hs.checkptr happart htop h₀ hmax
    have hwithin := h _ ⟨i, hi, hpass⟩
    exact (within_iff_of_checkptr happart htop h₀ hmax hpass).1 hwithin hs
  · rintro h ptr ⟨i, hi, hpass⟩
    exact (within_iff_of_checkptr happart htop h₀ hmax hpass).2 (h i hi)

/-- A process with a page of code and a page of stack, that passes the address of its code. -/
def smallCaller : Caller where
  proc := { sz := 3 * PGSIZE, stackHead := USERTOP - PGSIZE, killed := false,
            vm := { pte := fun _ ↦ none, freelist := [] } }
  esp := USERTOP - 64
  word _ := 0x2000

/-- A block of a page. -/
theorem smallCaller_argptr :
    argptr smallCaller 1 PGSIZE = some 0x2000 ∧ Within smallCaller.proc 0x2000 PGSIZE := by
  have hptr : argptr smallCaller 1 PGSIZE = some 0x2000 := by decide
  refine ⟨hptr, (argptr_sound_iff smallCaller 1 (by decide) (by decide) (by decide) (by decide)).2
    (fun i hi ↦ ?_) 0x2000 hptr⟩
  have harg : argint smallCaller 1 = some 0x2000 := by decide
  obtain rfl : 0x2000 = i := Option.some.inj (harg.symm.trans hi)
  decide

/-- A block that reaches from the code to the stack is accepted, gap included. -/
theorem smallCaller_straddles :
    2 * PGSIZE ≤ smallCaller.proc.sz ∧ Apart smallCaller.proc ∧
      smallCaller.proc.stackHead ≤ USERTOP ∧ argptr smallCaller 1 0x9D000 = some 0x2000 ∧
      ¬ Within smallCaller.proc 0x2000 0x9D000 := by
  refine ⟨by decide, by decide, by decide, by decide, ?_⟩
  rintro (hheap | hstack)
  · exact absurd (hheap 0x4000 (by decide) (by decide)).2 (by decide)
  · exact absurd (hstack 0x4000 (by decide) (by decide)).1 (by decide)

/-! ### read and write -/

theorem int_lt {n : ℕ} (hn : n < 2 ^ 32) : int n < 2 ^ 31 := by
  rw [int]
  split_ifs <;> omega

/-- `sys_read` and `sys_write` hand on a block of one region, if its size is not negative and it
does not straddle the gap. -/
theorem rwArgs_within {c : Caller} (happart : Apart c.proc) (htop : c.proc.stackHead ≤ USERTOP)
    {n : ℤ} {ptr : ℕ} (h : rwArgs c = some (n, ptr)) (h₀ : 0 ≤ n)
    (hno : ¬ Straddles c.proc ptr n) : Within c.proc ptr n := by
  obtain ⟨w, -, h⟩ := Option.bind_eq_some_iff.1 h
  obtain ⟨ptr', harg, h⟩ := Option.bind_eq_some_iff.1 h
  obtain ⟨rfl, rfl⟩ := Prod.mk.inj (Option.some.inj h)
  obtain ⟨i, -, hpass⟩ := Option.bind_eq_some_iff.1 harg
  have hmax : int w.toNat < 2 ^ 31 := int_lt w.toNat_lt
  obtain ⟨rfl, -⟩ := (checkptr_eq_some_iff happart htop h₀ hmax).1 hpass
  exact (within_iff_of_checkptr happart htop h₀ hmax hpass).2 hno

end StackReloc
