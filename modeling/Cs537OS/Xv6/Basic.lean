import Mathlib.Algebra.Order.Ring.Int
import Mathlib.Logic.Function.Basic

/-!
# What the kernels have in common

Constants and types that the variants of the kernel share: the sizes of `param.h` and `mmu.h`, the
places of the process table, the states of a process and what it sleeps on.

Addresses and sizes are numbers. Where the C code computes with `uint` the results are taken modulo
2 ^ 32 (`uint`), and where it reads them as `int` they are folded back (`int`).
-/

namespace Xv6

/-- Maximum number of processes. -/
def NPROC : ℕ := 64

def PGSIZE : ℕ := 4096

/-- The end of the user address space. -/
def USERTOP : ℕ := 0xA0000

/-- A number as `uint`. -/
def uint (x : ℤ) : ℕ := (x % 2 ^ 32).toNat

/-- A `uint` read as `int`. -/
def int (x : ℕ) : ℤ := if x < 2 ^ 31 then x else x - 2 ^ 32

/-- `x++` of an `int`. -/
def incr (x : ℤ) : ℤ := int (uint (x + 1))

/-- A place in the process table. -/
abbrev Slot := Fin NPROC

theorem one_lt_NPROC : 1 < NPROC := by decide

theorem two_lt_NPROC : 2 < NPROC := by decide

/-- The first process, which `userinit` puts into the first place of the table. -/
def initproc : Slot := ⟨0, by decide⟩

inductive ProcState where
  | unused
  | embryo
  | sleeping
  | runnable
  | running
  | zombie
deriving DecidableEq

/-- An address that a process sleeps on: that of an entry of the table or another one. -/
inductive Chan where
  | null
  | proc (p : Slot)
  | addr (a : ℕ)
deriving DecidableEq

/-- The address of an entry, null for none. -/
def Chan.ofProc : Option Slot → Chan
  | none => .null
  | some p => .proc p

theorem uint_lt (x : ℤ) : uint x < 2 ^ 32 := by
  rw [uint]
  omega

/-- A count that does not wrap. -/
theorem incr_eq {x : ℤ} (hx : 0 ≤ x) (hlt : x < 2 ^ 31 - 1) : incr x = x + 1 := by
  rw [incr, int, uint]
  split_ifs <;> omega

/-- A value below `2 ^ 32` is its own 32-bit value. -/
theorem uint_natCast {x : ℕ} (hx : x < 2 ^ 32) : uint (x : ℤ) = x := by
  rw [uint]
  omega

/-- A sum that does not wrap. -/
theorem uint_add {x y : ℕ} (h : x + y < 2 ^ 32) : uint ((x : ℤ) + y) = x + y := by
  rw [← Nat.cast_add, uint_natCast h]

/-- A difference that is not negative does not wrap. -/
theorem uint_sub {x y : ℕ} (hyx : y ≤ x) (hx : x < 2 ^ 32) : uint ((x : ℤ) - y) = x - y := by
  rw [← Nat.cast_sub hyx, uint_natCast ((Nat.sub_le x y).trans_lt hx)]

/-- User addresses are 32-bit addresses. -/
theorem lt_of_le_USERTOP {x : ℕ} (h : x ≤ USERTOP) : x < 2 ^ 32 := h.trans_lt (by decide)

end Xv6
