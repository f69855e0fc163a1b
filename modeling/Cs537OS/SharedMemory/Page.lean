import Cs537OS.Foundation.Patches
import Mathlib.Algebra.Order.Ring.Int
import Mathlib.Data.Int.Notation

/-!
# The shared page

The server maps one page. Its first 64 bytes hold the mutex, every further run of 64 bytes one
`stats_t`, a slot. A slot whose `pid` is `-1` is free.

A statement of the source that assigns to a field is a `store` into the slot. All that matters here
is which bytes a store leaves alone (`store_of_slot_ne`) and what it does to the `pid` fields
(`pidAt_store_self`, `pidAt_store_of_ne`).
-/

namespace SharedMemory

/-- `pagesize/64-1`: one segment is reserved for the mutex. -/
def maxClient (pagesize : ℕ) : ℕ := pagesize / 64 - 1

/-- The fields of `stats_t`. -/
inductive Field
  | pid
  | birth
  | clientString
  | elapsedSec
  | elapsedMsec
deriving DecidableEq

namespace Field

/-- Where the field lies in `stats_t`, with the alignment of x86-64. -/
def offset : Field → ℕ
  | pid => 0
  | birth => 4
  | clientString => 29
  | elapsedSec => 40
  | elapsedMsec => 48

def size : Field → ℕ
  | pid => 4
  | birth => 25
  | clientString => 10
  | elapsedSec => 4
  | elapsedMsec => 8

theorem offset_add_size_le (f : Field) : f.offset + f.size ≤ 64 := by
  cases f <;> decide

theorem four_le_offset {f : Field} (h : f ≠ .pid) : 4 ≤ f.offset := by
  cases f with
  | pid => exact absurd rfl h
  | birth | clientString | elapsedSec | elapsedMsec => decide

end Field

/-- The bytes of an `int`. -/
def intBytes (v : ℤ) : List UInt8 :=
  let w := (v % 2 ^ 32).toNat
  [UInt8.ofNat w, UInt8.ofNat (w / 2 ^ 8), UInt8.ofNat (w / 2 ^ 16), UInt8.ofNat (w / 2 ^ 24)]

/-- The `int` whose bytes, the lowest first, are these. -/
def ofBytes (b₀ b₁ b₂ b₃ : UInt8) : ℤ :=
  let w : ℕ := b₀.toNat + 2 ^ 8 * b₁.toNat + 2 ^ 16 * b₂.toNat + 2 ^ 24 * b₃.toNat
  if w < 2 ^ 31 then w else (w : ℤ) - 2 ^ 32

/-- `((stats_t*)(sharepointer+i*64))->pid`. -/
def pidAt (mem : ℕ → UInt8) (i : ℕ) : ℤ :=
  ofBytes (mem (64 * i)) (mem (64 * i + 1)) (mem (64 * i + 2)) (mem (64 * i + 3))

/-- An assignment to a field of slot `i`. -/
def store (i : ℕ) (f : Field) (vals : List UInt8) : Patch UInt8 := ⟨64 * i + f.offset, vals⟩

/-- The server's loop that frees the slots. -/
def initSlots (pagesize : ℕ) (mem : ℕ → UInt8) : ℕ → UInt8 :=
  Patch.writeAll mem
    ((List.range' 1 (maxClient pagesize)).map fun i ↦ store i .pid (intBytes (-1)))

section

variable {mem mem' : ℕ → UInt8} {i j b : ℕ} {f : Field} {v : ℤ} {vals : List UInt8}

/-- An `int` is read back as it was stored. -/
theorem pidAt_of_holds (hlow : -2 ^ 31 ≤ v) (hhigh : v < 2 ^ 31)
    (h : (store i .pid (intBytes v)).Holds mem) : pidAt mem i = v := by
  have h₀ := h 0 (by simp [store, intBytes])
  have h₁ := h 1 (by simp [store, intBytes])
  have h₂ := h 2 (by simp [store, intBytes])
  have h₃ := h 3 (by simp [store, intBytes])
  simp only [store, Field.offset, intBytes, Nat.add_zero, List.getElem_cons_zero,
    List.getElem_cons_succ] at h₀ h₁ h₂ h₃
  simp only [pidAt, ofBytes, h₀, h₁, h₂, h₃, UInt8.toNat_ofNat']
  split <;> omega

/-- A store reaches only its own slot. -/
theorem store_of_slot_ne (hlen : vals.length ≤ f.size) (hne : j ≠ i) (hb : b < 64) :
    (store i f vals).write mem (64 * j + b) = mem (64 * j + b) := by
  have hfits := f.offset_add_size_le
  refine Patch.write_of_outside ?_
  show 64 * j + b < 64 * i + f.offset ∨ 64 * i + f.offset + vals.length ≤ 64 * j + b
  omega

/-- A store reaches only its own field. -/
theorem store_of_ne_pid (hf : f ≠ .pid) (hb : b < 4) :
    (store i f vals).write mem (64 * i + b) = mem (64 * i + b) := by
  have hfour := Field.four_le_offset hf
  refine Patch.write_of_outside (.inl ?_)
  show 64 * i + b < 64 * i + f.offset
  omega

theorem pidAt_congr (h : ∀ b < 4, mem' (64 * i + b) = mem (64 * i + b)) :
    pidAt mem' i = pidAt mem i := by
  have h₀ : mem' (64 * i) = mem (64 * i) := h 0 (by decide)
  rw [pidAt, h₀, h 1 (by decide), h 2 (by decide), h 3 (by decide), pidAt]

/-- An assignment changes nothing in another slot. -/
theorem pidAt_store_of_slot_ne (hlen : vals.length ≤ f.size) (hne : j ≠ i) :
    pidAt ((store i f vals).write mem) j = pidAt mem j :=
  pidAt_congr fun _ hb ↦ store_of_slot_ne hlen hne (by omega)

/-- Only an assignment to a `pid` field changes a `pid` field. -/
theorem pidAt_store_of_ne (hf : f ≠ .pid) (hlen : vals.length ≤ f.size) :
    pidAt ((store i f vals).write mem) j = pidAt mem j := by
  rcases eq_or_ne j i with rfl | hne
  · exact pidAt_congr fun b hb ↦ store_of_ne_pid hf hb
  · exact pidAt_store_of_slot_ne hlen hne

/-- `pid = v`. -/
theorem pidAt_store_self (hlow : -2 ^ 31 ≤ v) (hhigh : v < 2 ^ 31) :
    pidAt ((store i .pid (intBytes v)).write mem) i = v :=
  pidAt_of_holds hlow hhigh (Patch.holds_write mem)

/-- After its loop every slot is free, whatever the page held. -/
theorem pidAt_initSlots {pagesize : ℕ} (hpos : 1 ≤ i) (hle : i ≤ maxClient pagesize) :
    pidAt (initSlots pagesize mem) i = -1 := by
  have hmem : i ∈ List.range' 1 (maxClient pagesize) := List.mem_range'_1.2 ⟨hpos, by omega⟩
  refine pidAt_of_holds (by decide) (by decide) (Patch.holds_iff.2 fun a v hv ↦ ?_)
  refine Patch.writeAll_of_mem (List.mem_map.2 ⟨i, hmem, rfl⟩) hv fun q hq w hw ↦ ?_
  obtain ⟨j, -, rfl⟩ := List.mem_map.1 hq
  -- two slots do not share an address
  have hi := Patch.off_le_of_at? hv
  have hi' := Patch.lt_of_at? hv
  have hj := Patch.off_le_of_at? hw
  have hj' := Patch.lt_of_at? hw
  have hji : j = i := by
    simp only [store, Field.offset, intBytes, List.length_cons, List.length_nil] at hi hi' hj hj'
    omega
  rw [hji, hv] at hw
  exact (Option.some.inj hw).symm

end

end SharedMemory
