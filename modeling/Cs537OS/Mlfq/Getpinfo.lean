import Cs537OS.Mlfq.Accounting

/-!
# `getpinfo` and the memory of its caller

`sys_getpinfo` passes `argptr` the size of its variable, which is a pointer, and `helper` fills in a
whole `struct pstat` at the address that comes back. So four bytes are checked and 3072 are written.

* `getpinfo_inside_iff` — the writes of `getpinfo` stay in the memory of the caller when the call is
  refused or there is room for the whole struct, and only then;
* `exists_store_iff` — because `helper` writes every byte of the struct.

Addresses are `uint`s; sums are taken modulo 2 ^ 32.
-/

open Xv6

namespace Mlfq

/-- The process that makes a system call: its size, its saved `%esp`, and the words it has in user
memory. -/
structure Caller where
  sz : UInt32
  esp : UInt32
  word : ℕ → UInt32

/-- Fetch the int at `addr`. -/
def fetchint (c : Caller) (addr : ℕ) : Option UInt32 :=
  if addr ≥ c.sz.toNat ∨ uint (addr + 4) > c.sz.toNat then none else some (c.word addr)

/-- Fetch the `n`th 32-bit system call argument. -/
def argint (c : Caller) (n : ℕ) : Option UInt32 :=
  fetchint c (uint (c.esp.toNat + 4 + 4 * n))

/-- Fetch the `n`th system call argument as a pointer to a block of memory of `size` bytes. -/
def argptr (c : Caller) (n size : ℕ) : Option ℕ :=
  (argint c n).bind fun i ↦
    if i.toNat ≥ c.sz.toNat ∨ uint (i.toNat + size) > c.sz.toNat then none else some i.toNat

/-- The size of a pointer. -/
def sizeofPointer : ℕ := 4

/-! ### The layout of `struct pstat` -/

def inuseAt (i : ℕ) : ℕ := 4 * i

def pidAt (i : ℕ) : ℕ := 4 * NPROC + 4 * i

def priorityAt (i : ℕ) : ℕ := 8 * NPROC + 4 * i

def stateAt (i : ℕ) : ℕ := 12 * NPROC + 4 * i

def ticksAt (i l : ℕ) : ℕ := 16 * NPROC + 16 * i + 4 * l

def waitTicksAt (i l : ℕ) : ℕ := 32 * NPROC + 16 * i + 4 * l

def sizeofPstat : ℕ := 48 * NPROC

/-- The number of a state in `enum procstate`. -/
def stateNumber : ProcState → ℤ
  | .unused => 0
  | .embryo => 1
  | .sleeping => 2
  | .runnable => 3
  | .running => 4
  | .zombie => 5

/-- What one turn of the loop of `helper` stores, and at which offset. -/
def entryStores (i : ℕ) (a : Proc) : List (ℕ × ℤ) :=
  (priorityAt i, (a.priority : ℤ)) :: (List.range 4).map (fun l ↦ (ticksAt i l, a.ticks l)) ++
    (pidAt i, a.pid) :: (List.range 4).map (fun l ↦ (waitTicksAt i l, a.waitTicks l)) ++
      [(stateAt i, stateNumber a.state), (inuseAt i, if a.inuse then 1 else 0)]

/-- The ints that `helper` stores for a struct at `cur`: address and value. -/
def helperStores (t : Table) (cur : ℕ) : List (ℕ × ℤ) :=
  (List.finRange NPROC).flatMap fun i : Slot ↦
    (entryStores i (t i)).map fun s ↦ (uint (cur + s.1), s.2)

/-- The system call: what it returns and what it stores. -/
def getpinfo (t : Table) (c : Caller) : ℤ × List (ℕ × ℤ) :=
  match argptr c 0 sizeofPointer with
  | none => (-1, [])
  | some cur => (0, helperStores t cur)

/-- The call is refused and writes nothing, or all bytes that it writes lie in the memory of the
caller. -/
def GetpinfoInside (t : Table) (c : Caller) : Prop :=
  getpinfo t c = (-1, []) ∨ ∀ s ∈ (getpinfo t c).2, ∀ b : ℕ, b < 4 → uint (s.1 + b) < c.sz.toNat

/-! ### The bytes that are written -/

variable {t : Table} {c : Caller} {cur : ℕ}

/-- What is stored in the turn of an entry. -/
theorem mem_entryStores_iff {i : ℕ} {a : Proc} {off : ℕ} :
    (∃ v, (off, v) ∈ entryStores i a) ↔ off = inuseAt i ∨ off = pidAt i ∨ off = priorityAt i ∨
      off = stateAt i ∨ (∃ l < 4, off = ticksAt i l) ∨ ∃ l < 4, off = waitTicksAt i l := by
  simp only [entryStores, List.mem_append, List.mem_cons, List.mem_map, List.mem_range,
    List.not_mem_nil, or_false, Prod.mk.injEq]
  constructor
  · rintro ⟨v, ((⟨h, -⟩ | ⟨l, hl, h, -⟩) | ⟨h, -⟩ | ⟨l, hl, h, -⟩) | ⟨h, -⟩ | ⟨h, -⟩⟩
    · exact .inr (.inr (.inl h))
    · exact .inr (.inr (.inr (.inr (.inl ⟨l, hl, h.symm⟩))))
    · exact .inr (.inl h)
    · exact .inr (.inr (.inr (.inr (.inr ⟨l, hl, h.symm⟩))))
    · exact .inr (.inr (.inr (.inl h)))
    · exact .inl h
  · rintro (h | h | h | h | ⟨l, hl, h⟩ | ⟨l, hl, h⟩)
    · exact ⟨_, .inr (.inr ⟨h, rfl⟩)⟩
    · exact ⟨_, .inl (.inr (.inl ⟨h, rfl⟩))⟩
    · exact ⟨_, .inl (.inl (.inl ⟨h, rfl⟩))⟩
    · exact ⟨_, .inr (.inl ⟨h, rfl⟩)⟩
    · exact ⟨_, .inl (.inl (.inr ⟨l, hl, h.symm, rfl⟩))⟩
    · exact ⟨_, .inl (.inr (.inr ⟨l, hl, h.symm, rfl⟩))⟩

/-- The ints of the struct, one behind the other. -/
theorem exists_entryStore_iff (t : Table) {off : ℕ} :
    (∃ i : Slot, ∃ v, (off, v) ∈ entryStores i (t i)) ↔ off < sizeofPstat ∧ off % 4 = 0 := by
  simp only [mem_entryStores_iff]
  unfold inuseAt pidAt priorityAt stateAt ticksAt waitTicksAt sizeofPstat NPROC
  constructor
  · rintro ⟨⟨i, hi⟩, h⟩
    rw [NPROC] at hi
    rcases h with h | h | h | h | ⟨l, hl, h⟩ | ⟨l, hl, h⟩ <;> dsimp only at h <;> omega
  · rintro ⟨hlt, hmod⟩
    -- the six arrays of the struct, one after the other
    obtain h | h | h | h | h | h : off < 256 ∨ 256 ≤ off ∧ off < 512 ∨ 512 ≤ off ∧ off < 768 ∨
        768 ≤ off ∧ off < 1024 ∨ 1024 ≤ off ∧ off < 2048 ∨ 2048 ≤ off := by omega
    · refine ⟨⟨off / 4, ?_⟩, .inl ?_⟩
      · rw [NPROC]
        omega
      · dsimp only
        omega
    · refine ⟨⟨(off - 256) / 4, ?_⟩, .inr (.inl ?_)⟩
      · rw [NPROC]
        omega
      · dsimp only
        omega
    · refine ⟨⟨(off - 512) / 4, ?_⟩, .inr (.inr (.inl ?_))⟩
      · rw [NPROC]
        omega
      · dsimp only
        omega
    · refine ⟨⟨(off - 768) / 4, ?_⟩, .inr (.inr (.inr (.inl ?_)))⟩
      · rw [NPROC]
        omega
      · dsimp only
        omega
    · refine ⟨⟨(off - 1024) / 16, ?_⟩,
        .inr (.inr (.inr (.inr (.inl ⟨(off - 1024) % 16 / 4, by omega, ?_⟩))))⟩
      · rw [NPROC]
        omega
      · dsimp only
        omega
    · refine ⟨⟨(off - 2048) / 16, ?_⟩,
        .inr (.inr (.inr (.inr (.inr ⟨(off - 2048) % 16 / 4, by omega, ?_⟩))))⟩
      · rw [NPROC]
        omega
      · dsimp only
        omega

/-- **`helper` writes every byte of the struct**, and no other. -/
theorem exists_store_iff {x : ℕ} :
    (∃ s ∈ helperStores t cur, ∃ b : ℕ, b < 4 ∧ uint (s.1 + b) = x) ↔
      ∃ off : ℕ, off < sizeofPstat ∧ uint (cur + off) = x := by
  have huint : ∀ n b : ℕ, uint ((uint ((cur : ℤ) + n) : ℤ) + b) = uint (cur + (n + b : ℕ)) := by
    intro n b
    unfold uint
    omega
  constructor
  · rintro ⟨s, hs, b, hb, rfl⟩
    obtain ⟨i, -, hi⟩ := List.mem_flatMap.1 hs
    obtain ⟨⟨n, v⟩, hn, rfl⟩ := List.mem_map.1 hi
    obtain ⟨hlt, hmod⟩ := (exists_entryStore_iff t).1 ⟨i, v, hn⟩
    refine ⟨n + b, ?_, (huint n b).symm⟩
    rw [sizeofPstat, NPROC] at hlt ⊢
    omega
  · rintro ⟨off, hoff, rfl⟩
    have hint : off / 4 * 4 < sizeofPstat ∧ off / 4 * 4 % 4 = 0 := by omega
    obtain ⟨i, v, hv⟩ := (exists_entryStore_iff t).2 hint
    refine ⟨(uint (cur + (off / 4 * 4 : ℕ)), v), ?_, off % 4, by omega, ?_⟩
    · exact List.mem_flatMap.2 ⟨i, List.mem_finRange i, List.mem_map.2 ⟨_, hv, rfl⟩⟩
    · rw [huint]
      congr 2
      omega

/-- The call gets past the tests of `argptr` with the pointer `i`. -/
theorem getpinfo_of_accepted {i : UInt32} (hi : argint c 0 = some i)
    (hlt : i.toNat < c.sz.toNat) (hend : uint (i.toNat + sizeofPointer) ≤ c.sz.toNat) :
    getpinfo t c = (0, helperStores t i.toNat) := by
  rw [getpinfo, argptr, hi, Option.bind_some, if_neg (by omega)]

/-- The writes through an accepted pointer. -/
theorem inside_iff_of_accepted {i : UInt32} (hi : argint c 0 = some i)
    (hlt : i.toNat < c.sz.toNat) (hend : uint (i.toNat + sizeofPointer) ≤ c.sz.toNat) :
    GetpinfoInside t c ↔ i.toNat + sizeofPstat ≤ c.sz.toNat := by
  have hsz : c.sz.toNat < 2 ^ 32 := c.sz.toNat_lt
  rw [GetpinfoInside, getpinfo_of_accepted hi hlt hend,
    or_iff_right (fun h ↦ by cases (Prod.mk.inj h).1)]
  constructor
  · -- the byte behind the memory of the caller would be written
    intro hall
    by_contra hover
    have hbyte : uint (i.toNat + (c.sz.toNat - i.toNat : ℕ)) = c.sz.toNat := by
      rw [uint_add (by omega)]
      omega
    obtain ⟨s, hs, b, hb, heq⟩ :=
      (exists_store_iff (t := t)).2 ⟨c.sz.toNat - i.toNat, by omega, hbyte⟩
    exact (hall s hs b hb).ne heq
  · intro hroom s hs b hb
    obtain ⟨off, hoff, heq⟩ := (exists_store_iff (t := t)).1 ⟨s, hs, b, hb, rfl⟩
    rw [← heq, uint_add (by omega)]
    omega

/-- **Where `getpinfo` writes.** The writes stay in the memory of the caller if and only if the
word of the argument cannot be fetched, the pointer is refused, or the whole struct fits behind
it. -/
theorem getpinfo_inside_iff (t : Table) (c : Caller) : GetpinfoInside t c ↔
    ∀ i, argint c 0 = some i → i.toNat < c.sz.toNat →
      uint (i.toNat + sizeofPointer) ≤ c.sz.toNat → i.toNat + sizeofPstat ≤ c.sz.toNat := by
  constructor
  · exact fun h i hi hlt hend ↦ (inside_iff_of_accepted hi hlt hend).1 h
  · intro hroom
    cases hi : argint c 0 with
    | none =>
      left
      rw [getpinfo, argptr, hi]
      rfl
    | some i =>
      by_cases hbad : i.toNat ≥ c.sz.toNat ∨ uint (i.toNat + sizeofPointer) > c.sz.toNat
      · left
        rw [getpinfo, argptr, hi, Option.bind_some, if_pos hbad]
      · obtain ⟨hlt, hend⟩ := not_or.1 hbad
        rw [not_le] at hlt
        rw [not_lt] at hend
        exact (inside_iff_of_accepted hi hlt hend).2 (hroom i hi hlt hend)

/-- A process of one page that passes the address of its last word. -/
def lastWord : Caller := ⟨4096, 0, fun _ ↦ 4092⟩

/-- **A struct that does not fit.** -/
theorem getpinfo_outside : ¬ ∀ (t : Table) (c : Caller), GetpinfoInside t c := by
  intro hall
  have hinside := hall Kernel.zeroed.ptable lastWord
  rw [inside_iff_of_accepted (i := 4092) rfl (by decide) (by decide)] at hinside
  exact absurd hinside (by decide)

end Mlfq
