import Cs537OS.StackReloc.Argptr

/-!
# Integers and strings in user memory

`fetchint` and `fetchstr` read user memory for a system call. They check the address with
`checkbounds`, which looks at both ends of what is to be read and compares the same numbers first as
`int` and then as `uint`; `fetchstr` then tests once more in which region the string begins, to know
where its scan has to stop. `fetch_exact` says that all of these tests agree on what is user memory:
the code and heap from the third page on, and the stack.

The functions are written here with the bytes that they read, so that what they touch can be talked
about.
-/

open Xv6

namespace StackReloc

/-- What a function that fetches something returns, what it stores for its caller, and the bytes of
user memory that it reads. -/
structure Fetched (α : Type) where
  ret : ℤ
  out : Option α
  reads : List ℕ
deriving DecidableEq

namespace Fetch

variable (p : Proc) (byte : ℕ → UInt8)

/-- The word at `addr`, the lowest byte first. -/
def word (addr : ℕ) : UInt32 :=
  .ofNat ((byte addr).toNat + 256 * ((byte (addr + 1)).toNat +
    256 * ((byte (addr + 2)).toNat + 256 * (byte (addr + 3)).toNat)))

/-- Fetch the int at `addr`. -/
def fetchint (addr : ℕ) : Fetched UInt32 :=
  if checkbounds p (int addr) 4 = -1 then ⟨-1, none, []⟩
  else ⟨0, some (word byte addr), List.range' addr 4⟩

/-- The loop of `fetchstr` when there are `k` bytes from `s` to the end of the region: where it
finds a NUL, and what it reads. -/
def scan (s : ℕ) : ℕ → Option ℕ × List ℕ
  | 0 => (none, [])
  | k + 1 =>
    if byte s = 0 then (some s, [s])
    else ((scan (s + 1) k).1, s :: (scan (s + 1) k).2)

/-- The string at `addr` in the region that ends at `ep`. -/
def scanTo (addr ep : ℕ) : Fetched ℕ where
  ret := match (scan byte addr (ep - addr)).1 with
    | some s => s - addr
    | none => -1
  out := some addr
  reads := (scan byte addr (ep - addr)).2

/-- Fetch the nul-terminated string at `addr`: its length, not including nul, and where it is. -/
def fetchstr (addr : ℕ) : Fetched ℕ :=
  if checkbounds p (int addr) 1 = -1 then ⟨-1, none, []⟩
  else if addr ≤ p.sz then scanTo byte addr p.sz
  else scanTo byte addr USERTOP

/-- The two parts of user memory. -/
inductive Region where
  | heap
  | stack

/-- The byte at `b` belongs to the region. -/
def Region.Has (p : Proc) : Region → ℕ → Prop
  | .heap, b => 2 * PGSIZE ≤ b ∧ b < p.sz
  | .stack, b => p.stackHead ≤ b ∧ b < USERTOP

/-- Both functions accept exactly what lies in one region and read nothing else. -/
structure Exact (addr : ℕ) : Prop where
  int_iff : (fetchint p byte addr).ret = 0 ↔
    ∃ r : Region, ∀ b, addr ≤ b → b < addr + 4 → r.Has p b
  int_fails : (fetchint p byte addr).ret = 0 ∨ (fetchint p byte addr).ret = -1
  /-- The `n`th byte is the first NUL. -/
  str_iff : ∀ n : ℕ, (fetchstr p byte addr).ret = n ↔
    ∃ r : Region, r.Has p addr ∧ r.Has p (addr + n) ∧ byte (addr + n) = 0 ∧
      ∀ i < n, byte (addr + i) ≠ 0
  str_fails : 0 ≤ (fetchstr p byte addr).ret ∨ (fetchstr p byte addr).ret = -1
  int_reads : ∀ b ∈ (fetchint p byte addr).reads, ∃ r : Region, r.Has p b
  str_reads : ∀ b ∈ (fetchstr p byte addr).reads, ∃ r : Region, r.Has p b

variable {p byte} {addr : ℕ}

/-! ### The check of the bounds -/

/-- **`checkbounds` tells user memory from the rest**: a block that fits into the gap between the
regions passes exactly when it lies in one of them. -/
theorem checkbounds_ne_iff {n : ℕ} (hlow : 2 * PGSIZE ≤ p.sz) (hgap : p.sz + n ≤ p.stackHead)
    (htop : p.stackHead ≤ USERTOP) (hpos : 0 < n) (haddr : addr < 2 ^ 32) :
    ¬ checkbounds p (int addr) n = -1 ↔
      2 * PGSIZE ≤ addr ∧ addr + n ≤ p.sz ∨ p.stackHead ≤ addr ∧ addr + n ≤ USERTOP := by
  have hpage : PGSIZE = 4096 := rfl
  have hend : USERTOP = 0xA0000 := rfl
  rcases Nat.lt_or_ge addr (2 ^ 31) with hsmall | hlarge
  · have hint : int addr = addr := if_pos hsmall
    have huint : uint (addr : ℤ) = addr := uint_natCast haddr
    have hsum : uint ((addr : ℤ) + n) = addr + n := uint_add (by omega)
    rw [checkbounds, hint, huint, hsum]
    rcases Nat.lt_or_ge (addr + n) (2 ^ 31) with hfits | hwraps
    · rw [show int (addr + n) = (addr + n : ℕ) from if_pos hfits]
      split_ifs with h
      · refine iff_of_false (not_not_intro rfl) ?_
        omega
      · refine iff_of_true (by decide) ?_
        omega
    · -- an address that large is above the top of user memory by itself
      rw [if_pos (.inl (by omega))]
      exact iff_of_false (not_not_intro rfl) (by omega)
  · -- as an `int` the address is negative
    have hint : int addr = addr - 2 ^ 32 := if_neg (Nat.not_lt.2 hlarge)
    rw [checkbounds, hint, if_pos (.inr (.inr (.inl (by omega))))]
    exact iff_of_false (not_not_intro rfl) (by omega)

/-! ### The scan -/

/-- The scan finds the first NUL. -/
theorem scan_eq_some_iff {s k a : ℕ} :
    (scan byte s k).1 = some a ↔
      s ≤ a ∧ a < s + k ∧ byte a = 0 ∧ ∀ b, s ≤ b → b < a → byte b ≠ 0 := by
  induction k generalizing s with
  | zero => exact ⟨fun h ↦ (by cases h), fun h ↦ absurd h.2.1 (Nat.not_lt.2 h.1)⟩
  | succ k ih =>
    rw [scan]
    split_ifs with hnul
    · constructor
      · rintro ⟨⟩
        exact ⟨le_rfl, Nat.lt_add_of_pos_right k.succ_pos, hnul, fun b hb hlt ↦
          absurd hb (Nat.not_le.2 hlt)⟩
      · rintro ⟨hle, -, -, hfirst⟩
        rcases Nat.eq_or_lt_of_le hle with rfl | hlt
        · rfl
        · exact absurd hnul (hfirst s le_rfl hlt)
    · rw [ih]
      constructor
      · rintro ⟨hle, hlt, ha, hfirst⟩
        refine ⟨by omega, by omega, ha, fun b hb hba ↦ ?_⟩
        rcases Nat.eq_or_lt_of_le hb with rfl | hsb
        · exact hnul
        · exact hfirst b hsb hba
      · rintro ⟨hle, hlt, ha, hfirst⟩
        have hne : s ≠ a := by
          rintro rfl
          exact hnul ha
        exact ⟨by omega, by omega, ha, fun b hb hba ↦ hfirst b (by omega) hba⟩

theorem mem_scan_reads {s k b : ℕ} (hb : b ∈ (scan byte s k).2) : s ≤ b ∧ b < s + k := by
  induction k generalizing s with
  | zero => exact absurd hb List.not_mem_nil
  | succ k ih =>
    rw [scan] at hb
    split_ifs at hb
    · obtain rfl := List.mem_singleton.1 hb
      exact ⟨le_rfl, Nat.lt_add_of_pos_right k.succ_pos⟩
    · rcases List.mem_cons.1 hb with rfl | hb
      · exact ⟨le_rfl, Nat.lt_add_of_pos_right k.succ_pos⟩
      · have hrest := ih hb
        omega

/-- What a scan to the end of a region returns. -/
theorem scanTo_ret_iff {ep n : ℕ} :
    (scanTo byte addr ep).ret = n ↔ addr + n < ep ∧ byte (addr + n) = 0 ∧
      ∀ i < n, byte (addr + i) ≠ 0 := by
  have hfound : ∀ a, (scan byte addr (ep - addr)).1 = some a ↔ addr ≤ a ∧ a < ep ∧ byte a = 0 ∧
      ∀ b, addr ≤ b → b < a → byte b ≠ 0 := by
    intro a
    rw [scan_eq_some_iff]
    refine and_congr_right fun hle ↦ and_congr_left fun _ ↦ ?_
    omega
  have hfirst : ((scan byte addr (ep - addr)).1 = some (addr + n)) ↔ addr + n < ep ∧
      byte (addr + n) = 0 ∧ ∀ i < n, byte (addr + i) ≠ 0 := by
    rw [hfound, and_iff_right (Nat.le_add_right addr n)]
    refine and_congr_right fun _ ↦ and_congr_right fun _ ↦ ⟨fun h i hi ↦ ?_, fun h b hb hlt ↦ ?_⟩
    · exact h _ (Nat.le_add_right addr i) (Nat.add_lt_add_left hi addr)
    · obtain ⟨i, rfl⟩ := Nat.exists_eq_add_of_le hb
      exact h i (Nat.lt_of_add_lt_add_left hlt)
  rw [← hfirst, scanTo]
  rcases hscan : (scan byte addr (ep - addr)).1 with - | a
  · refine iff_of_false (fun h ↦ ?_) (fun h ↦ by cases h)
    have hneg : (-1 : ℤ) = n := h
    omega
  · have hle : addr ≤ a := ((hfound a).1 hscan).1
    have hret : (a : ℤ) - addr = n ↔ a = addr + n := by omega
    exact hret.trans ⟨fun h ↦ congrArg some h, fun h ↦ Option.some.inj h⟩

theorem scanTo_ret (ep : ℕ) : 0 ≤ (scanTo byte addr ep).ret ∨ (scanTo byte addr ep).ret = -1 := by
  rw [scanTo]
  rcases hscan : (scan byte addr (ep - addr)).1 with - | a
  · exact .inr rfl
  · have hle : addr ≤ a := (scan_eq_some_iff.1 hscan).1
    refine .inl ?_
    show 0 ≤ (a : ℤ) - addr
    omega

/-! ### The two functions -/

/-- Where the scan of `fetchstr` stops is the end of the region that the string begins in. -/
theorem fetchstr_eq (hlow : 2 * PGSIZE ≤ p.sz) (hgap : p.sz + 4 ≤ p.stackHead)
    (htop : p.stackHead ≤ USERTOP) (haddr : addr < 2 ^ 32) :
    Region.heap.Has p addr ∧ fetchstr p byte addr = scanTo byte addr p.sz ∨
      Region.stack.Has p addr ∧ fetchstr p byte addr = scanTo byte addr USERTOP ∨
      (∀ r : Region, ¬ r.Has p addr) ∧ fetchstr p byte addr = ⟨-1, none, []⟩ := by
  have hcheck : ¬ checkbounds p (int addr) 1 = -1 ↔
      2 * PGSIZE ≤ addr ∧ addr + 1 ≤ p.sz ∨ p.stackHead ≤ addr ∧ addr + 1 ≤ USERTOP :=
    checkbounds_ne_iff (n := 1) hlow (by omega) htop Nat.one_pos haddr
  rw [fetchstr]
  rcases em (checkbounds p (int addr) 1 = -1) with hbad | hgood
  · refine .inr (.inr ⟨fun r hr ↦ hcheck.2 ?_ hbad, if_pos hbad⟩)
    rcases r with - | -
    · exact .inl hr
    · exact .inr hr
  · rw [if_neg hgood]
    rcases hcheck.1 hgood with hheap | hstack
    · exact .inl ⟨hheap, if_pos (by omega)⟩
    · exact .inr (.inl ⟨hstack, if_neg (by omega)⟩)

/-- The string is in the region in which it begins. -/
theorem region_iff {r : Region} {n : ℕ} (hr : r.Has p addr) (hgap : p.sz ≤ p.stackHead)
    {Q : Prop} :
    (∃ r : Region, r.Has p addr ∧ r.Has p (addr + n) ∧ Q) ↔ r.Has p (addr + n) ∧ Q := by
  refine ⟨fun ⟨r', hr', hlast, hQ⟩ ↦ ⟨?_, hQ⟩, fun ⟨hlast, hQ⟩ ↦ ⟨r, hr, hlast, hQ⟩⟩
  have hsame : r' = r := by
    rcases r' with - | - <;> rcases r with - | -
    · rfl
    · exact absurd hr'.2 (Nat.not_lt.2 (hgap.trans hr.1))
    · exact absurd hr.2 (Nat.not_lt.2 (hgap.trans hr'.1))
    · rfl
  exact hsame ▸ hlast

/-- **`fetchint` and `fetchstr` accept exactly valid user memory**: for every address, `fetchint`
succeeds when the four bytes there lie in one region, `fetchstr` when a string does that begins
there, and neither reads anything else. -/
theorem fetch_exact (p : Proc) (byte : ℕ → UInt8) (addr : UInt32) (hlow : 2 * PGSIZE ≤ p.sz)
    (hgap : p.sz + 4 ≤ p.stackHead) (htop : p.stackHead ≤ USERTOP) : Exact p byte addr.toNat := by
  have haddr : addr.toNat < 2 ^ 32 := addr.toNat_lt
  generalize addr.toNat = addr at haddr
  have hcheck : ¬ checkbounds p (int addr) 4 = -1 ↔
      2 * PGSIZE ≤ addr ∧ addr + 4 ≤ p.sz ∨ p.stackHead ≤ addr ∧ addr + 4 ≤ USERTOP :=
    checkbounds_ne_iff (n := 4) hlow hgap htop (by decide) haddr
  have hstr := @fetchstr_eq p byte addr hlow hgap htop haddr
  have hsz : p.sz ≤ p.stackHead := (Nat.le_add_right _ 4).trans hgap
  refine ⟨?_, ?_, fun n ↦ ?_, ?_, fun b hb ↦ ?_, fun b hb ↦ ?_⟩
  · have hregion : (2 * PGSIZE ≤ addr ∧ addr + 4 ≤ p.sz ∨
        p.stackHead ≤ addr ∧ addr + 4 ≤ USERTOP) ↔
          ∃ r : Region, ∀ b, addr ≤ b → b < addr + 4 → r.Has p b := by
      constructor
      · rintro (⟨hlo, hhi⟩ | ⟨hlo, hhi⟩)
        · exact ⟨.heap, fun b hb hlt ↦ ⟨hlo.trans hb, hlt.trans_le hhi⟩⟩
        · exact ⟨.stack, fun b hb hlt ↦ ⟨hlo.trans hb, hlt.trans_le hhi⟩⟩
      · rintro ⟨- | -, hr⟩
        · exact .inl ⟨(hr addr le_rfl (by omega)).1, (hr (addr + 3) (by omega) (by omega)).2⟩
        · exact .inr ⟨(hr addr le_rfl (by omega)).1, (hr (addr + 3) (by omega) (by omega)).2⟩
    rw [← hregion, ← hcheck, fetchint]
    split_ifs with hbad
    · exact iff_of_false (by decide) (not_not_intro hbad)
    · exact iff_of_true rfl hbad
  · rw [fetchint]
    split_ifs
    · exact .inr rfl
    · exact .inl rfl
  · rcases hstr with ⟨hr, heq⟩ | ⟨hr, heq⟩ | ⟨hno, heq⟩
    · rw [heq, scanTo_ret_iff, region_iff hr hsz]
      exact and_congr_left fun _ ↦ (and_iff_right (hr.1.trans (Nat.le_add_right addr n))).symm
    · rw [heq, scanTo_ret_iff, region_iff hr hsz]
      exact and_congr_left fun _ ↦ (and_iff_right (hr.1.trans (Nat.le_add_right addr n))).symm
    · rw [heq]
      refine iff_of_false (fun h ↦ ?_) fun ⟨r, hr, _⟩ ↦ hno r hr
      have hneg : (-1 : ℤ) = n := h
      omega
  · rcases hstr with ⟨-, heq⟩ | ⟨-, heq⟩ | ⟨-, heq⟩ <;> rw [heq]
    · exact scanTo_ret p.sz
    · exact scanTo_ret USERTOP
    · exact .inr rfl
  · rw [fetchint] at hb
    split_ifs at hb with hbad
    · exact absurd hb List.not_mem_nil
    · have hmem := List.mem_range'_1.1 hb
      rcases hcheck.1 hbad with ⟨hlo, hhi⟩ | ⟨hlo, hhi⟩
      · exact ⟨.heap, hlo.trans hmem.1, hmem.2.trans_le hhi⟩
      · exact ⟨.stack, hlo.trans hmem.1, hmem.2.trans_le hhi⟩
  · rcases hstr with ⟨hr, heq⟩ | ⟨hr, heq⟩ | ⟨-, heq⟩ <;> rw [heq] at hb
    · have hmem := mem_scan_reads hb
      rw [Nat.add_sub_cancel' hr.2.le] at hmem
      exact ⟨.heap, hr.1.trans hmem.1, hmem.2⟩
    · have hmem := mem_scan_reads hb
      rw [Nat.add_sub_cancel' hr.2.le] at hmem
      exact ⟨.stack, hr.1.trans hmem.1, hmem.2⟩
    · exact absurd hb List.not_mem_nil

/-- The last bytes of a heap that ends four bytes below the stack, and an address whose `int` is
negative. -/
theorem fetch_exact_edges :
    Exact ⟨USERTOP - PGSIZE - 4, USERTOP - PGSIZE, false, ⟨fun _ ↦ none, []⟩⟩ (fun _ ↦ 0)
        (0x9EFF8 : UInt32).toNat ∧
      Exact ⟨USERTOP - PGSIZE - 4, USERTOP - PGSIZE, false, ⟨fun _ ↦ none, []⟩⟩ (fun _ ↦ 0)
        (0xFFFFFFFE : UInt32).toNat :=
  ⟨fetch_exact _ _ _ (by decide) (by decide) (by decide),
    fetch_exact _ _ _ (by decide) (by decide) (by decide)⟩

end Fetch

end StackReloc
