import Cs537OS.Foundation.Paging
import Cs537OS.Xv6.Basic

/-!
# Copying to user memory

`copyout`, which is the same in all of the kernels: it finds the page of an address with `uva2ka`,
copies what fits into it, and goes on with the next page. It stops at a page that is not a user
page, and leaves what it has copied up to there.

A page table is read as the frame of each user page. That there is a table for every page that the
loop comes to, so that `walkpgdir` returns an entry, is up to the callers.

* `copyout_iff` — `copyout` succeeds when all the bytes it is to write are in user pages;
* `view_copyout` — then they are written, and nothing else;
* `copyout_frame` — frames that are not user pages are left as they are in any case.
-/

namespace Xv6

open Paging

/-- The loop of `copyout`, which goes round once for each page. The first argument is a bound on the
turns. -/
def copyoutLoop (pte : ℕ → Option ℕ) : ℕ → ℕ → List UInt8 → (ℕ → ℕ → UInt8) →
    Bool × (ℕ → ℕ → UInt8)
  | 0, _, _, mem => (true, mem)
  | turns + 1, va, buf, mem =>
    if buf.length > 0 then
      let va0 := va / PGSIZE * PGSIZE
      match pte (va0 / PGSIZE) with
      | none => (false, mem)
      | some pa0 =>
        let n := min (PGSIZE - (va - va0)) buf.length
        copyoutLoop pte turns (uint (va0 + PGSIZE)) (buf.drop n)
          (poke mem pa0 ⟨va - va0, buf.take n⟩)
    else
      (true, mem)

/-- Copy `buf` to user address `va`: whether that could be done, and memory after it. A turn of the
loop copies a byte at least. -/
def copyout (pte : ℕ → Option ℕ) (va : ℕ) (buf : List UInt8) (mem : ℕ → ℕ → UInt8) :
    Bool × (ℕ → ℕ → UInt8) :=
  copyoutLoop pte buf.length va buf mem

variable {pte : ℕ → Option ℕ} {turns va : ℕ} {buf : List UInt8} {mem : ℕ → ℕ → UInt8}

/-- What fits into the page of the address. -/
def room (va : ℕ) (buf : List UInt8) : ℕ := min (PGSIZE - va % PGSIZE) buf.length

theorem copyoutLoop_nil (turns : ℕ) : copyoutLoop pte turns va [] mem = (true, mem) := by
  rcases turns with - | turns
  · rfl
  · exact if_neg (lt_irrefl 0)

/-- One turn of the loop: it copies up to the end of the page, or there is no page. -/
theorem copyoutLoop_succ (hbuf : buf ≠ []) : copyoutLoop pte (turns + 1) va buf mem =
    match pte (va / PGSIZE) with
    | none => (false, mem)
    | some pa0 => copyoutLoop pte turns (uint (va / PGSIZE * PGSIZE + PGSIZE : ℕ))
        (buf.drop (room va buf)) (poke mem pa0 ⟨va % PGSIZE, buf.take (room va buf)⟩) := by
  have hpage : va / PGSIZE * PGSIZE / PGSIZE = va / PGSIZE := Nat.mul_div_cancel _ (by decide)
  have hoff : va - va / PGSIZE * PGSIZE = va % PGSIZE := by
    have hdiv := Nat.div_add_mod' va PGSIZE
    omega
  rw [copyoutLoop, if_pos (List.length_pos_iff.2 hbuf)]
  simp only [hpage, hoff]
  rfl

theorem room_pos (hbuf : buf ≠ []) : 0 < room va buf := by
  have hmod : va % PGSIZE < PGSIZE := Nat.mod_lt va (by decide)
  exact lt_min (Nat.sub_pos_of_lt hmod) (List.length_pos_iff.2 hbuf)

theorem room_le : room va buf ≤ buf.length := min_le_right _ _

/-- When not all of the bytes fit into the page, the rest begins with the next page. -/
theorem add_room (hlt : room va buf < buf.length) :
    va + room va buf = va / PGSIZE * PGSIZE + PGSIZE := by
  have hroom : room va buf = PGSIZE - va % PGSIZE :=
    (min_choice _ _).resolve_right fun h ↦ absurd hlt (Nat.not_lt.2 h.ge)
  have hmod : va % PGSIZE < PGSIZE := Nat.mod_lt va (by decide)
  have hdiv := Nat.div_add_mod' va PGSIZE
  omega

/-- The bytes that fit are in the page. -/
theorem page_of_lt_room {i : ℕ} (hva : va < 2 ^ 32) (hi : i < room va buf) :
    uint ((va + i : ℕ) : ℤ) / PGSIZE = va / PGSIZE := by
  have hroom : i < PGSIZE - va % PGSIZE := hi.trans_le (min_le_left _ _)
  unfold PGSIZE at *
  rw [uint_natCast (by omega)]
  omega

theorem uint_uint_add (x i : ℕ) : uint ((uint (x : ℤ) + i : ℕ) : ℤ) = uint ((x + i : ℕ) : ℤ) := by
  unfold uint
  omega

/-- A property of all bytes is one of those that fit and of the rest. -/
theorem forall_lt_room_iff {P : ℕ → Prop} : (∀ i < buf.length, P i) ↔
    (∀ i < room va buf, P i) ∧ ∀ i < (buf.drop (room va buf)).length, P (room va buf + i) := by
  rw [List.length_drop]
  refine ⟨fun h ↦ ⟨fun i hi ↦ h i (hi.trans_le room_le), fun i hi ↦ h _ (by omega)⟩,
    fun h i hi ↦ ?_⟩
  rcases Nat.lt_or_ge i (room va buf) with hlt | hge
  · exact h.1 i hlt
  · obtain ⟨j, rfl⟩ := Nat.exists_eq_add_of_le hge
    exact h.2 j (by omega)

/-- The loop succeeds if every byte, at its address modulo `2 ^ 32`, has a page. -/
theorem copyoutLoop_iff (hva : va < 2 ^ 32) (hturns : buf.length ≤ turns) :
    (copyoutLoop pte turns va buf mem).1 = true ↔
      ∀ i < buf.length, (pte (uint ((va + i : ℕ) : ℤ) / PGSIZE)).isSome := by
  -- each turn copies a byte at least, so the turns suffice
  induction turns generalizing va buf mem with
  | zero =>
    refine iff_of_true rfl fun i hi ↦ ?_
    exact absurd (hi.trans_le hturns) (Nat.not_lt_zero i)
  | succ turns ih =>
    rcases eq_or_ne buf [] with rfl | hbuf
    · rw [copyoutLoop_nil]
      exact iff_of_true rfl fun i hi ↦ absurd hi (Nat.not_lt_zero i)
    have hpos : 0 < room va buf := room_pos hbuf
    rw [copyoutLoop_succ hbuf, forall_lt_room_iff]
    rcases hpte : pte (va / PGSIZE) with - | pa0
    · refine iff_of_false Bool.false_ne_true fun h ↦ ?_
      have hfirst := h.1 0 hpos
      rw [page_of_lt_room hva hpos, hpte] at hfirst
      exact Bool.false_ne_true hfirst
    · have hpage : ∀ i < room va buf, (pte (uint ((va + i : ℕ) : ℤ) / PGSIZE)).isSome :=
        fun i hi ↦ by
        rw [page_of_lt_room hva hi, hpte]
        rfl
      have hrest : (buf.drop (room va buf)).length ≤ turns := by
        rw [List.length_drop]
        omega
      have hnext : uint ((va / PGSIZE * PGSIZE + PGSIZE : ℕ) : ℤ) < 2 ^ 32 := by
        rw [uint]
        omega
      rw [and_iff_right hpage]
      refine (ih hnext hrest).trans (forall₂_congr fun i hi ↦ ?_)
      rw [List.length_drop] at hi
      have hlt : room va buf < buf.length := by omega
      rw [uint_uint_add, ← add_room hlt, Nat.add_assoc]

/-- **When `copyout` succeeds.** -/
theorem copyout_iff (hva : va < 2 ^ 32) : (copyout pte va buf mem).1 = true ↔
    ∀ i < buf.length, (pte (uint ((va + i : ℕ) : ℤ) / PGSIZE)).isSome :=
  copyoutLoop_iff hva le_rfl

/-- Where the addresses do not wrap, a loop that succeeds changes the view of the process by the
bytes, and by nothing else. -/
theorem view_copyoutLoop (hinj : Injective pte) (hva : va + buf.length ≤ 2 ^ 32)
    (hturns : buf.length ≤ turns) (h : (copyoutLoop pte turns va buf mem).1 = true) :
    view PGSIZE pte (copyoutLoop pte turns va buf mem).2 =
      Patch.write (view PGSIZE pte mem) ⟨va, buf.map some⟩ := by
  induction turns generalizing va buf mem with
  | zero =>
    obtain rfl := List.length_eq_zero_iff.1 (Nat.le_zero.1 hturns)
    exact (Patch.write_nil _ va).symm
  | succ turns ih =>
    rcases eq_or_ne buf [] with rfl | hbuf
    · rw [copyoutLoop_nil]
      exact (Patch.write_nil _ va).symm
    have hpos : 0 < room va buf := room_pos hbuf
    rw [copyoutLoop_succ hbuf] at h ⊢
    rcases hpte : pte (va / PGSIZE) with - | pa0
    · rw [hpte] at h
      exact absurd h Bool.false_ne_true
    rw [hpte] at h
    have hfit : va % PGSIZE + (buf.take (room va buf)).length ≤ PGSIZE := by
      have hroom : room va buf ≤ PGSIZE - va % PGSIZE := min_le_left _ _
      have hmod : va % PGSIZE < PGSIZE := Nat.mod_lt va (by decide)
      rw [List.length_take]
      omega
    have hpoke : view PGSIZE pte (poke mem pa0 ⟨va % PGSIZE, buf.take (room va buf)⟩) =
        Patch.write (view PGSIZE pte mem) ⟨va / PGSIZE * PGSIZE + va % PGSIZE, _⟩ :=
      view_poke hinj hpte hfit
    rw [Nat.div_add_mod' va PGSIZE] at hpoke
    show view PGSIZE pte (copyoutLoop pte turns _ (buf.drop (room va buf))
      (poke mem pa0 ⟨va % PGSIZE, buf.take (room va buf)⟩)).2 = _
    rcases room_le.eq_or_lt with hall | hlt
    · rw [hall, List.drop_length, copyoutLoop_nil]
      rw [hall, List.take_length] at hpoke
      rw [List.take_length]
      exact hpoke
    · have hnext : uint ((va / PGSIZE * PGSIZE + PGSIZE : ℕ) : ℤ) = va + room va buf := by
        rw [← add_room hlt, uint_natCast (by omega)]
      rw [hnext] at h ⊢
      rw [ih (by rw [List.length_drop]; omega) (by rw [List.length_drop]; omega) h, hpoke]
      have hlen : va + room va buf = va + ((buf.take (room va buf)).map some).length := by
        rw [List.length_map, List.length_take, min_eq_left room_le]
      rw [hlen, Patch.write_append, ← List.map_append, List.take_append_drop]

/-- **What `copyout` writes** when it succeeds. -/
theorem view_copyout (hinj : Injective pte) (hva : va + buf.length ≤ 2 ^ 32)
    (h : (copyout pte va buf mem).1 = true) :
    view PGSIZE pte (copyout pte va buf mem).2 =
      Patch.write (view PGSIZE pte mem) ⟨va, buf.map some⟩ :=
  view_copyoutLoop hinj hva le_rfl h

/-- A frame that the process does not see is not written. -/
theorem copyoutLoop_frame {pa : ℕ} (hpa : ∀ k, pte k ≠ some pa) :
    (copyoutLoop pte turns va buf mem).2 pa = mem pa := by
  induction turns generalizing va buf mem with
  | zero => rfl
  | succ turns ih =>
    rcases eq_or_ne buf [] with rfl | hbuf
    · rw [copyoutLoop_nil]
    rw [copyoutLoop_succ hbuf]
    rcases hpte : pte (va / PGSIZE) with - | pa0
    · rfl
    · refine ih.trans (poke_of_ne ?_)
      rintro rfl
      exact hpa _ hpte

/-- Frames that are not user pages are not written to, whether `copyout` succeeds or not. -/
theorem copyout_frame {pa : ℕ} (hpa : ∀ k, pte k ≠ some pa) :
    (copyout pte va buf mem).2 pa = mem pa :=
  copyoutLoop_frame hpa

/-! ### The bytes that are written -/

/-- The `n` addresses from `a` on. -/
def bytes (a n : ℕ) : List ℕ := (List.range n).map fun i ↦ uint (a + i : ℕ)

/-- The addresses that the loop of `copyout` writes to. -/
def copyoutBytes (pte : ℕ → Option ℕ) : ℕ → ℕ → ℕ → List ℕ
  | 0, _, _ => []
  | turns + 1, va, len =>
    if len > 0 then
      let va0 := va / PGSIZE * PGSIZE
      match pte (va0 / PGSIZE) with
      | none => []
      | some _ =>
        let n := min (PGSIZE - (va - va0)) len
        bytes va n ++ copyoutBytes pte turns (uint (va0 + PGSIZE)) (len - n)
    else
      []

/-- The addresses of `n` bytes from `a` on, modulo `2 ^ 32`. -/
theorem mem_bytes {a n b : ℕ} : b ∈ bytes a n ↔ ∃ i < n, uint (a + i : ℕ) = b := by
  rw [bytes, List.mem_map]
  exact exists_congr fun i ↦ and_congr_left fun _ ↦ List.mem_range

/-- The addresses that one turn of the loop writes, and those of the turns after it. -/
theorem copyoutBytes_succ (hbuf : buf ≠ []) : copyoutBytes pte (turns + 1) va buf.length =
    match pte (va / PGSIZE) with
    | none => []
    | some _ => bytes va (room va buf) ++ copyoutBytes pte turns
        (uint (va / PGSIZE * PGSIZE + PGSIZE : ℕ)) (buf.drop (room va buf)).length := by
  have hpage : va / PGSIZE * PGSIZE / PGSIZE = va / PGSIZE := Nat.mul_div_cancel _ (by decide)
  have hoff : va - va / PGSIZE * PGSIZE = va % PGSIZE := by
    have hdiv := Nat.div_add_mod' va PGSIZE
    omega
  rw [copyoutBytes, if_pos (List.length_pos_iff.2 hbuf), List.length_drop]
  simp only [hpage, hoff]
  rfl

theorem copyoutBytes_zero (turns : ℕ) : copyoutBytes pte turns va 0 = [] := by
  rcases turns with - | turns
  · rfl
  · exact if_neg (lt_irrefl 0)

/-- **The rest of user memory is as it was**, whether `copyout` succeeds or not. -/
theorem view_of_notMem_copyoutBytes (hinj : Injective pte) (hva : va < 2 ^ 32) {b : ℕ}
    (hb : b ∉ copyoutBytes pte turns va buf.length) :
    view PGSIZE pte (copyoutLoop pte turns va buf mem).2 b = view PGSIZE pte mem b := by
  induction turns generalizing va buf mem with
  | zero => rfl
  | succ turns ih =>
    rcases eq_or_ne buf [] with rfl | hbuf
    · rw [copyoutLoop_nil]
    rw [copyoutBytes_succ hbuf] at hb
    rw [copyoutLoop_succ hbuf]
    rcases hpte : pte (va / PGSIZE) with - | pa0
    · rfl
    rw [hpte] at hb
    obtain ⟨hpage, hrest⟩ := not_or.1 (mt List.mem_append.2 hb)
    refine (ih (uint_lt _) hrest).trans ?_
    have hroom : room va buf ≤ PGSIZE - va % PGSIZE := min_le_left _ _
    have hmod : va % PGSIZE < PGSIZE := Nat.mod_lt va (by decide)
    have hlen : (buf.take (room va buf)).length = room va buf := by
      rw [List.length_take, min_eq_left room_le]
    rw [view_poke hinj hpte (by show va % PGSIZE + (buf.take (room va buf)).length ≤ PGSIZE; omega)]
    refine Patch.write_of_outside ?_
    show b < va / PGSIZE * PGSIZE + va % PGSIZE ∨
      va / PGSIZE * PGSIZE + va % PGSIZE + ((buf.take (room va buf)).map some).length ≤ b
    rw [Nat.div_add_mod', List.length_map, hlen]
    by_contra hno
    obtain ⟨i, rfl⟩ := Nat.exists_eq_add_of_le (show va ≤ b by omega)
    refine hpage (mem_bytes.2 ⟨i, by omega, uint_natCast ?_⟩)
    unfold PGSIZE at *
    omega

/-- The loop writes a byte if no address up to it is without a page. -/
theorem mem_copyoutBytes_iff (hva : va < 2 ^ 32) (hturns : buf.length ≤ turns) {b : ℕ} :
    b ∈ copyoutBytes pte turns va buf.length ↔
      ∃ i < buf.length, uint (va + i : ℕ) = b ∧
        ∀ j ≤ i, (pte (uint (va + j : ℕ) / PGSIZE)).isSome := by
  induction turns generalizing va buf with
  | zero =>
    refine iff_of_false List.not_mem_nil ?_
    rintro ⟨i, hi, -⟩
    exact absurd (hi.trans_le hturns) (Nat.not_lt_zero i)
  | succ turns ih =>
    rcases eq_or_ne buf [] with rfl | hbuf
    · rw [List.length_nil, copyoutBytes_zero]
      refine iff_of_false List.not_mem_nil ?_
      rintro ⟨i, hi, -⟩
      exact absurd hi (Nat.not_lt_zero i)
    have hpos : 0 < room va buf := room_pos hbuf
    rw [copyoutBytes_succ hbuf]
    rcases hpte : pte (va / PGSIZE) with - | pa0
    · refine iff_of_false List.not_mem_nil ?_
      rintro ⟨i, -, -, hall⟩
      have hfirst := hall 0 (Nat.zero_le i)
      rw [page_of_lt_room hva hpos, hpte] at hfirst
      exact Bool.false_ne_true hfirst
    · have hpage : ∀ i < room va buf, (pte (uint ((va + i : ℕ) : ℤ) / PGSIZE)).isSome :=
        fun i hi ↦ by
        rw [page_of_lt_room hva hi, hpte]
        rfl
      have hrest : (buf.drop (room va buf)).length ≤ turns := by
        rw [List.length_drop]
        omega
      -- the next turn starts at the next page, where the rest of the buffer goes
      have hshift : ∀ {i j}, i < (buf.drop (room va buf)).length →
        uint ((uint (va / PGSIZE * PGSIZE +
          PGSIZE : ℕ) + j : ℕ) : ℤ) = uint ((va + (room va buf + j) : ℕ) : ℤ) := fun {i j} hi ↦ by
        rw [List.length_drop] at hi
        have hlt : room va buf < buf.length := by omega
        rw [uint_uint_add, ← add_room hlt, Nat.add_assoc]
      show b ∈ bytes va (room va buf) ++ _ ↔ _
      rw [List.mem_append, mem_bytes, ih (uint_lt _) hrest]
      constructor
      · rintro (⟨i, hi, rfl⟩ | ⟨i, hi, rfl, hall⟩)
        · exact ⟨i, hi.trans_le room_le, rfl, fun j hj ↦ hpage j (hj.trans_lt hi)⟩
        · have hlen := hi
          rw [List.length_drop] at hlen
          refine ⟨room va buf + i, by omega, (hshift hi).symm, fun j hj ↦ ?_⟩
          rcases Nat.lt_or_ge j (room va buf) with hlt | hge
          · exact hpage j hlt
          · obtain ⟨j, rfl⟩ := Nat.exists_eq_add_of_le hge
            rw [← hshift hi]
            exact hall j (Nat.le_of_add_le_add_left hj)
      · rintro ⟨i, hi, rfl, hall⟩
        rcases Nat.lt_or_ge i (room va buf) with hlt | hge
        · exact .inl ⟨i, hlt, rfl⟩
        · obtain ⟨i, rfl⟩ := Nat.exists_eq_add_of_le hge
          have hi' : i < (buf.drop (room va buf)).length := by
            rw [List.length_drop]
            omega
          refine .inr ⟨i, hi', hshift hi', fun j hj ↦ ?_⟩
          rw [hshift hi']
          exact hall _ (Nat.add_le_add_left hj _)

end Xv6
