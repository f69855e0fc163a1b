import Cs537OS.Foundation.Patches
import Mathlib.Algebra.Order.Ring.Nat

/-!
# Numbers in a memory of bytes

A number takes `k` bytes, the lowest first. `bytes` writes it and `value` reads it; a record is a
list of numbers with the bytes they take, one behind the other (`record`).

* `value_of_holds` — what was written is read;
* `value_of_record` — a field of a record is read where the fields before it end;
* `value_write_of_apart` — a write elsewhere does not change it.
-/

namespace LittleEndian

/-- The `k` bytes of a number. -/
def bytes : ℕ → ℕ → List UInt8
  | 0, _ => []
  | k + 1, w => .ofNat w :: bytes k (w / 256)

/-- The number in the `k` bytes at `a`. -/
def value (m : ℕ → UInt8) (a : ℕ) : ℕ → ℕ
  | 0 => 0
  | k + 1 => (m a).toNat + 256 * value m (a + 1) k

variable {m m' : ℕ → UInt8} {a b k w : ℕ}

theorem length_bytes (k w : ℕ) : (bytes k w).length = k := by
  induction k generalizing w with
  | zero => rfl
  | succ k ih => rw [bytes, List.length_cons, ih]

theorem value_lt (m : ℕ → UInt8) (a k : ℕ) : value m a k < 256 ^ k := by
  induction k generalizing a with
  | zero => exact Nat.one_pos
  | succ k ih =>
    have hbyte := (m a).toNat_lt
    have hrest := ih (a + 1)
    rw [value, Nat.pow_succ]
    omega

/-- A number is its bytes. -/
theorem value_congr (h : ∀ i < k, m (a + i) = m' (b + i)) : value m a k = value m' b k := by
  induction k generalizing a b with
  | zero => rfl
  | succ k ih =>
    have hfirst : m a = m' b := h 0 (Nat.succ_pos k)
    rw [value, value, hfirst, ih fun i hi ↦ ?_]
    rw [Nat.add_assoc, Nat.add_assoc, Nat.add_comm 1 i]
    exact h (i + 1) (Nat.succ_lt_succ hi)

/-- **What was written is read.** -/
theorem value_of_holds (hw : w < 256 ^ k) (h : (⟨a, bytes k w⟩ : Patch UInt8).Holds m) :
    value m a k = w := by
  induction k generalizing a w with
  | zero =>
    obtain rfl : w = 0 := Nat.lt_one_iff.1 hw
    rfl
  | succ k ih =>
    have hcons : (⟨a, bytes (k + 1) w⟩ : Patch UInt8) = ⟨a, [.ofNat w] ++ bytes k (w / 256)⟩ := rfl
    rw [hcons, Patch.holds_append] at h
    have hfirst : m a = .ofNat w := h.1 0 Nat.one_pos
    have hrest : value m (a + 1) k = w / 256 := by
      refine ih ?_ h.2
      rw [Nat.pow_succ] at hw
      exact Nat.div_lt_of_lt_mul (by rwa [Nat.mul_comm])
    rw [value, hfirst, hrest, UInt8.toNat_ofNat']
    omega

/-- A number is written where it is read. -/
theorem holds_value (m : ℕ → UInt8) (a k : ℕ) :
    (⟨a, bytes k (value m a k)⟩ : Patch UInt8).Holds m := by
  induction k generalizing a with
  | zero => exact fun i hi ↦ absurd hi (Nat.not_lt_zero i)
  | succ k ih =>
    have hlt := (m a).toNat_lt
    have hmod : value m a (k + 1) % 256 = (m a).toNat := by
      rw [value]
      omega
    have hdiv : value m a (k + 1) / 256 = value m (a + 1) k := by
      rw [value]
      omega
    have hcons : (⟨a, bytes (k + 1) (value m a (k + 1))⟩ : Patch UInt8) =
        ⟨a, [.ofNat (value m a (k + 1))] ++ bytes k (value m a (k + 1) / 256)⟩ := rfl
    rw [hcons, Patch.holds_append, hdiv]
    refine ⟨fun i hi ↦ ?_, ih (a + 1)⟩
    obtain rfl : i = 0 := Nat.lt_one_iff.1 hi
    show m a = .ofNat (value m a (k + 1))
    rw [← UInt8.toNat_inj, UInt8.toNat_ofNat']
    exact hmod.symm

theorem value_write (m : ℕ → UInt8) (a : ℕ) (hw : w < 256 ^ k) :
    value (Patch.write m ⟨a, bytes k w⟩) a k = w :=
  value_of_holds hw (Patch.holds_write m)

/-- A write elsewhere does not change a number. -/
theorem value_write_of_apart {p : Patch UInt8}
    (h : a + k ≤ p.off ∨ p.off + p.vals.length ≤ a) : value (p.write m) a k = value m a k :=
  value_congr fun i hi ↦ Patch.write_of_outside (by omega)

/-! ### Records -/

/-- The bytes of a record, whose fields are given with their widths. -/
def record (fs : List (ℕ × ℕ)) : List UInt8 := fs.flatMap fun f ↦ bytes f.1 f.2

/-- Where a list of fields ends. -/
def width (fs : List (ℕ × ℕ)) : ℕ := (fs.map Prod.fst).sum

theorem width_append (fs gs : List (ℕ × ℕ)) : width (fs ++ gs) = width fs + width gs := by
  rw [width, List.map_append, List.sum_append, width, width]

/-- Fields of one width. -/
theorem width_map {α : Type*} (f : α → ℕ) (k : ℕ) (l : List α) :
    width (l.map fun x ↦ (k, f x)) = k * l.length := by
  induction l with
  | nil => rfl
  | cons x l ih =>
    rw [List.map_cons, List.length_cons, Nat.mul_succ, Nat.add_comm, ← ih]
    rfl

theorem length_record (fs : List (ℕ × ℕ)) : (record fs).length = width fs := by
  induction fs with
  | nil => rfl
  | cons f fs ih =>
    rw [record, List.flatMap_cons, List.length_append, length_bytes]
    exact congrArg (f.1 + ·) ih

/-- **A field of a record** is read where the fields before it end. -/
theorem value_of_record {fs : List (ℕ × ℕ)} (h : (⟨a, record fs⟩ : Patch UInt8).Holds m) {i : ℕ}
    (hi : fs[i]? = some (k, w)) (hw : w < 256 ^ k) : value m (a + width (fs.take i)) k = w := by
  induction fs generalizing a i with
  | nil => cases hi
  | cons f fs ih =>
    have hcons : (⟨a, record (f :: fs)⟩ : Patch UInt8) = ⟨a, bytes f.1 f.2 ++ record fs⟩ := rfl
    rw [hcons, Patch.holds_append, length_bytes] at h
    cases i with
    | zero =>
      obtain rfl : f = (k, w) := Option.some.inj hi
      exact value_of_holds hw h.1
    | succ i =>
      have hwidth : a + width ((f :: fs).take (i + 1)) = a + f.1 + width (fs.take i) :=
        (Nat.add_assoc _ _ _).symm
      rw [hwidth]
      exact ih h.2 hi

end LittleEndian
