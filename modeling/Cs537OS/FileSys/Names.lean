import Cs537OS.FileSys.Update
import Cs537OS.Foundation.SlotTable

/-!
# Directory entries

A directory is a file of entries of 16 bytes, a number and a name of up to `DIRSIZ` bytes, which is
not terminated when it has them all. An entry with the number 0 is empty. `dirOf` reads the
entries of a directory as a table of slots.

* `strncmp_eq_zero_iff`, `cstr_strncpy` — comparing and copying names;
* `dirOf_splice` — an entry is written over an old one or behind the last;
* `deSlot_dirent`, `deSlot_zero` — what the entries are that are written.
-/

namespace FileSys

open LittleEndian

def DIRSIZ : ℕ := 14

/-! ### Strings -/

/-- Compare the strings at `p` and `q`, at most `n` bytes of them. -/
def strncmp : ℕ → (ℕ → UInt8) → (ℕ → UInt8) → ℤ
  | 0, _, _ => 0
  | n + 1, p, q =>
    if p 0 ≠ 0 ∧ p 0 = q 0 then strncmp n (fun i ↦ p (i + 1)) fun i ↦ q (i + 1)
    else (p 0).toNat - (q 0).toNat

/-- The `n` bytes that are written when the string at `t` is copied. -/
def strncpy : ℕ → (ℕ → UInt8) → List UInt8
  | 0, _ => []
  | n + 1, t => if t 0 = 0 then List.replicate (n + 1) 0 else t 0 :: strncpy n fun i ↦ t (i + 1)

/-- The string at `p`, as far as it is in the first `n` bytes. -/
def cstr : ℕ → (ℕ → UInt8) → List UInt8
  | 0, _ => []
  | n + 1, p => if p 0 = 0 then [] else p 0 :: cstr n fun i ↦ p (i + 1)

/-- The bytes of a list, and zeros behind. -/
def bytesOf (l : List UInt8) (i : ℕ) : UInt8 := l.getD i 0

theorem cstr_congr {n : ℕ} {p q : ℕ → UInt8} (h : ∀ i < n, p i = q i) : cstr n p = cstr n q := by
  induction n generalizing p q with
  | zero => rfl
  | succ n ih =>
    rw [cstr, cstr, h 0 (Nat.succ_pos n), ih fun i hi ↦ h (i + 1) (Nat.succ_lt_succ hi)]

theorem strncmp_congr {n : ℕ} {p q r : ℕ → UInt8} (h : ∀ i < n, q i = r i) :
    strncmp n p q = strncmp n p r := by
  induction n generalizing p q r with
  | zero => rfl
  | succ n ih =>
    rw [strncmp, strncmp, h 0 (Nat.succ_pos n), ih fun i hi ↦ h (i + 1) (Nat.succ_lt_succ hi)]

/-- **Names are compared** as strings. -/
theorem strncmp_eq_zero_iff {n : ℕ} {p q : ℕ → UInt8} :
    strncmp n p q = 0 ↔ cstr n p = cstr n q := by
  induction n generalizing p q with
  | zero => exact iff_of_true rfl rfl
  | succ n ih =>
    rw [strncmp, cstr, cstr]
    by_cases hsame : p 0 = q 0
    · rw [← hsame]
      by_cases hend : p 0 = 0
      · rw [if_neg fun h ↦ h.1 hend, if_pos hend, if_pos hend]
        exact iff_of_true (sub_self _) rfl
      · rw [if_pos ⟨hend, rfl⟩, if_neg hend, if_neg hend, ih, List.cons.injEq,
          and_iff_right rfl]
    · have hne : ((p 0).toNat : ℤ) - (q 0).toNat ≠ 0 := by
        rw [sub_ne_zero]
        exact fun h ↦ hsame (UInt8.toNat_inj.1 (Int.ofNat.inj h))
      rw [if_neg fun h ↦ hsame h.2]
      refine iff_of_false hne fun h ↦ ?_
      split_ifs at h with hp hq hq
      · exact hsame (hp.trans hq.symm)
      · exact hsame (List.cons.inj h).1

theorem length_strncpy (n : ℕ) (t : ℕ → UInt8) : (strncpy n t).length = n := by
  induction n generalizing t with
  | zero => rfl
  | succ n ih =>
    rw [strncpy]
    split_ifs
    · exact List.length_replicate
    · rw [List.length_cons, ih]

/-- **A copied name** is the same string. -/
theorem cstr_strncpy (n : ℕ) (t : ℕ → UInt8) : cstr n (bytesOf (strncpy n t)) = cstr n t := by
  induction n generalizing t with
  | zero => rfl
  | succ n ih =>
    rw [strncpy, cstr, cstr]
    by_cases hend : t 0 = 0
    · rw [if_pos hend, if_pos hend]
      exact if_pos rfl
    · rw [if_neg hend, if_neg hend]
      exact (if_neg hend).trans (congrArg _ (ih fun i ↦ t (i + 1)))

/-! ### Entries -/

/-- Entry `j` of the directory that is at `m`, unless it is empty. -/
def deSlot (m : ℕ → UInt8) (j : ℕ) : Option (List UInt8 × ℕ) :=
  if value m (16 * j) 2 = 0 then none
  else some (cstr DIRSIZ (fun i ↦ m (16 * j + 2 + i)), value m (16 * j) 2)

/-- The entries of a directory. -/
def dirOf (data : List UInt8) : SlotTable (List UInt8) ℕ where
  len := data.length / 16
  slot := deSlot (bytesOf data)

/-- The bytes of an entry: `de.inum` and `de.name`. -/
def dirent (inum : ℕ) (name : ℕ → UInt8) : List UInt8 := bytes 2 inum ++ strncpy DIRSIZ name

/-- An entry is its 16 bytes. -/
theorem deSlot_congr {m m' : ℕ → UInt8} {j k : ℕ}
    (h : ∀ i < 16, m (16 * j + i) = m' (16 * k + i)) : deSlot m j = deSlot m' k := by
  have hinum : value m (16 * j) 2 = value m' (16 * k) 2 :=
    value_congr fun i hi ↦ h i (by omega)
  have hname : cstr DIRSIZ (fun i ↦ m (16 * j + 2 + i)) =
      cstr DIRSIZ fun i ↦ m' (16 * k + 2 + i) := by
    refine cstr_congr fun i hi ↦ ?_
    rw [Nat.add_assoc, Nat.add_assoc]
    exact h (2 + i) (by rw [DIRSIZ] at hi; omega)
  rw [deSlot, deSlot, hinum, hname]

theorem length_dirent (inum : ℕ) (name : ℕ → UInt8) : (dirent inum name).length = 16 := by
  rw [dirent, List.length_append, length_bytes, length_strncpy]
  rfl

theorem bytesOf_append_left {l l' : List UInt8} {i : ℕ} (hi : i < l.length) :
    bytesOf (l ++ l') i = bytesOf l i := by
  rw [bytesOf, bytesOf, List.getD_append _ _ _ _ hi]

theorem bytesOf_append_right (l l' : List UInt8) (i : ℕ) :
    bytesOf (l ++ l') (l.length + i) = bytesOf l' i := by
  rw [bytesOf, bytesOf, List.getD_append_right _ _ _ _ (Nat.le_add_right _ _),
    Nat.add_sub_cancel_left]

/-- **What is written is read.** -/
theorem deSlot_dirent {inum : ℕ} (hpos : 0 < inum) (hlt : inum < 2 ^ 16) (name : ℕ → UInt8) :
    deSlot (bytesOf (dirent inum name)) 0 = some (cstr DIRSIZ name, inum) := by
  have hinum : value (bytesOf (dirent inum name)) 0 2 = inum := by
    refine value_of_holds hlt fun i hi ↦ ?_
    have hi' : i < (bytes 2 inum).length := hi
    rw [Nat.zero_add, dirent, bytesOf_append_left hi', bytesOf, List.getD_eq_getElem _ _ hi']
  have hname : cstr DIRSIZ (fun i ↦ bytesOf (dirent inum name) (2 + i)) = cstr DIRSIZ name := by
    rw [← cstr_strncpy DIRSIZ name]
    refine cstr_congr fun i _ ↦ ?_
    have hright := bytesOf_append_right (bytes 2 inum) (strncpy DIRSIZ name) i
    rwa [length_bytes] at hright
  rw [deSlot]
  simp only [Nat.mul_zero, Nat.zero_add]
  rw [hinum, hname, if_neg hpos.ne']

/-- An entry of zeros is empty. -/
theorem deSlot_zero {m : ℕ → UInt8} {j : ℕ} (h : ∀ i < 2, m (16 * j + i) = 0) :
    deSlot m j = none := by
  rw [deSlot, if_pos]
  have hzero : value m (16 * j) 2 = value (fun _ ↦ 0) 0 2 := value_congr fun i hi ↦ h i hi
  rw [hzero]
  rfl

/-! ### Writing an entry -/

theorem length_splice {old new : List UInt8} {off : ℕ} (hoff : off ≤ old.length) :
    (splice old off new).length = max old.length (off + new.length) := by
  rw [splice, List.length_append, List.length_append, List.length_take, List.length_drop]
  omega

/-- The bytes of a file of which a part is replaced. -/
theorem bytesOf_splice {old : List UInt8} (new : List UInt8) {off : ℕ} (hoff : off ≤ old.length)
    (p : ℕ) :
    bytesOf (splice old off new) p =
      if off ≤ p ∧ p < off + new.length then bytesOf new (p - off) else bytesOf old p := by
  have htake : (old.take off).length = off := by rw [List.length_take, Nat.min_eq_left hoff]
  rw [splice]
  rcases Nat.lt_or_ge p off with hbefore | hfrom
  · rw [if_neg (by omega), List.append_assoc, bytesOf_append_left (by rwa [htake]), bytesOf,
      bytesOf, List.getD_eq_getElem?_getD, List.getElem?_take_of_lt hbefore,
      List.getD_eq_getElem?_getD]
  · obtain ⟨i, rfl⟩ := Nat.exists_eq_add_of_le hfrom
    have hright := bytesOf_append_right (old.take off) (new ++ old.drop (off + new.length)) i
    rw [htake] at hright
    rw [List.append_assoc, hright, Nat.add_sub_cancel_left]
    rcases Nat.lt_or_ge i new.length with hin | hout
    · rw [if_pos (by omega), bytesOf_append_left hin]
    · obtain ⟨k, rfl⟩ := Nat.exists_eq_add_of_le hout
      rw [if_neg (by omega), bytesOf_append_right, bytesOf, bytesOf, List.getD_eq_getElem?_getD,
        List.getElem?_drop, List.getD_eq_getElem?_getD, Nat.add_assoc]

/-- **An entry is written** over an old one or behind the last. -/
theorem dirOf_splice (data : List UInt8) {de : List UInt8} {j : ℕ} (hdata : 16 ∣ data.length)
    (hde : de.length = 16) (hj : j ≤ (dirOf data).len) :
    (dirOf (splice data (16 * j) de)).len = max (dirOf data).len (j + 1) ∧
      (dirOf (splice data (16 * j) de)).slot =
        Function.update (dirOf data).slot j (deSlot (bytesOf de) 0) := by
  obtain ⟨n, hn⟩ := hdata
  have hlen : (dirOf data).len = n := by
    show data.length / 16 = n
    omega
  rw [hlen] at hj ⊢
  have hoff : 16 * j ≤ data.length := by omega
  refine ⟨?_, funext fun k ↦ ?_⟩
  · show (splice data (16 * j) de).length / 16 = _
    rw [length_splice hoff, hde]
    omega
  · have hbytes := bytesOf_splice de hoff
    rw [hde] at hbytes
    rcases eq_or_ne k j with rfl | hne
    · rw [Function.update_self]
      refine deSlot_congr fun i hi ↦ ?_
      rw [hbytes, if_pos (by omega), Nat.add_sub_cancel_left, Nat.mul_zero, Nat.zero_add]
    · rw [Function.update_of_ne hne]
      refine deSlot_congr fun i hi ↦ ?_
      rw [hbytes, if_neg (by omega)]

end FileSys
