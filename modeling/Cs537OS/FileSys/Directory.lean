import Cs537OS.FileSys.Consistent
import Cs537OS.FileSys.Names

/-!
# Directories

`dirlookup` goes through the blocks of a directory, and through each block to its end, also where
the directory ends before; what is there is zero, and so no entry. `dirlink` writes the new entry
into the first empty one or behind the last, and panics when there is no room for it.

* `dirlookup_spec` — the lookup finds what is in the table of the entries;
* `emptySlot_spec`, `linkEntry_spec` — a new entry in the table.
-/

namespace FileSys

open LittleEndian

/-- The entries of one block: the offset in the block and the number of the first one with the
name. -/
def scanBlock (name : ℕ → UInt8) (data : Block) : Option (ℕ × ℕ) :=
  (List.range (BSIZE / 16)).findSome? fun j ↦
    if value data (16 * j) 2 = 0 then none
    else if strncmp DIRSIZ name (fun i ↦ data (16 * j + 2 + i)) = 0 then
      some (16 * j, value data (16 * j) 2)
    else none

/-- The loop of `dirlookup`. -/
def lookupLoop (name : ℕ → UInt8) :
    ℕ → Disk → Inode → ℕ → Except String (Option (ℕ × ℕ) × Inode × Disk)
  | 0, d, dp, _ => .ok (none, dp, d)
  | fuel + 1, d, dp, off =>
    if off < dp.size then do
      let (addr, dp, d) ← bmap d dp (off / BSIZE)
      match scanBlock name (d addr) with
      | some (de, inum) => .ok (some (off + de, inum), dp, d)
      | none => lookupLoop name fuel d dp (off + BSIZE)
    else .ok (none, dp, d)

/-- Look for a directory entry in a directory: its offset and the number of its inode. -/
def dirlookup (d : Disk) (dp : Inode) (name : ℕ → UInt8) :
    Except String (Option (ℕ × ℕ) × Inode × Disk) :=
  if dp.type ≠ T_DIR then .error "dirlookup not DIR" else lookupLoop name dp.size d dp 0

/-- Look for an empty dirent. -/
def emptySlot : ℕ → Disk → Inode → ℕ → Except String (ℕ × Inode × Disk)
  | 0, d, dp, off => .ok (off, dp, d)
  | fuel + 1, d, dp, off =>
    if off < dp.size then do
      let (de, dp, d) ← readi d dp off 16
      if de.any (·.length = 16) then
        if value (bytesOf (de.getD [])) 0 2 = 0 then .ok (off, dp, d)
        else emptySlot fuel d dp (off + 16)
      else .error "dirlink read"
    else .ok (off, dp, d)

/-- Write a new directory entry, whose name is not present. -/
def linkEntry (d : Disk) (dp : Inode) (name : ℕ → UInt8) (inum : ℕ) :
    Except String (Inode × Disk) := do
  let (off, dp, d) ← emptySlot dp.size d dp 0
  let (n, dp, d) ← writei d dp (bytesOf (dirent inum name)) off 16
  if n = 16 then .ok (dp, d) else .error "dirlink"

variable {d d' : Disk} {dp dp' : Inode} {name : ℕ → UInt8} {off n j inum : ℕ}

/-- The bytes of a directory are its contents. -/
theorem deSlot_contents (hj : j < dp.size / 16) :
    deSlot (byteAt d dp) j = (dirOf (contents d dp)).slot j := by
  refine deSlot_congr fun i hi ↦ ?_
  have hlt : 16 * j + i < (contents d dp).length := by
    rw [length_contents]
    omega
  rw [bytesOf, List.getD_eq_getElem _ _ hlt, getElem_contents]

/-! ### `dirlookup` -/

/-- What the lookup does with one entry. -/
def match? (m : ℕ → UInt8) (name : List UInt8) (j : ℕ) : Option (ℕ × ℕ) :=
  (SlotTable.look ⟨0, deSlot m⟩ name j).map fun e ↦ (16 * e.1, e.2)

theorem match?_eq (m : ℕ → UInt8) (name : ℕ → UInt8) (j : ℕ) :
    match? m (cstr DIRSIZ name) j =
      if value m (16 * j) 2 = 0 then none
      else if strncmp DIRSIZ name (fun i ↦ m (16 * j + 2 + i)) = 0 then
        some (16 * j, value m (16 * j) 2)
      else none := by
  rw [match?, SlotTable.look]
  simp only [deSlot, strncmp_eq_zero_iff]
  by_cases hzero : value m (16 * j) 2 = 0
  · rw [if_pos hzero, if_pos hzero]
    rfl
  · rw [if_neg hzero, if_neg hzero]
    by_cases hname : cstr DIRSIZ name = cstr DIRSIZ fun i ↦ m (16 * j + 2 + i)
    · simp only [hname, if_true, Option.map_some]
    · simp only [if_neg hname, if_neg (Ne.symm hname), Option.map_none]

theorem findSome?_congr {α β : Type*} {f g : α → Option β} {l : List α}
    (h : ∀ a ∈ l, f a = g a) : l.findSome? f = l.findSome? g := by
  induction l with
  | nil => rfl
  | cons a l ih =>
    rw [List.findSome?_cons, List.findSome?_cons, h a List.mem_cons_self,
      ih fun b hb ↦ h b (List.mem_cons_of_mem a hb)]

/-- The bytes of block `n`. -/
theorem byteAt_block {o : ℕ} (ho : o < BSIZE) :
    byteAt d dp (n * BSIZE + o) = d (blockAt d dp n) o := by
  rw [byteAt, Nat.mul_comm, Nat.mul_add_div (by decide), Nat.div_eq_of_lt ho, Nat.mul_add_mod,
    Nat.mod_eq_of_lt ho, Nat.add_zero]

/-- The entries of block `n` of a directory. -/
theorem scanBlock_eq (name : ℕ → UInt8) (n : ℕ) :
    (scanBlock name (d (blockAt d dp n))).map (fun e ↦ (n * BSIZE + e.1, e.2)) =
      (List.range' (32 * n) 32).findSome? (match? (byteAt d dp) (cstr DIRSIZ name)) := by
  rw [scanBlock, List.map_findSome?, List.range'_eq_map_range, List.findSome?_map]
  refine findSome?_congr fun j hj ↦ ?_
  have hj : j < 32 := List.mem_range.1 hj
  have hoff : 16 * (32 * n + j) = n * BSIZE + 16 * j := by
    rw [BSIZE_eq]
    omega
  have hinum : value (byteAt d dp) (16 * (32 * n + j)) 2 =
      value (d (blockAt d dp n)) (16 * j) 2 := by
    refine value_congr fun i hi ↦ ?_
    rw [hoff, Nat.add_assoc]
    exact byteAt_block (by rw [BSIZE_eq]; omega)
  have hname : strncmp DIRSIZ name (fun i ↦ byteAt d dp (16 * (32 * n + j) + 2 + i)) =
      strncmp DIRSIZ name fun i ↦ d (blockAt d dp n) (16 * j + 2 + i) := by
    refine strncmp_congr fun i hi ↦ ?_
    rw [hoff, Nat.add_assoc, Nat.add_assoc, byteAt_block, Nat.add_assoc]
    rw [BSIZE_eq]
    rw [DIRSIZ] at hi
    omega
  rw [Function.comp_apply, Function.comp_apply, match?_eq, hinum, hname, hoff]
  split_ifs <;> rfl

/-- The number of blocks of a directory. -/
def nblocks (size : ℕ) : ℕ := (size + (BSIZE - 1)) / BSIZE

theorem mul_lt_iff_lt_nblocks {size : ℕ} : n * BSIZE < size ↔ n < nblocks size := by
  rw [nblocks, Nat.lt_div_iff_mul_lt (by decide), BSIZE_eq]
  omega

theorem lookupLoop_spec (h : Laid d dp dp.size) (name : ℕ → UInt8) (fuel n : ℕ)
    (hfuel : nblocks dp.size - n ≤ fuel) :
    lookupLoop name fuel d dp (n * BSIZE) =
      .ok ((List.range' (32 * n) (32 * (nblocks dp.size - n))).findSome?
        (match? (byteAt d dp) (cstr DIRSIZ name)), dp, d) := by
  induction fuel generalizing n with
  | zero =>
    rw [Nat.le_zero.1 hfuel]
    rfl
  | succ fuel ih =>
    rw [lookupLoop]
    by_cases hlt : n * BSIZE < dp.size
    · have hn := mul_lt_iff_lt_nblocks.1 hlt
      have hdiv : n * BSIZE / BSIZE = n := Nat.mul_div_cancel n (by decide)
      have hmax : n < MAXFILE := by
        have hlt' := div_lt_MAXFILE (hlt.trans_le h.le)
        rwa [hdiv] at hlt'
      have hne : blockAt d dp n ≠ 0 := (h.blockAt_iff n hmax).2 hlt
      have hsplit : 32 * (nblocks dp.size - n) = 32 + 32 * (nblocks dp.size - (n + 1)) := by omega
      have hscan : (scanBlock name (d (blockAt d dp n))).map _ = _ := scanBlock_eq name n
      rw [if_pos hlt, hdiv, bmap_old hmax hne, hsplit, ← List.range'_append_1,
        List.findSome?_append, ← hscan]
      simp only [bind, Except.bind]
      cases hfound : scanBlock name (d (blockAt d dp n)) with
      | some e => rfl
      | none =>
        have hnext : n * BSIZE + BSIZE = (n + 1) * BSIZE := (Nat.succ_mul n BSIZE).symm
        simp only
        rw [hnext, ih (n + 1) (by omega), Nat.mul_succ]
        rfl
    · have hn : nblocks dp.size - n = 0 := by
        rw [mul_lt_iff_lt_nblocks] at hlt
        omega
      rw [if_neg hlt, hn]
      rfl

/-- Behind its end a directory has no entries. -/
theorem match?_behind (h : Laid d dp dp.size) (hj : dp.size ≤ 16 * j)
    (hlt : j < 32 * nblocks dp.size) (name : List UInt8) : match? (byteAt d dp) name j = none := by
  have hnone : deSlot (byteAt d dp) j = none := by
    refine deSlot_zero fun i hi ↦ ?_
    have hblock : (16 * j + i) / BSIZE < nblocks dp.size := by
      rw [Nat.div_lt_iff_lt_mul (by decide), BSIZE_eq]
      omega
    have hthere := mul_lt_iff_lt_nblocks.2 hblock
    have hmax : (16 * j + i) / BSIZE < MAXFILE := by
      have hmax := h.le
      have hmul := hthere.trans_le hmax
      exact Nat.lt_of_mul_lt_mul_right hmul
    have hpos : 16 * j + i < MAXFILE * BSIZE := by
      rwa [Nat.div_lt_iff_lt_mul (by decide)] at hmax
    exact h.tail _ hpos (by omega) ((h.blockAt_iff _ hmax).2 hthere)
  rw [match?, SlotTable.look]
  simp only [hnone, Option.map_none]

/-- **The lookup** finds what is in the table of the entries. -/
theorem dirlookup_spec (h : Laid d dp dp.size) (htype : dp.type = T_DIR) (hsize : 16 ∣ dp.size)
    (name : ℕ → UInt8) :
    dirlookup d dp name =
      .ok (((dirOf (contents d dp)).find? (cstr DIRSIZ name)).map fun e ↦ (16 * e.1, e.2),
        dp, d) := by
  have hfuel : nblocks dp.size - 0 ≤ dp.size := by
    rw [nblocks, BSIZE_eq]
    omega
  have hloop := lookupLoop_spec h name dp.size 0 hfuel
  rw [Nat.zero_mul, Nat.mul_zero, Nat.sub_zero] at hloop
  rw [dirlookup, if_neg (not_not.2 htype), hloop]
  obtain ⟨n, hn⟩ := hsize
  have hsplit : 32 * nblocks dp.size = n + (32 * nblocks dp.size - n) := by
    rw [nblocks, BSIZE_eq]
    omega
  have hbehind : (List.range' (0 + n) (32 * nblocks dp.size - n)).findSome?
      (match? (byteAt d dp) (cstr DIRSIZ name)) = none := by
    refine List.findSome?_eq_none_iff.2 fun j hj ↦ ?_
    have hj := List.mem_range'_1.1 hj
    exact match?_behind h (by omega) (by omega) _
  have hlen : (dirOf (contents d dp)).len = n := by
    show (contents d dp).length / 16 = n
    rw [length_contents]
    omega
  rw [hsplit, ← List.range'_append_1, List.findSome?_append, hbehind, Option.or_none,
    SlotTable.find?, hlen, List.map_findSome?, List.range_eq_range']
  refine congrArg (fun r ↦ Except.ok (r, dp, d)) (findSome?_congr fun j hj ↦ ?_)
  have hj := List.mem_range'_1.1 hj
  rw [match?, Function.comp_apply, SlotTable.look, SlotTable.look]
  simp only [deSlot_contents (show j < dp.size / 16 by omega)]

/-! ### `dirlink` -/

theorem bytesOf_slice {l : List UInt8} {a n i : ℕ} (hi : i < n) :
    bytesOf ((l.drop a).take n) i = bytesOf l (a + i) := by
  rw [bytesOf, bytesOf, List.getD_eq_getElem?_getD, List.getElem?_take_of_lt hi,
    List.getElem?_drop, List.getD_eq_getElem?_getD]

theorem map_bytesOf {l : List UInt8} {n : ℕ} (hn : l.length = n) :
    (List.range n).map (bytesOf l) = l := by
  refine List.ext_getElem ?_ fun i hi hi' ↦ ?_
  · rw [List.length_map, List.length_range, hn]
  · rw [List.getElem_map, List.getElem_range, bytesOf, List.getD_eq_getElem _ _ hi']

/-- One entry is read. -/
theorem readi_entry (h : Laid d dp dp.size) (hj : j < dp.size / 16) :
    ∃ de, readi d dp (16 * j) 16 = .ok (some de, dp, d) ∧ de.length = 16 ∧
      (value (bytesOf de) 0 2 = 0 ↔ (dirOf (contents d dp)).slot j = none) := by
  have hmax := h.le.trans_lt MAXFILE_mul_lt
  refine ⟨_, readi_spec h (by omega) (by omega), ?_, ?_⟩
  · rw [List.length_take, List.length_drop, length_contents]
    omega
  · have hvalue : value (bytesOf (((contents d dp).drop (16 * j)).take 16)) 0 2 =
        value (bytesOf (contents d dp)) (16 * j) 2 := by
      refine value_congr fun i hi ↦ ?_
      rw [Nat.zero_add, bytesOf_slice (by omega)]
    rw [hvalue]
    show _ ↔ deSlot _ j = none
    rw [deSlot]
    split_ifs with hzero
    · exact iff_of_true hzero rfl
    · exact iff_of_false hzero fun hnone ↦ by cases hnone

/-- **The first empty entry**, or the end. -/
theorem emptySlot_spec (h : Laid d dp dp.size) (hsize : 16 ∣ dp.size) (fuel j : ℕ)
    (hfuel : dp.size / 16 - j ≤ fuel) (hj : j ≤ dp.size / 16) :
    ∃ i ≤ dp.size / 16, emptySlot fuel d dp (16 * j) = .ok (16 * i, dp, d) ∧
      (i < dp.size / 16 → (dirOf (contents d dp)).slot i = none) ∧
      ∀ l, j ≤ l → l < i → (dirOf (contents d dp)).slot l ≠ none := by
  induction fuel generalizing j with
  | zero => exact ⟨j, hj, rfl, fun hlt ↦ by omega, fun l hle hlt ↦ by omega⟩
  | succ fuel ih =>
    obtain ⟨n, hn⟩ := hsize
    rw [emptySlot]
    by_cases hlt : 16 * j < dp.size
    · obtain ⟨de, hread, hlength, hiff⟩ := readi_entry h (j := j) (by omega)
      rw [if_pos hlt, hread]
      simp only [bind, Except.bind, Option.any_some, hlength, decide_true, if_true,
        Option.getD_some, hiff]
      by_cases hnone : (dirOf (contents d dp)).slot j = none
      · rw [if_pos hnone]
        exact ⟨j, hj, rfl, fun _ ↦ hnone, fun l hle hlt ↦ by omega⟩
      · rw [if_neg hnone]
        obtain ⟨i, hi, hok, hempty, hused⟩ := ih (j + 1) (by omega) (by omega)
        refine ⟨i, hi, hok, hempty, fun l hle hli ↦ ?_⟩
        rcases Nat.eq_or_lt_of_le hle with rfl | hlt
        · exact hnone
        · exact hused l hlt hli
    · rw [if_neg hlt]
      exact ⟨j, hj, rfl, fun hlt' ↦ by omega, fun l hle hlt ↦ by omega⟩

/-- **One entry** is written, over an old one or behind the last. -/
theorem Wrote.dirOf_eq {src : ℕ → UInt8} (h : Wrote d dp src (16 * j) 16 16 d' dp')
    (hsize : 16 ∣ dp.size) (hj : j ≤ (dirOf (contents d dp)).len) :
    dp'.size = max dp.size (16 * j + 16) ∧
      (dirOf (contents d' dp')).len = max (dirOf (contents d dp)).len (j + 1) ∧
      (dirOf (contents d' dp')).slot = Function.update (dirOf (contents d dp)).slot j
        (deSlot (bytesOf ((List.range 16).map src)) 0) := by
  have hlen : 16 * j ≤ (contents d dp).length := by
    have hle : j ≤ (contents d dp).length / 16 := hj
    omega
  have hnew : ((List.range 16).map src).length = 16 := by rw [List.length_map, List.length_range]
  refine ⟨?_, ?_⟩
  · rw [← length_contents (d := d'), h.contents_eq, length_splice hlen, length_contents, hnew]
  · rw [h.contents_eq]
    exact dirOf_splice (contents d dp) (by rwa [length_contents]) hnew hj

/-- **A new entry**: it is put into the table, or there is no room for it. -/
theorem linkEntry_spec {i : ℕ} (hok : FileOk d i dp) (hi : i < (readsb d).ninodes)
    (hsize : 16 ∣ dp.size) (name : ℕ → UInt8) (hpos : 0 < inum) (hlt : inum < 2 ^ 16) :
    ∃ j ≤ (dirOf (contents d dp)).len,
      (j < (dirOf (contents d dp)).len → (dirOf (contents d dp)).slot j = none) ∧
      ((∃ dp' d', linkEntry d dp name inum = .ok (dp', d') ∧
          Wrote d dp (bytesOf (dirent inum name)) (16 * j) 16 16 d' dp' ∧
          16 ∣ dp'.size ∧
          dirOf (contents d' dp') =
            (dirOf (contents d dp)).put j (cstr DIRSIZ name) inum) ∨
        linkEntry d dp name inum = .error "dirlink" ∧
          ∀ l < (dirOf (contents d dp)).len, (dirOf (contents d dp)).slot l ≠ none) := by
  have hlen : (dirOf (contents d dp)).len = dp.size / 16 := by
    rw [← length_contents (d := d)]
    rfl
  obtain ⟨j, hj, hempty, hnone, hused⟩ :=
    emptySlot_spec hok.laid hsize dp.size 0 (by omega) (Nat.zero_le _)
  have hmax := hok.laid.le
  have hbound : MAXFILE * BSIZE = 71680 := rfl
  obtain ⟨k, dp', d', hwrite, hwrote⟩ := writei_spec hok.laid hok.fits hok.agrees
    (by rwa [hok.inum]) (bytesOf (dirent inum name)) (show 16 * j ≤ dp.size by omega)
    (show 16 * j + 16 < 2 ^ 32 by omega)
  have hstep : linkEntry d dp name inum =
      if (k : ℤ) = 16 then .ok (dp', d') else .error "dirlink" := by
    rw [Nat.mul_zero] at hempty
    rw [linkEntry, hempty]
    simp only [bind, Except.bind, hwrite]
  refine ⟨j, by omega, fun hlt ↦ hnone (by omega), ?_⟩
  by_cases hk : k = 16
  · subst hk
    obtain ⟨hsize', hlen', hslot'⟩ := hwrote.dirOf_eq hsize (by omega)
    refine .inl ⟨dp', d', hstep.trans (if_pos rfl), hwrote, by omega, ?_⟩
    rw [map_bytesOf (length_dirent inum name), deSlot_dirent hpos hlt] at hslot'
    rw [SlotTable.put, ← hlen', ← hslot']
  · have hne : (k : ℤ) ≠ 16 := by omega
    -- An old entry can be replaced, so the new one was to go behind the last.
    have hbehind : ¬ 16 * j + 16 ≤ dp.size := fun hin ↦ hk (hwrote.inside hin)
    exact .inr ⟨hstep.trans (if_neg hne), fun l hl ↦ hused l (Nat.zero_le l) (by omega)⟩

end FileSys
