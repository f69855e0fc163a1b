import Cs537OS.FileSys.Blocks

/-!
# Reading and writing a file

The contents of a file are the bytes of its blocks, one block behind the other, up to its size.
`Laid` says that exactly the blocks below some extent are there, and that what is in them beyond the
extent is zero, so that a file never shows what its blocks held before.

* `bmap_spec` — one call of `bmap` at the end of a file or before it;
* `Laid.put` — a write within one block;
* `writeiLoop_spec` — the loop of `writei` replaces the bytes it says it has written, and stops
  early only when the disk is full;
* `readiLoop_spec`, `readi_spec` — a read returns the bytes that are there.
-/

namespace FileSys

open LittleEndian

/-- Byte `p` of a file. -/
def byteAt (d : Disk) (ip : Inode) (p : ℕ) : UInt8 := d (blockAt d ip (p / BSIZE)) (p % BSIZE)

/-- What is in a file. -/
def contents (d : Disk) (ip : Inode) : List UInt8 := (List.range ip.size).map (byteAt d ip)

/-- The blocks of a file are those below the extent `e`. -/
structure Laid (d : Disk) (ip : Inode) (e : ℕ) : Prop where
  sound : Sound d
  owns : Owns d ip
  le : e ≤ MAXFILE * BSIZE
  blockAt_iff : ∀ bn < MAXFILE, blockAt d ip bn ≠ 0 ↔ bn * BSIZE < e
  /-- What is beyond is zero. -/
  tail : ∀ p < MAXFILE * BSIZE, e ≤ p → blockAt d ip (p / BSIZE) ≠ 0 → byteAt d ip p = 0

variable {d d' : Disk} {ip ip' : Inode} {e off bn b p : ℕ}

theorem div_lt_MAXFILE (h : p < MAXFILE * BSIZE) : p / BSIZE < MAXFILE :=
  Nat.div_lt_of_lt_mul (by rwa [Nat.mul_comm])

theorem div_mul_le (p : ℕ) : p / BSIZE * BSIZE ≤ p := Nat.div_mul_le_self p BSIZE

theorem lt_div_mul_add (p : ℕ) : p < p / BSIZE * BSIZE + BSIZE := Nat.lt_div_mul_add (by decide)

namespace Laid

/-- The block of a byte that is there. -/
theorem blockAt_ne_zero (h : Laid d ip e) (hp : p < e) : blockAt d ip (p / BSIZE) ≠ 0 :=
  (h.blockAt_iff _ (div_lt_MAXFILE (hp.trans_le h.le))).2 ((div_mul_le p).trans_lt hp)

theorem inUse (h : Laid d ip e) (hbn : bn < MAXFILE) (hne : blockAt d ip bn ≠ 0) :
    InUse d (blockAt d ip bn) :=
  h.owns.inUse _ (slotOf_lt hbn) hne

/-- A data block is not the indirect block. -/
theorem ne_indirect (h : Laid d ip e) (hbn : bn < MAXFILE) (hne : blockAt d ip bn ≠ 0) :
    blockAt d ip bn ≠ ip.addrs NDIRECT := by
  intro heq
  have hdirect : slot d ip NDIRECT = ip.addrs NDIRECT := slot_direct le_rfl
  rw [← hdirect] at heq
  exact slotOf_ne bn (h.owns.inj _ (slotOf_lt hbn) _ (by decide) hne heq)

/-- Two blocks of a file. -/
theorem blockAt_inj (h : Laid d ip e) {m : ℕ} (hbn : bn < MAXFILE) (hm : m < MAXFILE)
    (hne : blockAt d ip bn ≠ 0) (heq : blockAt d ip bn = blockAt d ip m) : bn = m :=
  slotOf_inj (h.owns.inj _ (slotOf_lt hbn) _ (slotOf_lt hm) hne heq)

/-- A call of `bmap` that finds nothing free. -/
theorem of_mapped_zero (h : Laid d ip e) (hm : Mapped d ip bn 0 d' ip')
    (hzero : blockAt d ip bn = 0) :
    Laid d' ip' e ∧ ∀ p < MAXFILE * BSIZE, blockAt d ip (p / BSIZE) ≠ 0 →
      byteAt d' ip' p = byteAt d ip p := by
  have hblock : ∀ m < MAXFILE, blockAt d' ip' m = blockAt d ip m := by
    intro m hm'
    rw [hm.blockAt_eq m hm']
    split_ifs with heq
    · rw [heq, hzero]
    · rfl
  have hbyte : ∀ p < MAXFILE * BSIZE, blockAt d ip (p / BSIZE) ≠ 0 →
      byteAt d' ip' p = byteAt d ip p := by
    intro p hp hne
    have hlt := div_lt_MAXFILE hp
    rw [byteAt, byteAt, hblock _ hlt, hm.data _ (h.inUse hlt hne) (h.ne_indirect hlt hne)]
  refine ⟨⟨hm.sound, hm.owns, h.le, fun m hm' ↦ ?_, fun p hp hle hne ↦ ?_⟩, hbyte⟩
  · rw [hblock m hm']
    exact h.blockAt_iff m hm'
  · rw [hblock _ (div_lt_MAXFILE hp)] at hne
    rw [hbyte p hp hne]
    exact h.tail p hp hle hne

/-- A call of `bmap` that adds a block at the end of the file. -/
theorem of_mapped (h : Laid d ip e) {addr : ℕ} (hm : Mapped d ip bn addr d' ip')
    (hbn : bn < MAXFILE) (he : bn * BSIZE = e) (hne : addr ≠ 0) :
    Laid d' ip' (e + 1) ∧ ∀ p < e, byteAt d' ip' p = byteAt d ip p := by
  have hbyte : ∀ p < MAXFILE * BSIZE, p / BSIZE ≠ bn → blockAt d ip (p / BSIZE) ≠ 0 →
      byteAt d' ip' p = byteAt d ip p := by
    intro p hp hpb hne
    have hlt := div_lt_MAXFILE hp
    rw [byteAt, byteAt, hm.blockAt_eq _ hlt, if_neg hpb,
      hm.data _ (h.inUse hlt hne) (h.ne_indirect hlt hne)]
  refine ⟨⟨hm.sound, hm.owns, ?_, fun m hm' ↦ ?_, fun p hp hle hne' ↦ ?_⟩, fun p hp ↦ ?_⟩
  · have hlt := Nat.mul_le_mul_right BSIZE (Nat.succ_le_of_lt hbn)
    rw [Nat.succ_mul, he] at hlt
    rw [BSIZE_eq] at hlt ⊢
    omega
  · rw [hm.blockAt_eq m hm']
    split_ifs with heq
    · rw [heq, he]
      exact iff_of_true hne (Nat.lt_succ_self e)
    · rw [h.blockAt_iff m hm', ← he]
      have hlt : m * BSIZE < bn * BSIZE + 1 ↔ m * BSIZE < bn * BSIZE := by
        rw [Nat.lt_succ_iff, le_iff_lt_or_eq, or_iff_left]
        exact fun hmul ↦ heq (Nat.eq_of_mul_eq_mul_right (by decide) hmul)
      exact hlt.symm
  · by_cases hpb : p / BSIZE = bn
    · rw [byteAt, hm.blockAt_eq _ (div_lt_MAXFILE hp), if_pos hpb]
      exact hm.zero hne _ (Nat.mod_lt _ (by decide))
    · rw [hm.blockAt_eq _ (div_lt_MAXFILE hp), if_neg hpb] at hne'
      rw [hbyte p hp hpb hne']
      exact h.tail p hp (by omega) hne'
  · refine hbyte p (hp.trans_le h.le) ?_ (h.blockAt_ne_zero hp)
    rintro rfl
    have hle := div_mul_le p
    omega

/-- The extent may be taken to the end of a byte in a block that is there. -/
theorem extend (h : Laid d ip e) {e' : ℕ} (hle : e ≤ e')
    (hblocks : ∀ bn < MAXFILE, bn * BSIZE < e' → bn * BSIZE < e) (hmax : e' ≤ MAXFILE * BSIZE) :
    Laid d ip e' := by
  refine ⟨h.sound, h.owns, hmax, fun bn hbn ↦ ?_, fun p hp hp' ↦ h.tail p hp (hle.trans hp')⟩
  rw [h.blockAt_iff bn hbn]
  exact ⟨fun hlt ↦ hlt.trans_le hle, hblocks bn hbn⟩

end Laid

/-- **One call of `bmap`** at the end of a file or before it. -/
theorem bmap_spec (h : Laid d ip e) (hoff : off ≤ e) (hmax : off < MAXFILE * BSIZE) :
    ∃ addr ip' d', bmap d ip (off / BSIZE) = .ok (addr, ip', d') ∧ Grows d ip d' ip' ∧
      (∀ p < e, byteAt d' ip' p = byteAt d ip p) ∧
      (addr = 0 ∧ Laid d' ip' e ∧ Full d' ∧ off = e ∨
        addr ≠ 0 ∧ addr = blockAt d' ip' (off / BSIZE) ∧ Laid d' ip' (max e (off + 1))) := by
  have hbn := div_lt_MAXFILE hmax
  have hle := div_mul_le off
  have hlt := lt_div_mul_add off
  by_cases hzero : blockAt d ip (off / BSIZE) = 0
  · -- the file ends here, at the end of a block
    have he : off / BSIZE * BSIZE = e := by
      have hnot := (not_congr (h.blockAt_iff _ hbn)).1 (not_not.2 hzero)
      omega
    obtain ⟨addr, ip', d', hok, hm⟩ := bmap_new h.sound h.owns hbn hzero
    refine ⟨addr, ip', d', hok, hm.grows, ?_⟩
    by_cases haddr : addr = 0
    · subst haddr
      obtain ⟨hlaid, hbyte⟩ := h.of_mapped_zero hm hzero
      exact ⟨fun p hp ↦ hbyte p (hp.trans_le h.le) (h.blockAt_ne_zero hp),
        .inl ⟨rfl, hlaid, hm.full rfl, by omega⟩⟩
    · obtain ⟨hlaid, hbyte⟩ := h.of_mapped hm hbn he haddr
      refine ⟨hbyte, .inr ⟨haddr, ?_, ?_⟩⟩
      · rw [hm.blockAt_eq _ hbn, if_pos rfl]
      · rwa [Nat.max_eq_right (by omega), show off + 1 = e + 1 by omega]
  · refine ⟨_, ip, d, bmap_old hbn hzero, .refl d ip, fun _ _ ↦ rfl, .inr ⟨hzero, rfl, ?_⟩⟩
    have hthere := (h.blockAt_iff _ hbn).1 hzero
    refine h.extend (Nat.le_max_left _ _) (fun m hm hlt' ↦ ?_) (Nat.max_le.2 ⟨h.le, hmax⟩)
    rcases Nat.lt_or_ge (m * BSIZE) e with hin | hge
    · exact hin
    · -- a block that begins at `off` or before, and not before `e`
      have hmul : m * BSIZE ≤ off / BSIZE * BSIZE := by
        refine Nat.mul_le_mul_right _ ((Nat.le_div_iff_mul_le (by decide)).2 ?_)
        omega
      omega

/-- A byte of a patch. -/
theorem write_map_range (m : Block) (a len : ℕ) (f : ℕ → UInt8) (o : ℕ) :
    Patch.write m ⟨a, (List.range len).map f⟩ o =
      if a ≤ o ∧ o < a + len then f (o - a) else m o := by
  split_ifs with hin
  · obtain ⟨i, rfl⟩ := Nat.exists_eq_add_of_le hin.1
    have hi : i < ((List.range len).map f).length := by
      rw [List.length_map, List.length_range]
      omega
    refine (Patch.holds_write m i hi).trans ?_
    rw [List.getElem_map, List.getElem_range, Nat.add_sub_cancel_left]
  · refine Patch.write_of_outside ?_
    show o < a ∨ a + ((List.range len).map f).length ≤ o
    rw [List.length_map, List.length_range]
    omega

/-- **A write within one block** that is there. -/
theorem Laid.put (h : Laid d ip e) (hoff : off < e) {m : ℕ} (hm : off % BSIZE + m ≤ BSIZE)
    (f : ℕ → UInt8) :
    let d' := d.copyIn (blockAt d ip (off / BSIZE)) off m f
    Laid d' ip (max e (off + m)) ∧ Grows d ip d' ip ∧
      ∀ p < max e (off + m), byteAt d' ip p =
        if off ≤ p ∧ p < off + m then f (p - off) else byteAt d ip p := by
  intro d'
  have hbn := div_lt_MAXFILE (hoff.trans_le h.le)
  have hne := h.blockAt_ne_zero hoff
  obtain ⟨hs, ho, hgrows, hslot⟩ : Sound d' ∧ Owns d' ip ∧ Grows d ip d' ip ∧ _ :=
    h.owns.bwrite h.sound (slotOf_lt hbn) hne (slotOf_ne _) _
  have hblock : ∀ n < MAXFILE, blockAt d' ip n = blockAt d ip n := fun n hn ↦ hslot _ (slotOf_lt hn)
  have hoffmod := Nat.div_add_mod' off BSIZE
  have hbytes : ∀ p < MAXFILE * BSIZE, blockAt d ip (p / BSIZE) ≠ 0 →
      byteAt d' ip p = if off ≤ p ∧ p < off + m then f (p - off) else byteAt d ip p := by
    intro p hp hp₀
    have hpmod := Nat.div_add_mod' p BSIZE
    have hlt := div_lt_MAXFILE hp
    rw [byteAt, hblock _ hlt, byteAt]
    by_cases heq : p / BSIZE = off / BSIZE
    · have hself : d' (blockAt d ip (off / BSIZE)) =
          Patch.write (d (blockAt d ip (off / BSIZE))) ⟨off % BSIZE, (List.range m).map f⟩ :=
        Function.update_self ..
      rw [heq, hself, write_map_range]
      rw [heq] at hpmod
      have hiff : (off % BSIZE ≤ p % BSIZE ∧ p % BSIZE < off % BSIZE + m) ↔
          (off ≤ p ∧ p < off + m) := by omega
      rw [if_congr hiff rfl rfl, show p % BSIZE - off % BSIZE = p - off by omega]
    · have hother : d' (blockAt d ip (p / BSIZE)) = d (blockAt d ip (p / BSIZE)) :=
        Function.update_of_ne (fun hb ↦ heq (h.blockAt_inj hlt hbn hp₀ hb)) ..
      rw [hother, if_neg]
      rintro ⟨hle, hlt⟩
      refine heq (Nat.div_eq_of_lt_le (hle.trans' (div_mul_le off)) ?_)
      rw [Nat.succ_mul]
      omega
  -- the block that is written to was there
  have hextent : ∀ n < MAXFILE, n * BSIZE < off + m → n * BSIZE < e := by
    intro n _ hlt
    have hle := div_mul_le off
    rcases Nat.lt_or_ge (off / BSIZE) n with hgt | hge
    · have hmul := Nat.mul_le_mul_right BSIZE (Nat.succ_le_of_lt hgt)
      rw [Nat.succ_mul] at hmul
      omega
    · have hmul := Nat.mul_le_mul_right BSIZE hge
      omega
  have hend : off + m ≤ MAXFILE * BSIZE := by
    have hmul := Nat.mul_le_mul_right BSIZE (Nat.succ_le_of_lt hbn)
    rw [Nat.succ_mul] at hmul
    omega
  have hthere : ∀ p < max e (off + m), blockAt d ip (p / BSIZE) ≠ 0 := by
    intro p hp
    have hpmax : p < MAXFILE * BSIZE := hp.trans_le (Nat.max_le.2 ⟨h.le, hend⟩)
    refine (h.blockAt_iff _ (div_lt_MAXFILE hpmax)).2 ?_
    have hle := div_mul_le p
    rcases Nat.lt_or_ge p e with hpe | hpe
    · omega
    · exact hextent _ (div_lt_MAXFILE hpmax) (by omega)
  refine ⟨⟨hs, ho, Nat.max_le.2 ⟨h.le, hend⟩, fun n hn ↦ ?_, fun p hp hle hp₀ ↦ ?_⟩,
    hgrows, fun p hp ↦ hbytes p (hp.trans_le (Nat.max_le.2 ⟨h.le, hend⟩)) (hthere p hp)⟩
  · rw [hblock n hn, h.blockAt_iff n hn]
    constructor
    · exact fun hlt ↦ hlt.trans_le (Nat.le_max_left _ _)
    · intro hlt
      rcases Nat.lt_or_ge (n * BSIZE) e with hin | hge
      · exact hin
      · exact hextent n hn (by omega)
  · rw [hblock _ (div_lt_MAXFILE hp)] at hp₀
    rw [hbytes p hp hp₀, if_neg (by omega)]
    exact h.tail p hp (by omega) hp₀

/-! ### `writei` -/

/-- From `off` on `k` bytes have been replaced by those of `src`. -/
structure Written (d : Disk) (ip : Inode) (e off k : ℕ) (src : ℕ → UInt8) (d' : Disk)
    (ip' : Inode) : Prop where
  laid : Laid d' ip' (max e (off + k))
  grows : Grows d ip d' ip'
  bytes : ∀ p < max e (off + k), byteAt d' ip' p =
    if off ≤ p ∧ p < off + k then src (p - off) else byteAt d ip p

/-- Nothing has been written. -/
theorem Written.none (hlaid : Laid d' ip' e) (hgrows : Grows d ip d' ip') (hoff : off ≤ e)
    (hbytes : ∀ p < e, byteAt d' ip' p = byteAt d ip p) (src : ℕ → UInt8) :
    Written d ip e off 0 src d' ip' := by
  refine ⟨?_, hgrows, fun p hp ↦ ?_⟩
  · rwa [Nat.add_zero, Nat.max_eq_left hoff]
  · rw [if_neg (by omega)]
    exact hbytes p (by omega)

/-- One turn and then the rest. -/
theorem Written.trans {d₁ d₂ : Disk} {ip₁ ip₂ : Inode} {k l : ℕ} {src : ℕ → UInt8} (hoff : off ≤ e)
    (h : Written d ip e off k src d₁ ip₁)
    (h' : Written d₁ ip₁ (max e (off + k)) (off + k) l (fun i ↦ src (k + i)) d₂ ip₂) :
    Written d ip e off (k + l) src d₂ ip₂ := by
  have hmax : max (max e (off + k)) (off + k + l) = max e (off + (k + l)) := by omega
  refine ⟨?_, h.grows.trans h'.grows, fun p hp ↦ ?_⟩
  · rw [← hmax]
    exact h'.laid
  · rw [h'.bytes p (by rwa [hmax])]
    split_ifs with hlast hall hall
    · rw [show k + (p - (off + k)) = p - off by omega]
    · omega
    · rw [h.bytes p (by omega), if_pos (by omega)]
    · rw [h.bytes p (by omega), if_neg (by omega)]

/-- One turn of the loop of `writei`. -/
theorem Written.put {d₁ : Disk} {ip₁ : Inode} {m : ℕ} (hgrows : Grows d ip d₁ ip₁)
    (hbytes : ∀ p < e, byteAt d₁ ip₁ p = byteAt d ip p) (hlaid : Laid d₁ ip₁ (max e (off + 1)))
    (hoff : off ≤ e) (hpos : 0 < m) (hm : off % BSIZE + m ≤ BSIZE) (src : ℕ → UInt8) :
    Written d ip e off m src (d₁.copyIn (blockAt d₁ ip₁ (off / BSIZE)) off m src) ip₁ := by
  have hin : off < max e (off + 1) := by omega
  obtain ⟨hlaid', hgrows', hbytes'⟩ := hlaid.put hin hm src
  have hmax : max (max e (off + 1)) (off + m) = max e (off + m) := by omega
  rw [hmax] at hlaid' hbytes'
  refine ⟨hlaid', hgrows.trans hgrows', fun p hp ↦ ?_⟩
  rw [hbytes' p hp]
  split_ifs with hin
  · rfl
  · exact hbytes p (by omega)

/-- **The loop of `writei`.** It ends early only when no block is free, and not before the end of
the file. -/
theorem writeiLoop_spec (src : ℕ → UInt8) (n fuel tot : ℕ) (hfuel : n - tot ≤ fuel)
    (htot : tot ≤ n) (h : Laid d ip e) (hoff : off ≤ e) (hmax : off + (n - tot) ≤ MAXFILE * BSIZE) :
    ∃ k ip' d', writeiLoop src n fuel d ip off tot = .ok (off + k, tot + k, ip', d') ∧
      tot + k ≤ n ∧ (tot + k < n → Full d' ∧ e ≤ off + k) ∧
      Written d ip e off k (fun i ↦ src (tot + i)) d' ip' := by
  induction fuel generalizing d ip e off tot with
  | zero =>
    exact ⟨0, ip, d, rfl, htot, fun hlt ↦ by omega, .none h (.refl d ip) hoff (fun _ _ ↦ rfl) _⟩
  | succ fuel ih =>
    rw [writeiLoop]
    by_cases hlt : tot < n
    · rw [if_pos hlt]
      obtain ⟨addr, ip₁, d₁, hbmap, hgrows, hbytes,
        ⟨rfl, hlaid, hfull, hend⟩ | ⟨hne, rfl, hlaid⟩⟩ := bmap_spec h hoff (by omega)
      · refine ⟨0, ip₁, d₁, ?_, htot, fun _ ↦ ⟨hfull, hend.ge⟩, .none hlaid hgrows hoff hbytes _⟩
        rw [hbmap]
        rfl
      · have hmod : off % BSIZE < BSIZE := Nat.mod_lt _ (by decide)
        have hpos : 0 < min (n - tot) (BSIZE - off % BSIZE) := by omega
        generalize hm : min (n - tot) (BSIZE - off % BSIZE) = m at hpos
        have hput := Written.put hgrows hbytes hlaid hoff hpos (m := m) (by omega)
          fun i ↦ src (tot + i)
        obtain ⟨k, ip₂, d₂, hloop, hle, hfull, hwritten⟩ :=
          ih (tot + m) (by omega) (by omega) hput.laid (Nat.le_max_right _ _) (by omega)
        refine ⟨m + k, ip₂, d₂, ?_, by omega, fun hk ↦ ?_, hput.trans hoff ?_⟩
        · rw [hbmap]
          show (if blockAt d₁ ip₁ (off / BSIZE) = 0 then _ else _) = _
          rw [if_neg hne]
          rw [hloop, Nat.add_assoc, Nat.add_assoc]
        · obtain ⟨hfull, hend⟩ := hfull (by omega)
          exact ⟨hfull, by omega⟩
        · simpa only [Nat.add_assoc] using hwritten
    · rw [if_neg hlt]
      exact ⟨0, ip, d, rfl, htot, fun hlt' ↦ absurd hlt' hlt,
        .none h (.refl d ip) hoff (fun _ _ ↦ rfl) _⟩

/-! ### `readi` -/

/-- Within a block the bytes of a file are those of the block. -/
theorem byteAt_add {i : ℕ} (hi : off % BSIZE + i < BSIZE) :
    byteAt d ip (off + i) = d (blockAt d ip (off / BSIZE)) (off % BSIZE + i) := by
  have hoff := Nat.div_add_mod' off BSIZE
  have hsum : off + i = BSIZE * (off / BSIZE) + (off % BSIZE + i) := by
    rw [Nat.mul_comm]
    omega
  rw [byteAt, hsum, Nat.mul_add_div (by decide), Nat.div_eq_of_lt hi, Nat.mul_add_mod,
    Nat.mod_eq_of_lt hi, Nat.add_zero]

/-- **The loop of `readi`.** -/
theorem readiLoop_spec (n fuel tot : ℕ) (hfuel : n - tot ≤ fuel) (h : Laid d ip e)
    (hoff : off + (n - tot) ≤ e) :
    readiLoop n fuel d ip off tot =
      .ok ((List.range (n - tot)).map fun i ↦ byteAt d ip (off + i), ip, d) := by
  induction fuel generalizing off tot with
  | zero =>
    rw [Nat.le_zero.1 hfuel]
    rfl
  | succ fuel ih =>
    rw [readiLoop]
    by_cases hlt : tot < n
    · have hthere : off < e := by omega
      have hne := h.blockAt_ne_zero hthere
      have hmod : off % BSIZE < BSIZE := Nat.mod_lt _ (by decide)
      rw [if_pos hlt, bmap_old (div_lt_MAXFILE (hthere.trans_le h.le)) hne]
      show (if blockAt d ip (off / BSIZE) = 0 then _ else _) = _
      rw [if_neg hne]
      simp only
      generalize hm : min (n - tot) (BSIZE - off % BSIZE) = m
      have hrest : n - tot = m + (n - (tot + m)) := by omega
      have hfirst : ((List.range m).map fun i ↦
          d (blockAt d ip (off / BSIZE)) (off % BSIZE + i)) =
          (List.range m).map fun i ↦ byteAt d ip (off + i) := by
        refine List.map_congr_left fun i hi ↦ (byteAt_add ?_).symm
        have hi := List.mem_range.1 hi
        omega
      rw [ih _ (by omega) (by omega), hfirst, hrest, List.range_add, List.map_append, List.map_map]
      refine congrArg (fun l ↦ Except.ok (_ ++ l, ip, d)) (List.map_congr_left fun i _ ↦ ?_)
      rw [Function.comp_apply, Nat.add_assoc]
    · rw [if_neg hlt, Nat.sub_eq_zero_of_le (Nat.le_of_not_lt hlt)]
      rfl

theorem length_contents : (contents d ip).length = ip.size := by
  rw [contents, List.length_map, List.length_range]

theorem getElem_contents {i : ℕ} (hi : i < (contents d ip).length) :
    (contents d ip)[i] = byteAt d ip i := by
  simp only [contents, List.getElem_map, List.getElem_range]

/-- A part of the contents. -/
theorem slice_contents {n : ℕ} (hn : off + n ≤ ip.size) :
    (List.range n).map (fun i ↦ byteAt d ip (off + i)) = ((contents d ip).drop off).take n := by
  refine List.ext_getElem ?_ fun i hi hi' ↦ ?_
  · rw [List.length_map, List.length_range, List.length_take, List.length_drop, length_contents]
    omega
  · rw [List.getElem_map, List.getElem_range, List.getElem_take, List.getElem_drop,
      getElem_contents]

theorem readiLoop_slice (h : Laid d ip ip.size) {n : ℕ} (hn : off + n ≤ ip.size) :
    readiLoop n n d ip off 0 = .ok (((contents d ip).drop off).take n, ip, d) := by
  have hloop := readiLoop_spec n n 0 (Nat.sub_le _ _) h (by omega)
  rw [hloop, Nat.sub_zero, slice_contents hn]

theorem MAXFILE_mul_lt : MAXFILE * BSIZE < 2 ^ 32 := by decide

/-- **What `readi` returns**: the bytes from `off` on, as far as they are there. -/
theorem readi_spec (h : Laid d ip ip.size) {n : ℕ} (hoff : off ≤ ip.size) (hn : off + n < 2 ^ 32) :
    readi d ip off n = .ok (some (((contents d ip).drop off).take n), ip, d) := by
  have hmod : (off + n) % 2 ^ 32 = off + n := Nat.mod_eq_of_lt hn
  rw [readi, hmod, if_neg (by omega)]
  split_ifs with hend
  · have htake : ∀ k, ip.size - off ≤ k →
        ((contents d ip).drop off).take k = (contents d ip).drop off := fun k hk ↦
      List.take_of_length_le (by rw [List.length_drop, length_contents]; exact hk)
    simp only
    rw [readiLoop_slice h (by omega), htake n (by omega), htake _ le_rfl]
    rfl
  · simp only
    rw [readiLoop_slice h (by omega)]
    rfl

end FileSys
