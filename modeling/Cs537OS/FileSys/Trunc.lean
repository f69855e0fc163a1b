import Cs537OS.FileSys.Update

/-!
# Discarding a file

`itrunc` frees the blocks of a file one by one: the direct ones, those of the indirect block, and
the indirect block itself, which is read while the blocks it names are freed. The blocks of a file
are in use and differ, so every call of `bfree` finds its bit set.

`Freed d bs d'` is what the calls for the blocks `bs` have done, where a 0 in the list stands for no
block.

* `freed_bfree`, `Freed.trans` — one call, and one after the other;
* `truncAddr_foldlM`, `truncEntry_foldlM` — the loops;
* `itrunc_spec` — the file is empty, its blocks are free and zero, and nothing else has changed.
-/

namespace FileSys

variable {d d' d'' : Disk} {ip : Inode} {b c e i : ℕ} {bs cs : List ℕ}

/-- The blocks `bs` have been freed, and nothing else has changed. -/
structure Freed (d : Disk) (bs : List ℕ) (d' : Disk) : Prop where
  readsb_eq : readsb d' = readsb d
  table : ∀ c < (readsb d).ninodes / IPB + 3, d' c = d c
  free : ∀ c ∈ bs, c ≠ 0 → marked d' c = false ∧ ∀ o, d' c o = 0
  marks : ∀ c < (readsb d).size, (c ≠ 0 → c ∉ bs) → marked d' c = marked d c
  kept : ∀ c, (readsb d).dataStart ≤ c → c ∉ bs → d' c = d c

/-- The blocks are in use and differ. -/
structure Distinct (d : Disk) (bs : List ℕ) : Prop where
  inUse : ∀ b ∈ bs, b ≠ 0 → InUse d b
  pairwise : bs.Pairwise fun b c ↦ b ≠ 0 → b ≠ c

/-- What is done for one block. -/
theorem freed_bfree (h : b ≠ 0 → InUse d b) :
    ∃ d', (if b = 0 then .ok d else bfree d b) = .ok d' ∧ Freed d [b] d' := by
  by_cases hb : b = 0
  · refine ⟨d, if_pos hb, rfl, fun _ _ ↦ rfl, fun c hc hne ↦ ?_, fun _ _ _ ↦ rfl,
      fun _ _ _ ↦ rfl⟩
    exact absurd ((List.mem_singleton.1 hc).trans hb) hne
  · have hin := h hb
    have hstart := table_le_dataStart (readsb d)
    have hle := hin.dataStart_le
    have hone := hin.ne_one
    obtain ⟨d', hok, hfreed⟩ := bfree_ok hone (hin.ne_BBLOCK hin.lt_size.le) hin.marked
    have hsb : readsb (bzero d b) = readsb d := readsb_bwrite hone
    have hother : ∀ c, c ≠ b → bzero d b c = d c := fun c hc ↦ Function.update_of_ne hc ..
    have hdata : ∀ c, (readsb d).dataStart ≤ c → d' c = bzero d b c := fun c hc ↦ by
      refine hfreed.block c ?_
      rw [hsb]
      exact ((BBLOCK_lt_dataStart hin.lt_size.le).trans_le hc).ne'
    refine ⟨d', by rw [if_neg hb, hok], hfreed.readsb_eq.trans hsb, fun c hc ↦ ?_,
      fun c hc _ ↦ ?_, fun c hlt hc ↦ ?_, fun c hle' hc ↦ ?_⟩
    · rw [hfreed.block c (by rw [hsb]; exact ne_BBLOCK_of_lt hc b), hother c (by omega)]
    · rw [List.mem_singleton.1 hc]
      refine ⟨hfreed.self, fun o ↦ ?_⟩
      rw [hdata b hle, bzero, Disk.bwrite, Function.update_self]
    · have hne : c ≠ b := by
        rintro rfl
        exact hc hb (List.mem_singleton_self c)
      rw [hfreed.other c hne]
      exact marked_bwrite hone (hin.ne_BBLOCK hlt.le).symm
    · rw [hdata c hle', hother c fun heq ↦ hc (List.mem_singleton.2 heq)]

namespace Freed

/-- The blocks in use, but for those that have been freed. -/
theorem inUse (h : Freed d bs d') (hc : InUse d c) (hno : c ∉ bs) : InUse d' c := by
  refine ⟨?_, ?_, (h.marks c hc.lt_size fun _ ↦ hno).trans hc.marked⟩
  · rw [h.readsb_eq]
    exact hc.dataStart_le
  · rw [h.readsb_eq]
    exact hc.lt_size

theorem nil (d : Disk) : Freed d [] d :=
  ⟨rfl, fun _ _ ↦ rfl, fun _ hc ↦ absurd hc List.not_mem_nil, fun _ _ _ ↦ rfl, fun _ _ _ ↦ rfl⟩

/-- One list and then another. -/
theorem trans (h : Freed d bs d') (h' : Freed d' cs d'') (hin : ∀ b ∈ bs, b ≠ 0 → InUse d b) :
    Freed d (bs ++ cs) d'' := by
  refine ⟨h'.readsb_eq.trans h.readsb_eq, fun c hc ↦ ?_, fun c hc hne ↦ ?_, fun c hlt hc ↦ ?_,
    fun c hle hc ↦ ?_⟩
  · exact (h'.table c (by rwa [h.readsb_eq])).trans (h.table c hc)
  · by_cases hcs : c ∈ cs
    · exact h'.free c hcs hne
    · -- it was freed before and has been left alone since
      have hbs := (List.mem_append.1 hc).resolve_right hcs
      have hc' := hin c hbs hne
      obtain ⟨hfree, hzero⟩ := h.free c hbs hne
      rw [h'.marks c (by rw [h.readsb_eq]; exact hc'.lt_size) fun _ ↦ hcs,
        h'.kept c (by rw [h.readsb_eq]; exact hc'.dataStart_le) hcs]
      exact ⟨hfree, hzero⟩
  · rw [h'.marks c (by rwa [h.readsb_eq]) fun hne hcs ↦ hc hne (List.mem_append_right bs hcs),
      h.marks c hlt fun hne hbs ↦ hc hne (List.mem_append_left cs hbs)]
  · rw [h'.kept c (by rwa [h.readsb_eq]) fun hcs ↦ hc (List.mem_append_right bs hcs),
      h.kept c hle fun hbs ↦ hc (List.mem_append_left cs hbs)]

/-- The zeros of the list do not count. -/
theorem append_zeros (h : Freed d bs d') (hcs : ∀ c ∈ cs, c = 0) : Freed d (bs ++ cs) d' := by
  refine ⟨h.readsb_eq, h.table, fun c hc hne ↦ ?_, fun c hlt hc ↦ ?_, fun c hle hc ↦ ?_⟩
  · exact h.free c ((List.mem_append.1 hc).resolve_right fun hmem ↦ hne (hcs c hmem)) hne
  · exact h.marks c hlt fun hne hbs ↦ hc hne (List.mem_append_left cs hbs)
  · exact h.kept c hle fun hbs ↦ hc (List.mem_append_left cs hbs)

/-- Blocks that are freed are zero, as free blocks are. -/
theorem sound (h : Freed d bs d') (hs : Sound d) (hin : ∀ b ∈ bs, b ≠ 0 → InUse d b) :
    Sound d' := by
  have hsb := h.readsb_eq
  refine ⟨?_, ?_, ?_, ?_, ?_⟩
  · rw [hsb]
    exact hs.dataStart_le
  · rw [hsb]
    exact hs.size_lt
  · rw [h.table 0 (Nat.succ_pos _)]
    exact hs.boot
  · rw [hsb]
    intro c hc
    rw [h.marks c (hc.trans_le hs.dataStart_le) fun hne hbs ↦
      (hin c hbs hne).dataStart_le.not_gt hc]
    exact hs.metadata c hc
  · rw [hsb]
    intro c hc hfree o ho
    by_cases hbs : c ≠ 0 ∧ c ∈ bs
    · exact (h.free c hbs.2 hbs.1).2 o
    · have hmark := h.marks c hc fun hne hmem ↦ hbs ⟨hne, hmem⟩
      rw [hmark] at hfree
      have hle := hs.dataStart_le_of_free hfree
      have hne : c ≠ 0 := by
        have hpos := four_le_dataStart (readsb d)
        omega
      rw [h.kept c hle fun hmem ↦ hbs ⟨hne, hmem⟩]
      exact hs.clear c hc hfree o ho

end Freed

namespace Distinct

/-- What is left to do after some of the blocks. -/
theorem rest (h : Distinct d (bs ++ cs)) (hf : Freed d bs d') : Distinct d' cs := by
  obtain ⟨-, hcs, hcross⟩ := List.pairwise_append.1 h.pairwise
  refine ⟨fun c hc hne ↦ ?_, hcs⟩
  exact hf.inUse (h.inUse c (List.mem_append_right bs hc) hne) fun hbs ↦ hcross c hbs c hc hne rfl

theorem tail (h : Distinct d (b :: bs)) (hf : Freed d [b] d') : Distinct d' bs :=
  rest (show Distinct d ([b] ++ bs) from h) hf

theorem left (h : Distinct d (bs ++ cs)) : Distinct d bs :=
  ⟨fun b hb ↦ h.inUse b (List.mem_append_left cs hb), (List.pairwise_append.1 h.pairwise).1⟩

end Distinct

/-- The blocks of a file. -/
theorem Owns.distinct (ho : Owns d ip) {l : List ℕ} (hl : l.Nodup) (hlt : ∀ k ∈ l, k < NSLOT) :
    Distinct d (l.map (slot d ip)) := by
  refine ⟨fun b hb hne ↦ ?_, List.pairwise_map.2 ?_⟩
  · obtain ⟨k, hk, rfl⟩ := List.mem_map.1 hb
    exact ho.inUse k (hlt k hk) hne
  · refine hl.imp_of_mem fun hk hm hne hnz heq ↦ hne ?_
    exact ho.inj _ (hlt _ hk) _ (hlt _ hm) hnz heq

/-- The loop over the direct blocks. -/
theorem truncAddr_foldlM (ip : Inode) (l : List ℕ) (hl : l.Nodup)
    (h : Distinct d (l.map ip.addrs)) :
    ∃ ip' d', l.foldlM (fun s i ↦ truncAddr i s.1 s.2) (ip, d) = .ok (ip', d') ∧
      Freed d (l.map ip.addrs) d' ∧
      ip' = { ip with addrs := fun k ↦ if k ∈ l then 0 else ip.addrs k } := by
  induction l generalizing ip d with
  | nil =>
    refine ⟨ip, d, rfl, .nil d, ?_⟩
    simp only [List.not_mem_nil, if_false]
  | cons i l ih =>
    obtain ⟨hi, hl'⟩ := List.nodup_cons.1 hl
    obtain ⟨d₁, hok, hfreed⟩ := freed_bfree (h.inUse (ip.addrs i) List.mem_cons_self)
    have hstep : truncAddr i ip d = .ok (ip.setAddr i 0, d₁) := by
      rw [truncAddr]
      split_ifs at hok ⊢ with hzero
      · rw [setAddr_self hzero, Except.ok.inj hok]
      · rw [hok]
        rfl
    have hmap : l.map (ip.setAddr i 0).addrs = l.map ip.addrs := by
      refine List.map_congr_left fun k hk ↦ ?_
      rw [addrs_setAddr, if_neg]
      rintro rfl
      exact hi hk
    obtain ⟨ip', d', hloop, hrest, hip⟩ :=
      ih (ip.setAddr i 0) hl' (by rw [hmap]; exact h.tail hfreed)
    rw [hmap] at hrest
    refine ⟨ip', d', ?_, ?_, ?_⟩
    · rw [List.foldlM_cons, hstep]
      exact hloop
    · exact hfreed.trans hrest fun b hb ↦ h.inUse b (List.mem_singleton.1 hb ▸ List.mem_cons_self)
    · rw [hip]
      refine congrArg (fun a ↦ { ip with addrs := a }) (funext fun k ↦ ?_)
      rw [addrs_setAddr]
      simp only [List.mem_cons]
      split_ifs <;> simp_all

/-- The loop over the indirect block, which is not among those that are freed. -/
theorem truncEntry_foldlM (addr : ℕ) (l : List ℕ)
    (h : Distinct d (l.map fun j ↦ LittleEndian.value (d addr) (4 * j) 4)) (haddr : InUse d addr)
    (hno : addr ∉ l.map fun j ↦ LittleEndian.value (d addr) (4 * j) 4) :
    ∃ d', l.foldlM (fun d j ↦ truncEntry addr j d) d = .ok d' ∧
      Freed d (l.map fun j ↦ LittleEndian.value (d addr) (4 * j) 4) d' := by
  induction l generalizing d with
  | nil => exact ⟨d, rfl, .nil d⟩
  | cons j l ih =>
    rw [List.map_cons] at h hno
    obtain ⟨hhead, htail⟩ := not_or.1 (List.mem_cons.not.1 hno)
    obtain ⟨d₁, hok, hfreed⟩ := freed_bfree (h.inUse _ List.mem_cons_self)
    have hstay : addr ∉ [LittleEndian.value (d addr) (4 * j) 4] :=
      fun hmem ↦ hhead (List.mem_singleton.1 hmem)
    have hblock : d₁ addr = d addr := hfreed.kept addr haddr.dataStart_le hstay
    obtain ⟨d', hloop, hrest⟩ := ih (d := d₁) (by rw [hblock]; exact h.tail hfreed)
      (hfreed.inUse haddr hstay) (by rwa [hblock])
    rw [hblock] at hrest
    refine ⟨d', ?_, ?_⟩
    · rw [List.foldlM_cons, truncEntry, hok]
      exact hloop
    · exact hfreed.trans hrest fun b hb ↦ h.inUse b (List.mem_singleton.1 hb ▸ List.mem_cons_self)

/-- A file without contents. -/
def Inode.emptied (ip : Inode) : Inode := { ip with size := 0, addrs := fun _ ↦ 0 }

/-- The order in which `itrunc` frees the blocks. -/
def truncOrder : List ℕ :=
  List.range NDIRECT ++ ((List.range NINDIRECT).map (NDIRECT + 1 + ·) ++ [NDIRECT])

theorem mem_truncOrder {k : ℕ} : k ∈ truncOrder ↔ k < NSLOT := by
  rw [truncOrder, List.mem_append, List.mem_append, List.mem_range, List.mem_map,
    List.mem_singleton]
  constructor
  · rintro (hlt | ⟨j, hj, rfl⟩ | rfl)
    · exact hlt.trans (by decide)
    · have hj := List.mem_range.1 hj
      rw [NSLOT, MAXFILE]
      omega
    · decide
  · intro hk
    rcases slot_cases hk with hlt | rfl | ⟨j, hj, rfl⟩
    · exact .inl hlt
    · exact .inr (.inr rfl)
    · exact .inr (.inl ⟨j, List.mem_range.2 hj, rfl⟩)

theorem nodup_truncOrder : truncOrder.Nodup := by
  refine List.nodup_append.2 ⟨List.nodup_range,
    List.nodup_append.2 ⟨?_, List.pairwise_singleton _ _, ?_⟩, ?_⟩
  · exact List.pairwise_map.2 (List.nodup_range.imp fun hne heq ↦ hne (Nat.add_left_cancel heq))
  · intro k hk m hm
    obtain ⟨j, -, rfl⟩ := List.mem_map.1 hk
    rw [List.mem_singleton.1 hm]
    omega
  · intro k hk m hm
    have hk := List.mem_range.1 hk
    rcases List.mem_append.1 hm with hm | hm
    · obtain ⟨j, -, rfl⟩ := List.mem_map.1 hm
      omega
    · rw [List.mem_singleton.1 hm]
      omega

/-- The frees of `itrunc`. -/
theorem itrunc_frees (ho : Owns d ip) (hf : ip.Fits) :
    ∃ d', itrunc d ip = .ok (ip.emptied, iupdate d' ip.emptied) ∧
      Freed d (truncOrder.map (slot d ip)) d' := by
  have hdistinct := ho.distinct nodup_truncOrder fun k hk ↦ mem_truncOrder.1 hk
  have hdirect : (List.range NDIRECT).map (slot d ip) = (List.range NDIRECT).map ip.addrs :=
    List.map_congr_left fun k hk ↦ slot_direct (List.mem_range.1 hk).le
  have hentries : ((List.range NINDIRECT).map (NDIRECT + 1 + ·)).map (slot d ip) =
      (List.range NINDIRECT).map (entry d ip) := by
    rw [List.map_map]
    exact List.map_congr_left fun j _ ↦ slot_entry j
  rw [truncOrder, List.map_append, List.map_append, hdirect, hentries, List.map_singleton,
    slot_direct le_rfl] at hdistinct ⊢
  obtain ⟨ip₁, d₁, hloop, hfreed, hip⟩ := truncAddr_foldlM ip _ List.nodup_range hdistinct.left
  have hind : ip₁.addrs NDIRECT = ip.addrs NDIRECT := by
    rw [hip]
    simp only [List.mem_range, lt_irrefl, if_false]
  have hempty : { ip₁.setAddr NDIRECT 0 with size := 0 } = ip.emptied := by
    have haddrs : (ip₁.setAddr NDIRECT 0).addrs = fun _ ↦ 0 := by
      funext k
      rw [addrs_setAddr, hip]
      simp only [List.mem_range]
      split_ifs with hk hlt
      · rfl
      · rfl
      · exact hf.beyond k (by omega)
    rw [Inode.emptied, ← haddrs, hip]
    rfl
  have hin := fun b hb ↦ hdistinct.inUse b (List.mem_append_left _ hb)
  rw [itrunc, hloop]
  simp only [bind, Except.bind]
  rw [hind]
  by_cases hzero : ip.addrs NDIRECT = 0
  · rw [if_pos hzero]
    rw [← setAddr_self (hind.trans hzero), hempty]
    refine ⟨d₁, rfl, hfreed.append_zeros fun c hc ↦ ?_⟩
    rcases List.mem_append.1 hc with hc | hc
    · obtain ⟨j, -, rfl⟩ := List.mem_map.1 hc
      rw [entry, if_pos hzero]
    · rw [List.mem_singleton.1 hc, hzero]
  · rw [if_neg hzero]
    have haddr : InUse d (ip.addrs NDIRECT) :=
      hdistinct.inUse _ (by simp only [List.mem_append, List.mem_singleton, or_true]) hzero
    obtain ⟨-, hrest, hcross⟩ := List.pairwise_append.1 hdistinct.pairwise
    -- the direct blocks are gone, and the block of the entries is as it was
    have hblock : d₁ (ip.addrs NDIRECT) = d (ip.addrs NDIRECT) := by
      refine hfreed.kept _ haddr.dataStart_le fun hmem ↦ ?_
      exact hcross _ hmem _ (List.mem_append_right _ (List.mem_singleton_self _)) hzero rfl
    have hvalues : (List.range NINDIRECT).map (entry d ip) =
        (List.range NINDIRECT).map
          fun j ↦ LittleEndian.value (d₁ (ip.addrs NDIRECT)) (4 * j) 4 := by
      refine List.map_congr_left fun j _ ↦ ?_
      rw [entry, if_neg hzero, hblock]
    have hdistinct₁ := hdistinct.rest hfreed
    have hno : ip.addrs NDIRECT ∉ (List.range NINDIRECT).map (entry d ip) := fun hmem ↦
      (List.pairwise_append.1 hrest).2.2 _ hmem _ (List.mem_singleton_self _) hzero rfl
    have haddr₁ : InUse d₁ (ip.addrs NDIRECT) := hfreed.inUse haddr fun hmem ↦
      hcross _ hmem _ (List.mem_append_right _ (List.mem_singleton_self _)) hzero rfl
    rw [hvalues] at hdistinct₁ hno ⊢
    obtain ⟨d₂, hloop₂, hfreed₂⟩ := truncEntry_foldlM _ _ hdistinct₁.left haddr₁ hno
    obtain ⟨d₃, hok, hfreed₃⟩ := freed_bfree
      ((hdistinct₁.rest hfreed₂).inUse (ip.addrs NDIRECT) (List.mem_singleton_self _))
    rw [if_neg hzero] at hok
    refine ⟨d₃, ?_, hfreed.trans (hfreed₂.trans hfreed₃ hdistinct₁.left.inUse) hin⟩
    rw [hloop₂]
    simp only [truncAddr, hind, if_neg hzero, hok, bind, Except.bind]
    rw [hempty]

/-- The slots of an empty file. -/
theorem slot_emptied (ip : Inode) (k : ℕ) : slot d ip.emptied k = 0 := by
  have haddr : ip.emptied.addrs NDIRECT = 0 := rfl
  rw [slot, entry, if_pos haddr]
  split_ifs <;> rfl

theorem owns_emptied (ip : Inode) : Owns d ip.emptied :=
  ⟨fun k _ hne ↦ absurd (slot_emptied ip k) hne, fun k _ _ _ hne ↦ absurd (slot_emptied ip k) hne⟩

theorem laid_emptied (ip : Inode) (hs : Sound d) : Laid d ip.emptied 0 := by
  refine ⟨hs, owns_emptied ip, Nat.zero_le _, fun m _ ↦ ?_, fun p _ _ hne ↦ ?_⟩
  · exact iff_of_false (not_not.2 (slot_emptied ip _)) (Nat.not_lt_zero _)
  · exact absurd (slot_emptied ip _) hne

/-- **What `itrunc` does**: the file is empty, its blocks are free and zero, and nothing else has
changed. -/
theorem itrunc_spec (hs : Sound d) (ho : Owns d ip) (hf : ip.Fits)
    (hi : ip.inum < (readsb d).ninodes) :
    ∃ d', itrunc d ip = .ok (ip.emptied, d') ∧ Laid d' ip.emptied 0 ∧
      Frame d ip d' ip.emptied ∧ readInode d' ip.inum = ip.emptied ∧
      ∀ k < NSLOT, slot d ip k ≠ 0 → marked d' (slot d ip k) = false := by
  obtain ⟨d₁, hok, hfreed⟩ := itrunc_frees ho hf
  have hin := (ho.distinct nodup_truncOrder fun k hk ↦ mem_truncOrder.1 hk).inUse
  have hi₁ : ip.emptied.inum < (readsb d₁).ninodes := by
    rw [hfreed.readsb_eq]
    exact hi
  have hfits : ip.emptied.Fits :=
    { hf with
      size := Nat.two_pow_pos 32
      addrs := fun _ ↦ Nat.two_pow_pos 32
      beyond := fun _ _ ↦ rfl }
  have hframe : Frame d ip d₁ ip.emptied := by
    refine ⟨hfreed.readsb_eq, fun j hj _ ↦ ?_, fun c hc hno ↦ ?_,
      fun k _ hne ↦ absurd (slot_emptied ip k) hne⟩
    · exact readInode_congr fun o _ ↦ congrFun (hfreed.table _ (IBLOCK_lt hj)) _
    · have hmem : c ∉ truncOrder.map (slot d ip) := fun hmem ↦ by
        obtain ⟨k, hk, heq⟩ := List.mem_map.1 hmem
        exact hno k (mem_truncOrder.1 hk) heq
      exact ⟨hfreed.inUse hc hmem, hfreed.kept c hc.dataStart_le hmem⟩
  refine ⟨_, hok, laid_emptied ip ((hfreed.sound hs hin).iupdate hi₁),
    hframe.iupdate (owns_emptied ip) rfl rfl hi, readInode_iupdate hfits, fun k hk hne ↦ ?_⟩
  rw [marked_iupdate hi₁]
  exact (hfreed.free _ (List.mem_map.2 ⟨k, mem_truncOrder.2 hk, rfl⟩) hne).1

end FileSys
