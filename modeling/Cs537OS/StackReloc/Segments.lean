import Cs537OS.Foundation.TotalCorrectness
import Cs537OS.StackReloc.Image

/-!
# Segments and where they are written

When `loaduvm` goes well. The checks of `exec` say nothing about the address of a segment but that
its end, which wraps at 2 ^ 32, is below `USERTOP`. So `loaduvm` may be called for any address, and
it does what the file lets it do: it goes from page to page as long as the file has the bytes, and a
page that it reads any byte for is written at once, at whatever address the entry has.

`loaduvm_iff` gives the exact condition, page by page (`Lands`), for an image as `exec` builds it.
-/

open Xv6 TotalCorrectness

namespace StackReloc.Elf

/-- Every page that is written belongs to the new image. -/
def Own (ws : List Write) : Prop := ∀ w ∈ ws, w.page ∈ w.image

theorem own_nil : Own [] := fun _ hw ↦ absurd hw List.not_mem_nil

theorem own_append {ws ws' : List Write} : Own (ws ++ ws') ↔ Own ws ∧ Own ws' :=
  List.forall_mem_append

/-- The page at address `a` is one of those of an image of size `sz`: a page of user memory below
the size, or an address above user memory at which one of these pages happens to be. -/
def InImage (free : List ℕ) (sz a : ℕ) : Prop :=
  if a < USERTOP then 2 * PGSIZE ≤ a ∧ a < sz else a ∈ free.take (pagesOf sz)

instance (free : List ℕ) (sz a : ℕ) : Decidable (InImage free sz a) :=
  inferInstanceAs (Decidable (ite _ _ _))

/-- What page `i` of a segment needs, which is at `addr` in memory and at `offset` in the file: if
the file does not end before it, a page table; and if the file has a byte of it, a page of the image
there. -/
def Lands (f : File) (free : List ℕ) (sz addr offset i : ℕ) : Prop :=
  (i = 0 ∨ offset + i ≤ f.size → PDX (uint (addr + i)) ∈ kernelTables) ∧
    (offset + i < f.size → InImage free sz (uint (addr + i)))

instance (f : File) (free : List ℕ) (sz addr offset i : ℕ) :
    Decidable (Lands f free sz addr offset i) :=
  inferInstanceAs (Decidable (_ ∧ _))

variable {t : Task} {f : File} {free : List ℕ} {sz addr offset filesz a i : ℕ}

theorem Frame.ne_zero {pa : ℕ} (h : Frame pa) : pa ≠ 0 := by
  have hlo : 0x100000 ≤ pa := h.2.1
  omega

theorem physical_of_frame {pa : ℕ} (h : Frame pa) : physical t pa = some pa := by
  obtain ⟨hmod, hlo, hhi⟩ := h
  have htable : PDX pa ∈ kernelTables := by
    have hlt : PDX pa < 4 := by
      rw [PHYSTOP] at hhi
      rw [PDX]
      omega
    generalize PDX pa = n at hlt
    revert n
    decide
  rw [physical, if_neg (by unfold USERTOP; omega), if_pos htable]
  exact congrArg some (Nat.div_mul_cancel (Nat.dvd_of_mod_eq_zero hmod))

/-- A page that is read to in an image: the write is within the image or it is not, or there is
nothing to write to at all. -/
theorem store_iff (hfree : ∀ pa ∈ free, Frame pa) (hnull : t.pgdir.user 0 = none)
    (hsz : sz ≤ USERTOP) (hk : pagesOf sz ≤ free.length) (ha : a % PGSIZE = 0)
    (htable : PDX a ∈ kernelTables) :
    ∃ pa, walkpgdir (image free (pagesOf sz)) a = some pa ∧ ∀ n : ℤ,
      Yields (store t (image free (pagesOf sz)) pa n) Own ↔ (0 < n → InImage free sz a) := by
  have hpages : pagesOf sz + 2 ≤ USERTOP / PGSIZE := by
    rw [USERTOP] at hsz
    rw [pagesOf, USERTOP, PGSIZE]
    omega
  have hdiv : a / PGSIZE * PGSIZE = a := Nat.div_mul_cancel (Nat.dvd_of_mod_eq_zero ha)
  -- what a write to a page `q` of the image comes to
  have hwrite : ∀ {n : ℤ} {pa q : ℕ}, physical t pa = some q →
      (Yields (store t (image free (pagesOf sz)) pa n) Own ↔
        (0 < n → q ∈ free.take (pagesOf sz))) := by
    intro n pa q hq
    rw [store, yields_ite, hq]
    split_ifs with hn
    · exact iff_of_true (yields_ok.2 own_nil) fun h ↦ absurd h (Int.not_lt.2 hn)
    · rw [yields_ok, Own, List.forall_mem_singleton, mem_userPages_image hpages]
      exact ⟨fun h _ ↦ h, fun h ↦ h (Int.not_le.1 hn)⟩
  rw [walkpgdir, if_neg (not_not_intro htable), InImage]
  split_ifs with htop
  · -- user memory: the entry is present exactly below the size
    have hmapped : ((image free (pagesOf sz)).pte (a / PGSIZE)).isSome ↔
        2 * PGSIZE ≤ a ∧ a < sz := by
      rw [image_pte_isSome_iff hk]
      rw [pagesOf]
      unfold PGSIZE at *
      omega
    refine ⟨_, rfl, fun n ↦ ?_⟩
    rcases hpte : (image free (pagesOf sz)).pte (a / PGSIZE) with - | pa
    · rw [hpte] at hmapped
      have hphys : physical t 0 = none := (if_pos (by decide)).trans hnull
      rw [Option.getD_none, store, yields_ite, hphys]
      split_ifs with hn
      · exact iff_of_true (yields_ok.2 own_nil) fun h ↦ absurd h (Int.not_lt.2 hn)
      · rw [yields_error]
        exact iff_of_false id fun h ↦ absurd (hmapped.2 (h (Int.not_le.1 hn))) Bool.false_ne_true
    · rw [hpte] at hmapped
      have hmem : pa ∈ free.take (pagesOf sz) := mem_of_image_pte hpte
      rw [Option.getD_some, hwrite (physical_of_frame (hfree _ (List.mem_of_mem_take hmem)))]
      exact iff_of_true (fun _ ↦ hmem) fun _ ↦ hmapped.1 rfl
  · refine ⟨_, rfl, fun n ↦ ?_⟩
    rw [hdiv, hwrite]
    rw [physical, if_neg htop, if_pos htable, hdiv]

/-! ### The loop of `loaduvm` -/

theorem loadPages_cons {m : Vm} {pa : ℕ} {is : List ℕ}
    (hpa : walkpgdir m (uint ((addr : ℤ) + i)) = some pa) :
    loadPages t f m addr offset filesz (i :: is) =
      store t m pa (f.readi (uint ((offset : ℤ) + i)) (min (filesz - i) PGSIZE)) >>= fun w ↦
        if f.readi (uint ((offset : ℤ) + i)) (min (filesz - i) PGSIZE) ≠
            (min (filesz - i) PGSIZE : ℕ) then
          .ok (-1, w)
        else
          loadPages t f m addr offset filesz is >>= fun r ↦ .ok (r.1, w ++ r.2) := by
  have hmin : (if filesz - i < PGSIZE then filesz - i else PGSIZE) = min (filesz - i) PGSIZE := by
    rw [Nat.min_def]
    split_ifs <;> omega
  rw [loadPages, hpa]
  simp only [hmin]

/-- After a page that the file ends in, no page has anything to land. -/
theorem lands_of_lt (h : f.size < offset + i) (hi : i ≠ 0) : Lands f free sz addr offset i :=
  ⟨fun hr ↦ absurd hr (by omega), fun hr ↦ absurd hr (by omega)⟩

/-- The pages behind one in which the file ends. -/
theorem lands_of_past (h : f.size < offset + i + min (filesz - i) PGSIZE) :
    ∀ j ∈ Vm.pages (i + PGSIZE) filesz, Lands f free sz addr offset j := by
  intro j hj
  obtain ⟨l, rfl, hlt⟩ := Vm.mem_pages.1 hj
  refine lands_of_lt ?_ ?_ <;>
  · unfold PGSIZE at *
    omega

/-- A page with a page table, which the loop comes to, lands when the read for it is stored well. -/
theorem lands_iff_store (hfree : ∀ pa ∈ free, Frame pa) (hnull : t.pgdir.user 0 = none)
    (hsz : sz ≤ USERTOP) (hk : pagesOf sz ≤ free.length) (haddr : addr % PGSIZE = 0)
    (hi : i % PGSIZE = 0) (hlt : i < filesz) (htable : PDX (uint ((addr : ℤ) + i)) ∈ kernelTables) :
    ∃ pa, walkpgdir (image free (pagesOf sz)) (uint ((addr : ℤ) + i)) = some pa ∧
      (Lands f free sz addr offset i ↔ Yields (store t (image free (pagesOf sz)) pa
        (f.readi (offset + i) (min (filesz - i) PGSIZE : ℕ))) Own) := by
  have hmod : uint ((addr : ℤ) + i) % PGSIZE = 0 := by
    rw [PGSIZE] at haddr hi ⊢
    rw [uint]
    omega
  have hn : min (filesz - i) PGSIZE < 2 ^ 31 ∧ min (filesz - i) PGSIZE ≠ 0 := by
    rw [PGSIZE]
    omega
  obtain ⟨pa, hpa, hstore⟩ := store_iff hfree hnull hsz hk hmod htable
  refine ⟨pa, hpa, ?_⟩
  rw [hstore, File.readi_pos_iff hn.1 hn.2]
  exact and_iff_right fun _ ↦ htable

/-- The loop goes well from page `i` on when every page lands, and it fails to read when the file
ends before the segment does. -/
theorem loadPages_iff (hfree : ∀ pa ∈ free, Frame pa) (hnull : t.pgdir.user 0 = none)
    (hsz : sz ≤ USERTOP) (hk : pagesOf sz ≤ free.length) (haddr : addr % PGSIZE = 0)
    (hoff : offset < 2 ^ 32) (hi : i % PGSIZE = 0)
    (hreach : i = 0 ∨ offset + i ≤ f.size ∨ filesz ≤ i) (Q : ℤ → Prop) :
    (Yields (loadPages t f (image free (pagesOf sz)) addr offset filesz (Vm.pages i filesz))
        fun r ↦ Own r.2 ∧ Q r.1) ↔
      (∀ j ∈ Vm.pages i filesz, Lands f free sz addr offset j) ∧
        Q (if filesz ≤ i ∨ offset + filesz ≤ f.size then 0 else -1) := by
  have hsize : f.size ≤ 71680 := f.size_le
  -- the induction is on the number of pages that are left
  obtain ⟨c, hc⟩ : ∃ c, filesz ≤ i + c * PGSIZE := ⟨filesz, by unfold PGSIZE; omega⟩
  induction c generalizing i with
  | zero =>
    have hend : filesz ≤ i := by omega
    rw [Vm.pages_of_le hend, if_pos (.inl hend), loadPages, yields_ok]
    exact and_congr_left' (iff_of_true own_nil fun j hj ↦ absurd hj List.not_mem_nil)
  | succ c ih =>
    rcases Nat.lt_or_ge i filesz with hlt | hend
    swap
    · rw [Vm.pages_of_le hend, if_pos (.inl hend), loadPages, yields_ok]
      exact and_congr_left' (iff_of_true own_nil fun j hj ↦ absurd hj List.not_mem_nil)
    have hreach' : i = 0 ∨ offset + i ≤ f.size := by omega
    have huint : uint ((offset : ℤ) + i) = offset + i := uint_add (by omega)
    rw [Vm.pages_of_lt hlt, List.forall_mem_cons]
    rcases em (PDX (uint ((addr : ℤ) + i)) ∈ kernelTables) with htable | htable
    swap
    · rw [loadPages, walkpgdir, if_pos htable, yields_error]
      exact iff_of_false id fun h ↦ htable (h.1.1.1 hreach')
    obtain ⟨pa, hpa, hlands⟩ := lands_iff_store (f := f) hfree hnull hsz hk haddr hi hlt htable
    have hn : min (filesz - i) PGSIZE < 2 ^ 31 := (Nat.min_le_right _ _).trans_lt (by decide)
    rw [loadPages_cons hpa, yields_bind, huint, hlands]
    rcases Nat.lt_or_ge f.size (offset + i + min (filesz - i) PGSIZE) with hpast | hfull
    · -- the file ends in this page
      have hpos : 0 < min (filesz - i) PGSIZE := by
        rw [PGSIZE]
        omega
      rw [if_neg (by omega), and_iff_left (lands_of_past hpast), and_comm, ← yields_and_left]
      refine yields_congr fun w _ ↦ ?_
      rw [if_pos fun h ↦ absurd ((File.readi_eq_iff hn).1 h) (Nat.not_le.2 hpast), yields_ok,
        and_comm]
    · have hiff : (filesz ≤ i ∨ offset + filesz ≤ f.size) ↔
          filesz ≤ i + PGSIZE ∨ offset + filesz ≤ f.size := by omega
      have hnext : (i + PGSIZE) % PGSIZE = 0 := by
        rw [Nat.add_mod_right, hi]
      have hleft : filesz ≤ i + PGSIZE + c * PGSIZE := by
        rw [Nat.succ_mul] at hc
        omega
      have hreach₁ : i + PGSIZE = 0 ∨ offset + (i + PGSIZE) ≤ f.size ∨ filesz ≤ i + PGSIZE := by
        omega
      have hrec := (ih hnext hreach₁ hleft).symm
      rw [if_congr hiff rfl rfl, and_assoc, hrec, and_comm, ← yields_and_left]
      refine yields_congr fun w _ ↦ ?_
      rw [if_neg (not_not_intro ((File.readi_eq_iff hn).2 hfull)), yields_bind, and_comm,
        ← yields_and_left]
      refine yields_congr fun r _ ↦ ?_
      rw [yields_ok, own_append, and_assoc]

/-- The data of a segment that `loaduvm` is called for can be read in full. -/
def Readable (f : File) (ph : Proghdr) : Prop :=
  ph.filesz = 0 ∨ ph.offset + ph.filesz ≤ f.size

/-- A segment is at a page boundary, and all of its pages land in an image of size `sz`. -/
def SegmentOk (f : File) (free : List ℕ) (sz : ℕ) (ph : Proghdr) : Prop :=
  ph.va % PGSIZE = 0 ∧ ∀ i ∈ Vm.pages 0 ph.filesz, Lands f free sz ph.va ph.offset i

instance (f : File) (ph : Proghdr) : Decidable (Readable f ph) :=
  inferInstanceAs (Decidable (_ ∨ _))

instance (f : File) (free : List ℕ) (sz : ℕ) (ph : Proghdr) :
    Decidable (SegmentOk f free sz ph) :=
  inferInstanceAs (Decidable (_ ∧ _))

/-- **`loaduvm`** neither panics nor writes to a page that is not of the image exactly when the
segment is good; it returns 0 when the segment is readable and -1 when it is not. -/
theorem loaduvm_iff {ph : Proghdr} (hfree : ∀ pa ∈ free, Frame pa)
    (hnull : t.pgdir.user 0 = none) (hsz : sz ≤ USERTOP) (hk : pagesOf sz ≤ free.length)
    (hoff : ph.offset < 2 ^ 32) (Q : ℤ → Prop) :
    (Yields (loaduvm t (image free (pagesOf sz)) ph.va f ph.offset ph.filesz)
        fun r ↦ Own r.2 ∧ Q r.1) ↔
      SegmentOk f free sz ph ∧ Q (if Readable f ph then 0 else -1) := by
  rw [loaduvm, yields_ite, yields_error, SegmentOk]
  split_ifs with haddr hread hread
  · exact iff_of_false id fun h ↦ haddr h.1.1
  · exact iff_of_false id fun h ↦ haddr h.1.1
  · rw [loadPages_iff hfree hnull hsz hk (not_not.1 haddr) hoff (Nat.zero_mod _) (.inl rfl),
      if_pos (hread.imp_left Nat.le_of_eq), and_iff_right (not_not.1 haddr)]
  · rw [loadPages_iff hfree hnull hsz hk (not_not.1 haddr) hoff (Nat.zero_mod _) (.inl rfl),
      if_neg fun h ↦ hread (h.imp_left Nat.le_zero.1), and_iff_right (not_not.1 haddr)]

end StackReloc.Elf
