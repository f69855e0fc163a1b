import Cs537OS.StackReloc.Loader

/-!
# The image that a program is loaded to

As long as `exec` goes on, the address space that it builds has a simple form: the pages from the
third one on are mapped to the pages that the allocator gave, in their order (`image`). So the
address space is known from the list of free pages and the size alone, `allocuvm` fails exactly when
that list is too short, and `mappages` finds a page taken only when the image reaches the page of
the stack.

Where `allocuvm` fails it gives pages back. It is enough to know then that no entry is null, as such
an address space can be freed.
-/

open Xv6

namespace StackReloc

namespace Vm

theorem pages_of_le {a top : ℕ} (h : top ≤ a) : pages a top = [] := by
  have hcount : (top - a + PGSIZE - 1) / PGSIZE = 0 := by
    rw [PGSIZE]
    omega
  rw [pages, hcount]
  rfl

theorem pages_of_lt {a top : ℕ} (h : a < top) : pages a top = a :: pages (a + PGSIZE) top := by
  have hcount : (top - a + PGSIZE - 1) / PGSIZE =
      (top - (a + PGSIZE) + PGSIZE - 1) / PGSIZE + 1 := by
    rw [PGSIZE]
    omega
  rw [pages, pages, hcount, List.range_succ_eq_map, List.map_cons, List.map_map, Nat.zero_mul,
    Nat.add_zero]
  refine congrArg _ (List.map_congr_left fun i _ ↦ ?_)
  show a + (i + 1) * PGSIZE = a + PGSIZE + i * PGSIZE
  rw [Nat.add_mul, Nat.one_mul, Nat.add_assoc, Nat.add_comm PGSIZE]

/-! ### Address spaces that can be freed -/

/-- No page is mapped to the null address, which `deallocuvm` panics at. -/
def NonNull (m : Vm) : Prop := ∀ n pa, m.pte n = some pa → pa ≠ 0

variable {m : Vm}

theorem NonNull.exists_deallocPage (hm : m.NonNull) (a : ℕ) :
    ∃ m', m.deallocPage a = .ok m' ∧ m'.NonNull := by
  rw [deallocPage]
  rcases hpte : m.pte (a / PGSIZE) with - | pa
  · exact ⟨m, rfl, hm⟩
  · refine ⟨_, if_neg (hm _ _ hpte), fun n pa' hn ↦ ?_⟩
    have hupdate : Function.update m.pte (a / PGSIZE) none n = some pa' := hn
    rcases eq_or_ne n (a / PGSIZE) with rfl | hne
    · rw [Function.update_self] at hupdate
      cases hupdate
    · rw [Function.update_of_ne hne] at hupdate
      exact hm n pa' hupdate

/-- Taking pages from such an address space goes well. -/
theorem NonNull.exists_deallocuvm (hm : m.NonNull) (oldsz newsz : ℕ) :
    ∃ r, m.deallocuvm oldsz newsz = .ok r ∧ r.2.NonNull := by
  rw [deallocuvm]
  split_ifs with hge
  · exact ⟨_, rfl, hm⟩
  · obtain ⟨m', hloop, hm'⟩ := GuardedLoop.exists_foldlM_of_preserves
      (fun m a h ↦ h.exists_deallocPage a) hm (pages (PGROUNDUP newsz) oldsz)
    exact ⟨(newsz, m'), by rw [hloop]; rfl, hm'⟩

end Vm

namespace Elf

/-- The pages of an image of size `sz`: the first two are kept free. -/
def pagesOf (sz : ℕ) : ℕ := (sz + PGSIZE - 1) / PGSIZE - 2

/-- The first `k` of the free pages are mapped from the third user page on. -/
def image (free : List ℕ) (k : ℕ) : Vm where
  pte n := if n < 2 then none else (free.take k)[n - 2]?
  freelist := free.drop k

variable {free : List ℕ} {k n pa sz newsz : ℕ}

theorem lt_pagesOf_iff : k < pagesOf sz ↔ (k + 2) * PGSIZE < sz := by
  rw [pagesOf, PGSIZE]
  omega

theorem pagesOf_mono {a b : ℕ} (h : a ≤ b) : pagesOf a ≤ pagesOf b := by
  unfold pagesOf PGSIZE
  omega

theorem image_pte_eq_some_iff :
    (image free k).pte n = some pa ↔ 2 ≤ n ∧ (free.take k)[n - 2]? = some pa := by
  show (if n < 2 then none else (free.take k)[n - 2]?) = some pa ↔ _
  split_ifs with hn
  · exact ⟨fun h ↦ (by cases h), fun h ↦ absurd hn (Nat.not_lt.2 h.1)⟩
  · exact ⟨fun h ↦ ⟨Nat.le_of_not_lt hn, h⟩, fun h ↦ h.2⟩

theorem mem_of_image_pte (h : (image free k).pte n = some pa) : pa ∈ free.take k :=
  List.mem_of_getElem? (image_pte_eq_some_iff.1 h).2

theorem image_pte_isSome_iff (hk : k ≤ free.length) :
    ((image free k).pte n).isSome ↔ 2 ≤ n ∧ n < k + 2 := by
  rw [Option.isSome_iff_exists]
  constructor
  · rintro ⟨pa, hpa⟩
    obtain ⟨hn, hpa⟩ := image_pte_eq_some_iff.1 hpa
    have hlt : n - 2 < (free.take k).length := (List.getElem?_eq_some_iff.1 hpa).1
    rw [List.length_take] at hlt
    omega
  · rintro ⟨hn, hlt⟩
    have hlen : n - 2 < (free.take k).length := by
      rw [List.length_take]
      omega
    exact ⟨_, image_pte_eq_some_iff.2 ⟨hn, List.getElem?_eq_getElem hlen⟩⟩

/-- The user pages of an image are the free pages it was made of. -/
theorem mem_userPages_image (hk : k + 2 ≤ USERTOP / PGSIZE) :
    pa ∈ userPages (image free k) ↔ pa ∈ free.take k := by
  rw [userPages, List.mem_filterMap]
  constructor
  · rintro ⟨n, -, hn⟩
    exact mem_of_image_pte hn
  · intro h
    obtain ⟨i, hi, hpa⟩ := List.getElem_of_mem h
    have hik : i < k := by
      rw [List.length_take] at hi
      omega
    refine ⟨i + 2, List.mem_range.2 (by omega), image_pte_eq_some_iff.2 ⟨by omega, ?_⟩⟩
    rw [Nat.add_sub_cancel, ← hpa]
    exact List.getElem?_eq_getElem hi

theorem image_nonNull (hfree : ∀ pa ∈ free, pa ≠ 0) (k : ℕ) : (image free k).NonNull :=
  fun _ _ h ↦ hfree _ (List.mem_of_mem_take (mem_of_image_pte h))

/-- A page more: the next of the free pages is mapped above the others. -/
theorem kalloc_image (hk : k < free.length) :
    (image free k).kalloc =
      some (free[k], { image free k with freelist := free.drop (k + 1) }) := by
  have hfree : (image free k).freelist = free[k] :: free.drop (k + 1) :=
    List.drop_eq_getElem_cons hk
  rw [Vm.kalloc, hfree]

theorem kalloc_image_of_le (hk : free.length ≤ k) : (image free k).kalloc = none := by
  have hfree : (image free k).freelist = [] := List.drop_eq_nil_of_le hk
  rw [Vm.kalloc, hfree]

/-- An image with a page more. -/
theorem image_succ_pte (hk : k < free.length) :
    (image free (k + 1)).pte = Function.update (image free k).pte (k + 2) (some free[k]) := by
  refine funext fun n ↦ Option.ext fun pa ↦ ?_
  rw [image_pte_eq_some_iff, List.getElem?_take]
  rcases eq_or_ne n (k + 2) with rfl | hne
  · rw [Function.update_self, Nat.add_sub_cancel, if_pos (Nat.lt_succ_self k),
      List.getElem?_eq_getElem hk]
    exact and_iff_right (Nat.le_add_left 2 k)
  · rw [Function.update_of_ne hne, image_pte_eq_some_iff, List.getElem?_take]
    have hiff : 2 ≤ n → (n - 2 < k + 1 ↔ n - 2 < k) := by omega
    exact and_congr_right fun hn ↦ by rw [if_congr (hiff hn) rfl rfl]

theorem mappages_image (hk : k < free.length) :
    Vm.mappages { image free k with freelist := free.drop (k + 1) } ((k + 2) * PGSIZE) free[k] =
      .ok (image free (k + 1)) := by
  have hpage : (k + 2) * PGSIZE / PGSIZE = k + 2 := Nat.mul_div_cancel _ (by decide)
  have hnone : ¬ ((image free k).pte (k + 2)).isSome :=
    fun h ↦ absurd ((image_pte_isSome_iff hk.le).1 h).2 (lt_irrefl _)
  rw [Vm.mappages, hpage, if_neg hnone, ← image_succ_pte hk]
  rfl

/-! ### Growing an image -/

/-- The loop of `allocuvm` on an image: it goes through when there are pages enough. -/
theorem allocPages_image (hfree : ∀ pa ∈ free, pa ≠ 0) {oldsz : ℕ} (hk : k ≤ free.length)
    (hnew : k ≤ pagesOf newsz) :
    (pagesOf newsz ≤ free.length →
      Vm.allocPages oldsz newsz (Vm.pages ((k + 2) * PGSIZE) newsz) (image free k) =
        .ok (newsz, image free (pagesOf newsz))) ∧
      (free.length < pagesOf newsz → ∃ m,
        Vm.allocPages oldsz newsz (Vm.pages ((k + 2) * PGSIZE) newsz) (image free k) = .ok (0, m) ∧
          m.NonNull) := by
  -- the induction is on the number of pages that are still to be mapped
  obtain ⟨d, hd⟩ := Nat.exists_eq_add_of_le hnew
  induction d generalizing k with
  | zero =>
    have htop : newsz ≤ (k + 2) * PGSIZE := Nat.le_of_not_lt fun h ↦ by
      have hlt := lt_pagesOf_iff.2 h
      omega
    rw [Vm.pages_of_le htop, hd, Nat.add_zero]
    exact ⟨fun _ ↦ rfl, fun h ↦ absurd hk (Nat.not_le.2 h)⟩
  | succ d ih =>
    have htop : (k + 2) * PGSIZE < newsz := lt_pagesOf_iff.1 (by omega)
    have hnext : (k + 2) * PGSIZE + PGSIZE = (k + 1 + 2) * PGSIZE := (Nat.succ_mul (k + 2) _).symm
    rw [Vm.pages_of_lt htop, Vm.allocPages, hnext]
    rcases Nat.lt_or_ge k free.length with hlt | hge
    · rw [kalloc_image hlt]
      simp only [mappages_image hlt]
      exact ih hlt (by omega) (by omega)
    · rw [kalloc_image_of_le hge]
      refine ⟨fun h ↦ by omega, fun _ ↦ ?_⟩
      obtain ⟨r, hr, hm⟩ := (image_nonNull hfree k).exists_deallocuvm newsz oldsz
      exact ⟨r.2, by simp only [hr]; rfl, hm⟩

theorem PGROUNDUP_eq_pagesOf (hlo : 2 * PGSIZE ≤ sz) (hhi : sz ≤ USERTOP) :
    PGROUNDUP sz = (pagesOf sz + 2) * PGSIZE := by
  rw [Vm.PGROUNDUP_spec hhi]
  rw [pagesOf, PGSIZE]
  rw [PGSIZE] at hlo
  omega

/-- There is room and memory for an image of size `sz` when it is to grow to `newsz`. -/
def Grows (free : List ℕ) (sz newsz : ℕ) : Prop :=
  newsz ≤ USERTOP ∧ pagesOf (max sz newsz) ≤ free.length

instance : Decidable (Grows free sz newsz) := inferInstanceAs (Decidable (_ ∧ _))

/-- The image grows to the larger of the two sizes. -/
theorem allocuvm_image (hfree : ∀ pa ∈ free, pa ≠ 0) (hlo : 2 * PGSIZE ≤ sz) (hhi : sz ≤ USERTOP)
    (hgrows : Grows free sz newsz) :
    (image free (pagesOf sz)).allocuvm sz newsz =
      .ok (max sz newsz, image free (pagesOf (max sz newsz))) := by
  obtain ⟨htop, hlen⟩ := hgrows
  rw [Vm.allocuvm, if_neg (Nat.not_lt.2 htop)]
  split_ifs with hlt
  · rw [Nat.max_eq_left hlt.le]
  · have hle : sz ≤ newsz := Nat.le_of_not_lt hlt
    rw [Nat.max_eq_right hle] at hlen ⊢
    rw [PGROUNDUP_eq_pagesOf hlo hhi]
    exact (allocPages_image hfree ((pagesOf_mono hle).trans hlen) (pagesOf_mono hle)).1 hlen

theorem allocuvm_image_of_not_grows (hfree : ∀ pa ∈ free, pa ≠ 0) (hlo : 2 * PGSIZE ≤ sz)
    (hhi : sz ≤ USERTOP) (hk : pagesOf sz ≤ free.length) (hgrows : ¬ Grows free sz newsz) :
    ∃ m, (image free (pagesOf sz)).allocuvm sz newsz = .ok (0, m) ∧ m.NonNull := by
  rw [Vm.allocuvm]
  split_ifs with htop hlt
  · exact ⟨_, rfl, image_nonNull hfree _⟩
  · exact absurd ⟨Nat.le_of_not_lt htop, by rwa [Nat.max_eq_left hlt.le]⟩ hgrows
  · have hle : sz ≤ newsz := Nat.le_of_not_lt hlt
    have hlen : free.length < pagesOf newsz := by
      refine Nat.lt_of_not_le fun h ↦ hgrows ⟨Nat.le_of_not_lt htop, ?_⟩
      rwa [Nat.max_eq_right hle]
    rw [PGROUNDUP_eq_pagesOf hlo hhi]
    exact (allocPages_image hfree hk (pagesOf_mono hle)).2 hlen

/-! ### The page of the stack -/

/-- An image with a stack page. -/
def withStack (free : List ℕ) (k pa : ℕ) : Vm where
  pte := Function.update (image free k).pte ((USERTOP - PGSIZE) / PGSIZE) (some pa)
  freelist := free.drop (k + 1)

theorem withStack_nonNull (hfree : ∀ pa ∈ free, pa ≠ 0) (hpa : pa ≠ 0) :
    (withStack free k pa).NonNull := by
  intro n pa' hn
  have hupdate : Function.update (image free k).pte ((USERTOP - PGSIZE) / PGSIZE) (some pa) n =
      some pa' := hn
  rcases eq_or_ne n ((USERTOP - PGSIZE) / PGSIZE) with rfl | hne
  · rw [Function.update_self] at hupdate
    exact Option.some.inj hupdate ▸ hpa
  · rw [Function.update_of_ne hne] at hupdate
    exact image_nonNull hfree k n pa' hupdate

theorem pages_stack : Vm.pages (PGROUNDUP (USERTOP - PGSIZE)) USERTOP = [USERTOP - PGSIZE] := by
  decide

/-- There is a page left for the stack, and the image ends below it. -/
def StackFits (free : List ℕ) (sz : ℕ) : Prop := pagesOf sz < free.length ∧ sz ≤ USERTOP - PGSIZE

instance : Decidable (StackFits free sz) := inferInstanceAs (Decidable (_ ∧ _))

theorem allocuvm_stack (hfits : StackFits free sz) :
    ∃ pa ∈ free, (image free (pagesOf sz)).allocuvm (USERTOP - PGSIZE) USERTOP =
      .ok (USERTOP, withStack free (pagesOf sz) pa) := by
  obtain ⟨hlt, hsz⟩ := hfits
  have hnone : ¬ ((image free (pagesOf sz)).pte ((USERTOP - PGSIZE) / PGSIZE)).isSome := by
    rw [image_pte_isSome_iff hlt.le]
    rw [pagesOf]
    rw [USERTOP, PGSIZE] at hsz ⊢
    omega
  refine ⟨free[pagesOf sz], List.getElem_mem hlt, ?_⟩
  rw [Vm.allocuvm, if_neg (lt_irrefl _), if_neg (by decide), pages_stack, Vm.allocPages,
    kalloc_image hlt]
  simp only [Vm.mappages, if_neg hnone]
  rfl

/-- Otherwise the kernel panics, with the new stack or before it. -/
theorem allocuvm_stack_of_not_fits (hfree : ∀ pa ∈ free, pa ≠ 0) (hhi : sz ≤ USERTOP)
    (hk : pagesOf sz ≤ free.length) (hfits : ¬ StackFits free sz) :
    (∃ m, (image free (pagesOf sz)).allocuvm (USERTOP - PGSIZE) USERTOP = .ok (0, m)) ∨
      ∃ why, (image free (pagesOf sz)).allocuvm (USERTOP - PGSIZE) USERTOP = .error why := by
  rw [Vm.allocuvm, if_neg (lt_irrefl _), if_neg (by decide), pages_stack, Vm.allocPages]
  rcases Nat.lt_or_ge (pagesOf sz) free.length with hlt | hge
  · have hsz : USERTOP - PGSIZE < sz := Nat.lt_of_not_le fun h ↦ hfits ⟨hlt, h⟩
    have hsome : ((image free (pagesOf sz)).pte ((USERTOP - PGSIZE) / PGSIZE)).isSome := by
      rw [image_pte_isSome_iff hk]
      rw [pagesOf]
      unfold USERTOP PGSIZE at *
      omega
    rw [kalloc_image hlt]
    simp only [Vm.mappages, if_pos hsome]
    exact .inr ⟨_, rfl⟩
  · rw [kalloc_image_of_le hge]
    obtain ⟨r, hr, -⟩ :=
      (image_nonNull hfree (pagesOf sz)).exists_deallocuvm USERTOP (USERTOP - PGSIZE)
    exact .inl ⟨r.2, by simp only [hr]; rfl⟩

end Elf

end StackReloc
