import Mathlib.Data.List.Nodup
import Cs537OS.StackReloc.Argptr
import Cs537OS.StackReloc.Frames

/-!
# What `sbrk` leaves

`growproc` moves the end of the heap. It either succeeds, and then the size is the old one plus `n`
and exactly the pages below it are mapped, or it fails and changes nothing (`SbrkExact`), except for
two kinds of negative `n`:

* one that takes the whole memory away, `-n = sz`: the new size is 0, which `growproc` takes for the
  error of `deallocuvm` after the pages are gone;
* one that takes more than there is, `-n > sz`: the sum wraps, `deallocuvm` finds that there is
  nothing to do, and `growproc` succeeds with the old size. When `-n` is so large that the gap it
  would leave does not fit an `int`, the guard refuses it instead.

`growproc_exact_iff` says that these are all. That a failed growth leaves no page behind rests on
the pages above the old size not being mapped before: `allocuvm` gives back everything in the range
that it was to fill.
-/

open Xv6

namespace StackReloc

/-- Below the stack, the pages of the heap are mapped and no others: those from the third one on
that begin below the size. -/
def HeapMapped (p : Proc) : Prop :=
  ∀ k, (k + 1) * PGSIZE ≤ p.stackHead → ((p.vm.pte k).isSome ↔ 2 ≤ k ∧ k * PGSIZE < p.sz)

/-- A process as `exec` and `sbrk` leave it: the heap begins above the free pages and ends five
pages below the stack, and its pages are mapped to pages of the allocator. -/
structure Settled (p : Proc) : Prop where
  low : 2 * PGSIZE ≤ p.sz
  apart : Apart p
  top : p.stackHead ≤ USERTOP
  pages : p.vm.All (· ≠ 0)
  heap : HeapMapped p

/-- The new heap ends `n` bytes above the old one and has exactly its pages, and the pages that the
two have in common, or that are above both, are mapped as before. -/
structure Resized (p : Proc) (n : ℤ) (p' : Proc) : Prop where
  sz : (p'.sz : ℤ) = p.sz + n
  stackHead : p'.stackHead = p.stackHead
  heap : HeapMapped p'
  kept : ∀ k, k * PGSIZE < min p.sz p'.sz ∨ max p.sz p'.sz ≤ k * PGSIZE → p'.vm.pte k = p.vm.pte k

/-- `growproc` does all of what it is asked for or nothing. -/
def SbrkExact (p : Proc) (n : ℤ) : Prop :=
  ∃ r, growproc p n = .ok r ∧
    (r.1 = 0 ∧ Resized p n r.2 ∨
      r.1 = -1 ∧ r.2.sz = p.sz ∧ r.2.stackHead = p.stackHead ∧ r.2.vm.pte = p.vm.pte)

/-- The heap is to lose all of its bytes, or more than it has by an amount that the guard lets
through. -/
def Overdrawn (p : Proc) (n : ℤ) : Prop :=
  -n = p.sz ∧ 2 * PGSIZE < p.sz ∨ p.sz < -n ∧ p.stackHead - p.sz - n < 2 ^ 31

instance (p : Proc) (n : ℤ) : Decidable (Overdrawn p n) :=
  inferInstanceAs (Decidable (_ ∧ _ ∨ _ ∧ _))

namespace Vm

variable {m m' : Vm} {k lo hi : ℕ}

/-! ### Giving pages back -/

theorem All.nonNull (hm : m.All (· ≠ 0)) : m.NonNull := hm.mapped

/-- One turn of `deallocuvm` unmaps one page. -/
theorem deallocPage_pte {a : ℕ} (h : m.deallocPage a = .ok m') :
    m'.pte = Function.update m.pte (a / PGSIZE) none := by
  rw [deallocPage] at h
  rcases hpte : m.pte (a / PGSIZE) with - | pa
  · rw [hpte] at h
    cases h
    rw [← hpte, Function.update_eq_self]
  · rw [hpte] at h
    obtain ⟨-, h⟩ := GuardedLoop.guard_eq_ok_iff.1 h
    cases h
    rfl

/-- The loop of `deallocuvm` unmaps the pages it goes over and no others. -/
theorem deallocPages_pte {as : List ℕ} (h : as.foldlM deallocPage m = .ok m') (k : ℕ) :
    m'.pte k = if k ∈ as.map (· / PGSIZE) then none else m.pte k := by
  induction as generalizing m with
  | nil =>
    cases h
    rfl
  | cons a as ih =>
    rw [List.foldlM_cons] at h
    obtain ⟨m₁, ha, h⟩ := GuardedLoop.bind_eq_ok_iff.1 h
    rw [ih h, deallocPage_pte ha, List.map_cons]
    rcases eq_or_ne k (a / PGSIZE) with rfl | hne
    · rw [Function.update_self, ite_self, if_pos List.mem_cons_self]
    · rw [Function.update_of_ne hne]
      exact if_congr (List.mem_cons.trans (or_iff_right hne)).symm rfl rfl

/-- The page numbers that a loop from a page boundary goes over. -/
theorem mem_pages_map (halign : PGSIZE ∣ lo) :
    k ∈ (pages lo hi).map (· / PGSIZE) ↔ lo ≤ k * PGSIZE ∧ k * PGSIZE < hi := by
  obtain ⟨c, rfl⟩ := halign
  have hdiv : ∀ i, (PGSIZE * c + i * PGSIZE) / PGSIZE = c + i := by
    intro i
    rw [Nat.mul_comm PGSIZE c, ← Nat.add_mul, Nat.mul_div_cancel _ (by decide)]
  rw [List.mem_map]
  constructor
  · rintro ⟨a, ha, rfl⟩
    obtain ⟨i, rfl, hlt⟩ := mem_pages.1 ha
    rw [hdiv, Nat.add_mul, Nat.mul_comm c]
    exact ⟨Nat.le_add_right _ _, hlt⟩
  · rintro ⟨hle, hlt⟩
    rw [Nat.mul_comm PGSIZE c] at hle
    have hck : c ≤ k := Nat.le_of_mul_le_mul_right hle (by decide)
    have hsum : PGSIZE * c + (k - c) * PGSIZE = k * PGSIZE := by
      rw [Nat.mul_comm PGSIZE c, ← Nat.add_mul, Nat.add_sub_cancel' hck]
    exact ⟨_, mem_pages.2 ⟨k - c, rfl, lt_of_eq_of_lt hsum hlt⟩,
      by rw [hdiv, Nat.add_sub_cancel' hck]⟩

theorem dvd_PGROUNDUP (sz : ℕ) : PGSIZE ∣ PGROUNDUP sz := Nat.dvd_mul_left _ _

/-- **`deallocuvm`** to a smaller size unmaps the pages between the two sizes. -/
theorem deallocuvm_eq {oldsz newsz : ℕ} (hm : m.All (· ≠ 0)) (hlt : newsz < oldsz) :
    ∃ m', m.deallocuvm oldsz newsz = .ok (newsz, m') ∧ m'.All (· ≠ 0) ∧
      ∀ k, m'.pte k =
        if PGROUNDUP newsz ≤ k * PGSIZE ∧ k * PGSIZE < oldsz then none else m.pte k := by
  obtain ⟨m', hloop, -⟩ := GuardedLoop.exists_foldlM_of_preserves
    (fun m a h ↦ NonNull.exists_deallocPage h a) hm.nonNull (pages (PGROUNDUP newsz) oldsz)
  have hde : m.deallocuvm oldsz newsz = .ok (newsz, m') := by
    rw [deallocuvm, if_neg (Nat.not_le.2 hlt), hloop]
    rfl
  refine ⟨m', hde, hm.deallocuvm hde, fun k ↦ ?_⟩
  rw [deallocPages_pte hloop]
  exact if_congr (mem_pages_map (dvd_PGROUNDUP newsz)) rfl rfl

/-! ### Taking pages -/

theorem kalloc_pte {pa : ℕ} (h : m.kalloc = some (pa, m')) : m'.pte = m.pte := by
  rw [kalloc] at h
  split at h <;> cases h
  rfl

/-- The loop of `allocuvm`, when what is to be mapped is not mapped: either all of it is in the end,
or the range is unmapped as before. -/
theorem allocPages_eq {oldsz newsz : ℕ} {as : List ℕ} (hm : m.All (· ≠ 0)) (hlt : oldsz < newsz)
    (hnodup : (as.map (· / PGSIZE)).Nodup)
    (has : ∀ k ∈ as.map (· / PGSIZE), PGROUNDUP oldsz ≤ k * PGSIZE ∧ k * PGSIZE < newsz)
    (hnone : ∀ k ∈ as.map (· / PGSIZE), m.pte k = none) :
    ∃ r, allocPages oldsz newsz as m = .ok r ∧
      (r.1 = newsz ∧ (∀ k ∉ as.map (· / PGSIZE), r.2.pte k = m.pte k) ∧
          (∀ k ∈ as.map (· / PGSIZE), (r.2.pte k).isSome) ∨
        r.1 = 0 ∧ ∀ k, r.2.pte k =
          if PGROUNDUP oldsz ≤ k * PGSIZE ∧ k * PGSIZE < newsz then none else m.pte k) := by
  induction as generalizing m with
  | nil => exact ⟨_, rfl, .inl ⟨rfl, fun _ _ ↦ rfl, fun _ hk ↦ absurd hk List.not_mem_nil⟩⟩
  | cons a as ih =>
    rw [List.map_cons] at hnodup has hnone ⊢
    obtain ⟨hnew, hnodup⟩ := List.nodup_cons.1 hnodup
    obtain ⟨ha, has⟩ := List.forall_mem_cons.1 has
    obtain ⟨hnone_a, hnone⟩ := List.forall_mem_cons.1 hnone
    rw [allocPages]
    rcases hmem : m.kalloc with - | ⟨mem, m₁⟩
    · obtain ⟨m', hde, -, hpte⟩ := deallocuvm_eq hm hlt
      exact ⟨(0, m'), by simp only [hde]; rfl, .inr ⟨rfl, hpte⟩⟩
    · obtain ⟨hpa, hm₁⟩ := hm.kalloc hmem
      have hmap : m₁.mappages a mem =
          .ok { m₁ with pte := Function.update m₁.pte (a / PGSIZE) (some mem) } := by
        rw [mappages, kalloc_pte hmem, hnone_a]
        rfl
      have hupdate : ∀ k, k ≠ a / PGSIZE →
          Function.update m₁.pte (a / PGSIZE) (some mem) k = m.pte k := by
        intro k hk
        rw [Function.update_of_ne hk, kalloc_pte hmem]
      obtain ⟨r, hr, hcases⟩ := ih (hm₁.mappages hpa hmap) hnodup has fun k hk ↦
        (hupdate k fun heq ↦ hnew (heq ▸ hk)).trans (hnone k hk)
      refine ⟨r, by simp only [hmap]; exact hr, hcases.imp ?_ ?_⟩
      · rintro ⟨hsize, hkeep, hmapped⟩
        refine ⟨hsize, fun k hk ↦ ?_, List.forall_mem_cons.2 ⟨?_, hmapped⟩⟩
        · obtain ⟨hne, hk⟩ := not_or.1 (mt List.mem_cons.2 hk)
          exact (hkeep k hk).trans (hupdate k hne)
        · rw [hkeep _ hnew]
          show (Function.update m₁.pte (a / PGSIZE) (some mem) (a / PGSIZE)).isSome
          rw [Function.update_self]
          rfl
      · rintro ⟨hzero, hpte⟩
        refine ⟨hzero, fun k ↦ ?_⟩
        rw [hpte]
        rcases eq_or_ne k (a / PGSIZE) with rfl | hne
        · rw [if_pos ha, if_pos ha]
        · exact ite_congr rfl (fun _ ↦ rfl) fun _ ↦ hupdate k hne

theorem nodup_pages_map (halign : PGSIZE ∣ lo) : ((pages lo hi).map (· / PGSIZE)).Nodup := by
  obtain ⟨c, rfl⟩ := halign
  rw [pages, List.map_map]
  refine List.Nodup.map (fun i j hij ↦ ?_) List.nodup_range
  have heq : (PGSIZE * c + i * PGSIZE) / PGSIZE = (PGSIZE * c + j * PGSIZE) / PGSIZE := hij
  rw [Nat.mul_comm PGSIZE c, ← Nat.add_mul, ← Nat.add_mul, Nat.mul_div_cancel _ (by decide),
    Nat.mul_div_cancel _ (by decide)] at heq
  exact Nat.add_left_cancel heq

/-- **`allocuvm`** to a larger size, when nothing is mapped between the two: it maps that part, or
fails and changes nothing. -/
theorem allocuvm_eq {oldsz newsz : ℕ} (hm : m.All (· ≠ 0)) (hlt : oldsz < newsz)
    (htop : newsz ≤ USERTOP)
    (hnone : ∀ k, PGROUNDUP oldsz ≤ k * PGSIZE → k * PGSIZE < newsz → m.pte k = none) :
    ∃ r, m.allocuvm oldsz newsz = .ok r ∧
      (r.1 = newsz ∧
          (∀ k, ¬ (PGROUNDUP oldsz ≤ k * PGSIZE ∧ k * PGSIZE < newsz) → r.2.pte k = m.pte k) ∧
          (∀ k, PGROUNDUP oldsz ≤ k * PGSIZE → k * PGSIZE < newsz → (r.2.pte k).isSome) ∨
        r.1 = 0 ∧ r.2.pte = m.pte) := by
  have hmem : ∀ k, k ∈ (pages (PGROUNDUP oldsz) newsz).map (· / PGSIZE) ↔
      PGROUNDUP oldsz ≤ k * PGSIZE ∧ k * PGSIZE < newsz :=
    fun k ↦ mem_pages_map (dvd_PGROUNDUP oldsz)
  obtain ⟨r, hr, hcases⟩ := allocPages_eq hm hlt (nodup_pages_map (dvd_PGROUNDUP oldsz))
    (fun k hk ↦ (hmem k).1 hk) fun k hk ↦ hnone k ((hmem k).1 hk).1 ((hmem k).1 hk).2
  refine ⟨r, ?_, hcases.imp ?_ ?_⟩
  · rw [allocuvm, if_neg (Nat.not_lt.2 htop), if_neg (Nat.not_lt.2 hlt.le)]
    exact hr
  · rintro ⟨hsize, hkeep, hmapped⟩
    exact ⟨hsize, fun k hk ↦ hkeep k (mt (hmem k).1 hk),
      fun k hle hlt ↦ hmapped k ((hmem k).2 ⟨hle, hlt⟩)⟩
  · rintro ⟨hzero, hpte⟩
    refine ⟨hzero, funext fun k ↦ ?_⟩
    rw [hpte]
    split_ifs with hk
    · exact (hnone k hk.1 hk.2).symm
    · rfl

end Vm

variable {p : Proc} {n : ℤ}

/-! ### The guard -/

/-- `growproc` reads the gap that the change would leave as an `int`: as it is, unless it does not
fit. -/
theorem guard_iff (h : Settled p) (hmin : -2 ^ 31 ≤ n) (hmax : n < 2 ^ 31) :
    int (uint (p.stackHead - p.sz - n)) < 5 * PGSIZE ↔
      (p.stackHead : ℤ) - p.sz - n < 5 * PGSIZE ∨ 2 ^ 31 ≤ (p.stackHead : ℤ) - p.sz - n := by
  have hlow := h.low
  have happart := h.apart
  have htop := h.top
  rw [Apart] at happart
  rw [USERTOP] at htop
  unfold PGSIZE at *
  rw [int, uint]
  split_ifs <;> omega

theorem PGROUNDUP_le_iff {sz k : ℕ} (hsz : sz ≤ USERTOP) :
    PGROUNDUP sz ≤ k * PGSIZE ↔ sz ≤ k * PGSIZE := by
  rw [Vm.PGROUNDUP_spec hsz]
  rw [PGSIZE]
  omega

/-! ### The three cases -/

theorem Settled.sz_le (h : Settled p) : p.sz ≤ USERTOP := by
  have happart := h.apart
  have htop := h.top
  rw [Apart] at happart
  omega

/-- A growth that the guard lets through. -/
theorem growproc_grow (h : Settled p) (hpos : 0 < n)
    (hroom : (p.sz : ℤ) + n + 5 * PGSIZE ≤ p.stackHead)
    (hguard : ¬ int (uint (p.stackHead - p.sz - n)) < 5 * PGSIZE) : SbrkExact p n := by
  obtain ⟨d, rfl⟩ := Int.eq_ofNat_of_zero_le hpos.le
  have htop := h.top
  have hsum : uint ((p.sz : ℤ) + d) = p.sz + d := by
    have hlt : p.sz + d < 2 ^ 32 := by
      rw [USERTOP] at htop
      omega
    exact uint_add hlt
  have hpage : ∀ k, PGROUNDUP p.sz ≤ k * PGSIZE ↔ p.sz ≤ k * PGSIZE := fun k ↦
    PGROUNDUP_le_iff h.sz_le
  have hbelow : ∀ k, k * PGSIZE < p.sz + d → (k + 1) * PGSIZE ≤ p.stackHead := by
    intro k hk
    unfold PGSIZE at *
    omega
  have hnone : ∀ k, PGROUNDUP p.sz ≤ k * PGSIZE → k * PGSIZE < p.sz + d → p.vm.pte k = none := by
    intro k hle hlt
    rw [← Option.not_isSome_iff_eq_none, h.heap k (hbelow k hlt)]
    exact fun hk ↦ absurd ((hpage k).1 hle) (Nat.not_le.2 hk.2)
  obtain ⟨r, hr, hcases⟩ := Vm.allocuvm_eq h.pages (by omega) (by omega) hnone
  have hrun : growproc p d =
      if r.1 = 0 then (.ok (-1, { p with vm := r.2 }) : Except Panic (ℤ × Proc))
      else .ok (0, { p with sz := r.1, vm := r.2 }) := by
    rw [growproc, if_neg hguard, if_pos hpos, hsum, hr]
    rfl
  rcases hcases with ⟨hsize, hkeep, hmapped⟩ | ⟨hzero, hpte⟩
  · refine ⟨_, hrun.trans (if_neg (by omega)), .inl ⟨rfl, ?_⟩⟩
    rw [hsize]
    refine ⟨Nat.cast_add _ _, rfl, fun k hk ↦ ?_, fun k hk ↦ hkeep k ?_⟩
    · show (r.2.pte k).isSome ↔ 2 ≤ k ∧ k * PGSIZE < p.sz + d
      have hlow := h.low
      rcases em (p.sz ≤ k * PGSIZE ∧ k * PGSIZE < p.sz + d) with hin | hout
      · refine iff_of_true (hmapped k ((hpage k).2 hin.1) hin.2) ⟨?_, hin.2⟩
        unfold PGSIZE at *
        omega
      · rw [hkeep k fun hk ↦ hout ⟨(hpage k).1 hk.1, hk.2⟩, h.heap k hk]
        refine and_congr_right fun _ ↦ ?_
        omega
    · rw [hpage]
      dsimp only at hk
      omega
  · exact ⟨_, hrun.trans (if_pos hzero), .inr ⟨rfl, rfl, rfl, hpte⟩⟩

/-- A shrink that leaves something. -/
theorem growproc_shrink (h : Settled p) (hneg : n < 0) (hleft : 0 < p.sz + n)
    (hguard : ¬ int (uint (p.stackHead - p.sz - n)) < 5 * PGSIZE) : SbrkExact p n := by
  obtain ⟨newsz, hnew⟩ := Int.eq_ofNat_of_zero_le hleft.le
  have hlt : newsz < p.sz := by omega
  have hsum : uint ((p.sz : ℤ) + n) = newsz := by
    rw [hnew]
    exact uint_natCast (lt_of_le_USERTOP (hlt.le.trans h.sz_le))
  obtain ⟨m', hde, -, hround⟩ := Vm.deallocuvm_eq h.pages hlt
  have hpte : ∀ k, m'.pte k = if newsz ≤ k * PGSIZE ∧ k * PGSIZE < p.sz then none else p.vm.pte k :=
    fun k ↦ (hround k).trans
      (if_congr (and_congr_left' (PGROUNDUP_le_iff (hlt.le.trans h.sz_le))) rfl rfl)
  have hrun : growproc p n = .ok (0, { p with sz := newsz, vm := m' }) := by
    rw [growproc, if_neg hguard, if_neg (by omega), if_pos hneg, hsum, hde]
    exact if_neg (show ¬ newsz = 0 by omega)
  refine ⟨_, hrun, .inl ⟨rfl, hnew.symm, rfl, fun k hk ↦ ?_, fun k hk ↦ ?_⟩⟩
  · show (m'.pte k).isSome ↔ 2 ≤ k ∧ k * PGSIZE < newsz
    rw [hpte]
    split_ifs with hout
    · exact iff_of_false Bool.false_ne_true fun hk ↦ absurd hout.1 (Nat.not_le.2 hk.2)
    · rw [h.heap k hk]
      refine and_congr_right fun _ ↦ ?_
      omega
  · dsimp only at hk
    rw [hpte, if_neg (by omega)]

/-- The whole memory is taken away: the pages are gone, and the call fails. -/
theorem growproc_all (h : Settled p) (hall : -n = p.sz) :
    ∃ m', growproc p n = .ok (-1, { p with vm := m' }) ∧
      ∀ k, m'.pte k = if k * PGSIZE < p.sz then none else p.vm.pte k := by
  have hlow := h.low
  have happart : p.sz + 5 * PGSIZE ≤ p.stackHead := h.apart
  have hsz := h.sz_le
  have hpos : 0 < p.sz := (Nat.mul_pos Nat.two_pos (by decide)).trans_le hlow
  obtain ⟨m', hde, -, hpte⟩ := Vm.deallocuvm_eq h.pages hpos
  have hsum : uint ((p.sz : ℤ) + n) = 0 := by
    rw [show (p.sz : ℤ) + n = 0 by omega]
    rfl
  have hguard : ¬ int (uint (p.stackHead - p.sz - n)) < 5 * PGSIZE := by
    have htop := h.top
    rw [USERTOP] at htop hsz
    rw [guard_iff h (by omega) (by omega)]
    omega
  refine ⟨m', ?_, fun k ↦ (hpte k).trans (if_congr (and_iff_right (Nat.zero_le _)) rfl rfl)⟩
  rw [growproc, if_neg hguard, if_neg (by omega), if_pos (by omega), hsum, hde]
  rfl

/-- More is taken away than there is: nothing happens, and the call succeeds. -/
theorem growproc_beyond (h : Settled p) (hmin : -2 ^ 31 ≤ n) (hbeyond : p.sz < -n)
    (hguard : ¬ int (uint (p.stackHead - p.sz - n)) < 5 * PGSIZE) :
    growproc p n = .ok (0, p) := by
  have hlow := h.low
  have hsz := h.sz_le
  have hwrap : p.sz ≤ uint ((p.sz : ℤ) + n) := by
    rw [USERTOP] at hsz
    rw [uint]
    omega
  have hne : p.sz ≠ 0 := by
    rw [PGSIZE] at hlow
    omega
  rw [growproc, if_neg hguard, if_neg (by omega), if_pos (by omega), Vm.deallocuvm, if_pos hwrap]
  exact if_neg hne

theorem growproc_refused (hguard : int (uint (p.stackHead - p.sz - n)) < 5 * PGSIZE) :
    SbrkExact p n :=
  ⟨(-1, p), if_pos hguard, .inr ⟨rfl, rfl, rfl, rfl⟩⟩

/-- `growproc` is exact when the heap is not overdrawn. -/
theorem growproc_exact (h : Settled p) (hmin : -2 ^ 31 ≤ n) (hmax : n < 2 ^ 31)
    (hover : ¬ Overdrawn p n) : SbrkExact p n := by
  have hguard := guard_iff h hmin hmax
  rcases em (int (uint (p.stackHead - p.sz - n)) < 5 * PGSIZE) with hrefused | hlet
  · exact growproc_refused hrefused
  obtain ⟨hroom, hfits⟩ := not_or.1 (mt hguard.2 hlet)
  rw [Overdrawn] at hover
  rcases lt_trichotomy n 0 with hneg | rfl | hpos
  · rcases lt_trichotomy (-n) p.sz with hless | hall | hmore
    · exact growproc_shrink h hneg (by omega) hlet
    · -- two pages, of which none is mapped
      have htwo : p.sz = 2 * PGSIZE := by
        have hlow := h.low
        omega
      obtain ⟨m', hrun, hpte⟩ := growproc_all h hall
      refine ⟨_, hrun, .inr ⟨rfl, rfl, rfl, funext fun k ↦ (hpte k).trans ?_⟩⟩
      split_ifs with hk
      · have hbelow : (k + 1) * PGSIZE ≤ p.stackHead := by
          have happart := h.apart
          rw [Apart] at happart
          unfold PGSIZE at *
          omega
        refine (Option.not_isSome_iff_eq_none.1 fun hsome ↦ ?_).symm
        have hheap := ((h.heap k hbelow).1 hsome).1
        unfold PGSIZE at *
        omega
      · rfl
    · exact absurd (.inr ⟨hmore, not_le.1 hfits⟩) hover
  · refine ⟨(0, p), ?_, .inl ⟨rfl, (add_zero _).symm, rfl, h.heap, fun _ _ ↦ rfl⟩⟩
    rw [growproc, if_neg hlet, if_neg (lt_irrefl _), if_neg (lt_irrefl _)]
  · exact growproc_grow h hpos (by omega) hlet

/-- When it is, `growproc` does neither what it says nor nothing. -/
theorem growproc_inexact (h : Settled p) (hmin : -2 ^ 31 ≤ n) (hmax : n < 2 ^ 31)
    (hover : Overdrawn p n) : ¬ SbrkExact p n := by
  rintro ⟨r, hr, hcases⟩
  have hlow := h.low
  have happart : p.sz + 5 * PGSIZE ≤ p.stackHead := h.apart
  rcases hover with ⟨hall, hmore⟩ | ⟨hbeyond, hfits⟩
  · obtain ⟨m', hrun, hpte⟩ := growproc_all h hall
    obtain rfl := Except.ok.inj (hrun.symm.trans hr)
    rcases hcases with ⟨hzero, -⟩ | ⟨-, -, -, hsame⟩
    · cases hzero
    · -- the third page was mapped
      have hmapped : (p.vm.pte 2).isSome := (h.heap 2 (by omega)).2 ⟨le_rfl, hmore⟩
      have htwo : m'.pte 2 = p.vm.pte 2 := congrFun hsame 2
      rw [← htwo, hpte, if_pos hmore] at hmapped
      cases hmapped
  · have hguard : ¬ int (uint (p.stackHead - p.sz - n)) < 5 * PGSIZE := by
      rw [guard_iff h hmin hmax]
      omega
    obtain rfl := Except.ok.inj ((growproc_beyond h hmin hbeyond hguard).symm.trans hr)
    rcases hcases with ⟨-, hres⟩ | ⟨hret, -⟩
    · have hsz := hres.sz
      dsimp only at hsz
      omega
    · cases hret

/-- **When `sbrk` is exact and atomic.** Whatever the allocator has, `growproc` does all of what it
is asked for or nothing, exactly when the heap is not overdrawn. -/
theorem growproc_exact_iff (h : Settled p) (n : Int32) :
    SbrkExact p n.toInt ↔ ¬ Overdrawn p n.toInt := by
  have hmin : -2 ^ 31 ≤ n.toInt := Int32.le_toInt n
  have hmax : n.toInt < 2 ^ 31 := Int32.toInt_lt n
  exact ⟨fun hexact hover ↦ growproc_inexact h hmin hmax hover hexact, growproc_exact h hmin hmax⟩

/-- A process with a page of code and nothing to allocate. -/
def codePage : Proc where
  sz := 3 * PGSIZE
  stackHead := USERTOP - PGSIZE
  killed := false
  vm := ⟨fun k ↦ if k = 2 ∨ k = 0x9F then some (0x100 + k) else none, []⟩

theorem codePage_settled : Settled codePage := by
  refine ⟨by decide, by decide, by decide, ⟨nofun, fun n pa h ↦ ?_⟩, fun k hk ↦ ?_⟩
  · have hpte : (if n = 2 ∨ n = 0x9F then some (0x100 + n) else none) = some pa := h
    split_ifs at hpte
    obtain rfl := Option.some.inj hpte
    exact Nat.succ_ne_zero _ ∘ (Nat.add_comm _ _).trans
  · have hle : (k + 1) * 4096 ≤ 0x9F000 := hk
    show (if k = 2 ∨ k = 0x9F then some (0x100 + k) else none).isSome ↔ 2 ≤ k ∧ k * 4096 < 3 * 4096
    split_ifs with hk'
    · exact iff_of_true rfl (by omega)
    · exact iff_of_false Bool.false_ne_true (by omega)

/-- A page more, which is not to be had, and a byte less. -/
theorem codePage_exact :
    SbrkExact codePage (4096 : Int32).toInt ∧ SbrkExact codePage (-1 : Int32).toInt :=
  ⟨(growproc_exact_iff codePage_settled 4096).2 (by decide),
    (growproc_exact_iff codePage_settled (-1)).2 (by decide)⟩

/-- **All of the memory is given back**: the call fails, and the page of the code is gone. -/
theorem codePage_overdrawn :
    Settled codePage ∧ ¬ SbrkExact codePage (-12288 : Int32).toInt :=
  ⟨codePage_settled, growproc_inexact codePage_settled (by decide) (by decide) (by decide)⟩

/-! ### The system call -/

/-- `sys_sbrk`: the old end of the heap, or -1. -/
def sysSbrk (c : Caller) : Except Panic (ℤ × Proc) :=
  match argint c 0 with
  | none => .ok (-1, c.proc)
  | some n => do
    let r ← growproc c.proc (int n.toNat)
    if r.1 < 0 then .ok (-1, r.2) else .ok (c.proc.sz, r.2)

/-- A system call that does not overdraw the heap returns the old end and resizes it, or fails and
changes nothing. -/
theorem sysSbrk_exact {c : Caller} (h : Settled c.proc)
    (hover : ∀ n, argint c 0 = some n → ¬ Overdrawn c.proc (int n.toNat)) :
    ∃ r, sysSbrk c = .ok r ∧
      (r.1 = c.proc.sz ∧ (∃ n, argint c 0 = some n ∧ Resized c.proc (int n.toNat) r.2) ∨
        r.1 = -1 ∧ r.2.sz = c.proc.sz ∧ r.2.vm.pte = c.proc.vm.pte) := by
  rw [sysSbrk]
  rcases harg : argint c 0 with - | n
  · exact ⟨_, rfl, .inr ⟨rfl, rfl, rfl⟩⟩
  · have hword : n.toNat < 2 ^ 32 := n.toNat_lt
    have hmin : -2 ^ 31 ≤ int n.toNat := by
      rw [int]
      split_ifs <;> omega
    obtain ⟨r, hr, hcases⟩ := growproc_exact h hmin (int_lt hword) (hover n harg)
    simp only [hr]
    rcases hcases with ⟨hret, hres⟩ | ⟨hret, hsz, -, hpte⟩
    · exact ⟨(c.proc.sz, r.2), if_neg (by omega), .inl ⟨rfl, n, rfl, hres⟩⟩
    · exact ⟨(-1, r.2), if_pos (by omega), .inr ⟨rfl, hsz, hpte⟩⟩

end StackReloc
