import Cs537OS.StackReloc.Ram

/-!
# Copies of address spaces

`copyuvm`, which makes the memory of a child for `fork`. It goes over the heap, from the third page
on, and then over the stack, and copies every page to a new one from the allocator.

For a process that has exactly the pages of these two parts (`Exactly`) the two loops go over every
mapped page once and no other, so `copyuvm` cannot panic, and what it makes is a copy page by page
(`Copied`): `copyuvm_copied`.
-/

open Xv6

namespace StackReloc

/-- The physical page behind the address `i` of user memory, which one turn of a loop of `copyuvm`
copies. -/
def pageAt (user : ℕ → Option ℕ) (i : ℕ) : Except Panic ℕ :=
  if Elf.PDX i ∉ Elf.kernelTables then
    .error ⟨"copyuvm: pte should exist"⟩
  else if i < USERTOP then
    match user (i / PGSIZE) with
    | none => .error ⟨"copyuvm: page not present"⟩
    | some pa => .ok pa
  else
    .ok (i / PGSIZE * PGSIZE)

/-- The loops of `copyuvm`, the one over the heap and the one over the stack. The flag says whether
there was memory enough. -/
def copyPages (user : ℕ → Option ℕ) : List ℕ → Space → Except Panic (Bool × Space)
  | [], s => .ok (true, s)
  | i :: is, s => do
    let pa ← pageAt user i
    match s.ram.kalloc with
    | none => .ok (false, s)
    | some (mem, ram) => do
      -- the page table is there, so `mappages` either succeeds or panics
      let s' ← Space.mappages ⟨s.pte, ram.movePage mem pa⟩ i PGSIZE mem
      copyPages user is s'

/-- Given a parent process's page table, create a copy of it for a child. -/
def copyuvm (pgdir : Elf.Pgdir) (sz stackaddr : ℕ) (r : Ram) :
    Except Panic (Option Elf.Pgdir × Ram) :=
  match setupkvm r with
  | (none, r) => .ok (none, r)
  | (some d, r) => do
    let c ← copyPages pgdir.user (Vm.pages (2 * PGSIZE) sz ++ Vm.pages stackaddr USERTOP)
      ⟨d.user, r⟩
    if c.1 then
      .ok (some { d with user := c.2.pte }, c.2.ram)
    else do
      let r ← freevm { d with user := c.2.pte } c.2.ram
      .ok (none, r)

/-- The user pages of a process are those of its heap, from the third page on, and those of its
stack. -/
structure Exactly (pgdir : Elf.Pgdir) (sz stackHead : ℕ) : Prop where
  aligned : PGSIZE ∣ stackHead
  /-- The size rounded up, which is no smaller than the size. -/
  sz_le : sz ≤ PGROUNDUP sz
  le : PGROUNDUP sz ≤ stackHead
  mapped : ∀ k, (pgdir.user k).isSome ↔
    2 * PGSIZE ≤ k * PGSIZE ∧ k * PGSIZE < PGROUNDUP sz ∨
      stackHead ≤ k * PGSIZE ∧ k * PGSIZE < USERTOP
  /-- Above user memory no page is a user page. -/
  user : ∀ k, (pgdir.user k).isSome → k * PGSIZE < USERTOP

/-- The page is in use by the process. -/
def Elf.Pgdir.Has (d : Elf.Pgdir) (pa : ℕ) : Prop :=
  pa = d.dir ∨ pa ∈ d.tables ∨ ∃ k, d.user k = some pa

/-- The allocator has each page once, and only pages that are not in use. -/
structure Unused (pgdir : Elf.Pgdir) (r : Ram) : Prop where
  nodup : r.freelist.Nodup
  ne_zero : ∀ pa ∈ r.freelist, pa ≠ 0
  unused : ∀ pa ∈ r.freelist, ¬ pgdir.Has pa

/-- The directory `d` is a copy of `pgdir`, and `pgdir` has not changed, when memory has gone from
`mem` to `mem'`. -/
structure Copied (pgdir d : Elf.Pgdir) (mem mem' : ℕ → Page) : Prop where
  same : ∀ k, (d.user k).isSome ↔ (pgdir.user k).isSome
  fresh : ∀ k pa, d.user k = some pa → ¬ pgdir.Has pa
  distinct : ∀ k l pa, d.user k = some pa → d.user l = some pa → k = l
  contents : ∀ k pa pa', pgdir.user k = some pa → d.user k = some pa' → mem' pa' = mem pa
  parent : ∀ pa, pgdir.Has pa → mem' pa = mem pa

variable {pgdir d : Elf.Pgdir} {sz stackHead k : ℕ} {r r' : Ram}

/-! ### The pages of the loops -/

/-- A heap that ends in the middle of a page has the whole page. -/
theorem lt_PGROUNDUP_iff (hsz : sz ≤ PGROUNDUP sz) :
    k * PGSIZE < PGROUNDUP sz ↔ k * PGSIZE < sz := by
  unfold PGROUNDUP uint PGSIZE at *
  omega

theorem mem_loops_iff (h : Exactly pgdir sz stackHead) :
    k ∈ (Vm.pages (2 * PGSIZE) sz ++ Vm.pages stackHead USERTOP).map (· / PGSIZE) ↔
      (pgdir.user k).isSome := by
  rw [List.map_append, List.mem_append, Vm.mem_pages_map (Nat.dvd_mul_left _ _),
    Vm.mem_pages_map h.aligned, h.mapped, lt_PGROUNDUP_iff h.sz_le]

theorem nodup_loops (h : Exactly pgdir sz stackHead) :
    ((Vm.pages (2 * PGSIZE) sz ++ Vm.pages stackHead USERTOP).map (· / PGSIZE)).Nodup := by
  rw [List.map_append]
  refine (Vm.nodup_pages_map (Nat.dvd_mul_left _ _)).append (Vm.nodup_pages_map h.aligned) ?_
  intro k hheap hstack
  have hlt := ((Vm.mem_pages_map (Nat.dvd_mul_left _ _)).1 hheap).2
  have hle := ((Vm.mem_pages_map h.aligned).1 hstack).1
  exact absurd (h.sz_le.trans h.le) (Nat.not_le.2 (hle.trans_lt hlt))

theorem dvd_of_mem_loops (h : Exactly pgdir sz stackHead) {i : ℕ}
    (hi : i ∈ Vm.pages (2 * PGSIZE) sz ++ Vm.pages stackHead USERTOP) : PGSIZE ∣ i := by
  rcases List.mem_append.1 hi with hi | hi
  · obtain ⟨j, rfl, -⟩ := Vm.mem_pages.1 hi
    exact Nat.dvd_add (Nat.dvd_mul_left _ _) (Nat.dvd_mul_left _ _)
  · obtain ⟨j, rfl, -⟩ := Vm.mem_pages.1 hi
    exact Nat.dvd_add h.aligned (Nat.dvd_mul_left _ _)

/-! ### The loops -/

theorem pageAt_eq {i pa : ℕ} (hi : i < USERTOP) (hpa : pgdir.user (i / PGSIZE) = some pa) :
    pageAt pgdir.user i = .ok pa := by
  have htable : Elf.PDX i ∈ Elf.kernelTables := by
    have hzero : Elf.PDX i = 0 := by
      rw [USERTOP] at hi
      rw [Elf.PDX]
      omega
    rw [hzero]
    decide
  rw [pageAt, if_neg (not_not_intro htable), if_pos hi, hpa]

/-- What the loops have made of the space `s` when they come to the space `s'`: the pages `ks` have
been copied. -/
structure Loops (pgdir : Elf.Pgdir) (ks : List ℕ) (s s' : Space) : Prop where
  others : ∀ k ∉ ks, s'.pte k = s.pte k
  copied : ∀ k ∈ ks, ∃ f ∈ s.ram.freelist, s'.pte k = some f ∧
    ∀ pa, pgdir.user k = some pa → s'.ram.mem f = s.ram.mem pa
  distinct : ∀ k ∈ ks, ∀ l ∈ ks, s'.pte k = s'.pte l → k = l
  kept : ∀ pa ∉ s.ram.freelist, s'.ram.mem pa = s.ram.mem pa

/-- One turn before the others. -/
theorem Loops.cons {ks : List ℕ} {s s' : Space} {f pa : ℕ} {next : List ℕ}
    (hfree : s.ram.freelist = f :: next) (hnew : f ∉ next) (hk : k ∉ ks)
    (hpa : pgdir.user k = some pa) (hunused : ∀ f ∈ s.ram.freelist, ¬ pgdir.Has f)
    (h : Loops pgdir ks
      ⟨Function.update s.pte k (some f), ⟨next, Function.update s.ram.mem f (s.ram.mem pa)⟩⟩ s') :
    Loops pgdir (k :: ks) s s' := by
  have hself : s'.pte k = some f := (h.others k hk).trans (Function.update_self ..)
  have hmem : ∀ l ∈ ks, ∃ g ∈ next, s'.pte l = some g := fun l hl ↦ by
    obtain ⟨g, hg, hpte, -⟩ := h.copied l hl
    exact ⟨g, hg, hpte⟩
  have hother : ∀ l ∈ ks, s'.pte l ≠ some f := fun l hl heq ↦ by
    obtain ⟨g, hg, hpte⟩ := hmem l hl
    exact hnew (Option.some.inj (hpte.symm.trans heq) ▸ hg)
  refine ⟨fun l hl ↦ ?_, fun l hl ↦ ?_, fun l hl l' hl' heq ↦ ?_, fun g hg ↦ ?_⟩
  · obtain ⟨hne, hl⟩ := not_or.1 (mt List.mem_cons.2 hl)
    exact (h.others l hl).trans (Function.update_of_ne hne _ _)
  · rcases List.mem_cons.1 hl with rfl | hl
    · refine ⟨f, hfree ▸ List.mem_cons_self, hself, fun pa' hpa' ↦ ?_⟩
      obtain rfl : pa = pa' := Option.some.inj (hpa.symm.trans hpa')
      exact (h.kept f hnew).trans (Function.update_self ..)
    · obtain ⟨g, hg, hpte, hcopy⟩ := h.copied l hl
      refine ⟨g, hfree ▸ List.mem_cons_of_mem f hg, hpte, fun pa' hpa' ↦ ?_⟩
      -- the page that was just written is none of the parent's
      have hne : pa' ≠ f := by
        rintro rfl
        exact hunused pa' (hfree ▸ List.mem_cons_self) (.inr (.inr ⟨l, hpa'⟩))
      exact (hcopy pa' hpa').trans (Function.update_of_ne hne _ _)
  · rcases List.mem_cons.1 hl with rfl | hold <;> rcases List.mem_cons.1 hl' with rfl | hold'
    · rfl
    · exact absurd (heq.symm.trans hself) (hother l' hold')
    · exact absurd (heq.trans hself) (hother l hold)
    · exact h.distinct l hold l' hold' heq
  · rw [hfree] at hg
    obtain ⟨hne, hg⟩ := not_or.1 (mt List.mem_cons.2 hg)
    exact (h.kept g hg).trans (Function.update_of_ne hne _ _)

/-- **The loops of `copyuvm`** do not panic, and copy all of their pages when there is memory. -/
theorem copyPages_spec {is : List ℕ} {s : Space} (hdvd : ∀ i ∈ is, PGSIZE ∣ i)
    (huser : ∀ i ∈ is, i < USERTOP ∧ (pgdir.user (i / PGSIZE)).isSome)
    (hnodup : (is.map (· / PGSIZE)).Nodup) (hnone : ∀ k ∈ is.map (· / PGSIZE), s.pte k = none)
    (hfree : Unused pgdir s.ram) (hall : s.vm.All (· ≠ 0)) :
    ∃ c, copyPages pgdir.user is s = .ok c ∧ c.2.vm.All (· ≠ 0) ∧
      (c.1 = true → Loops pgdir (is.map (· / PGSIZE)) s c.2) := by
  induction is generalizing s with
  | nil =>
    refine ⟨(true, s), rfl, hall, fun _ ↦ ⟨fun _ _ ↦ rfl, ?_, ?_, fun _ _ ↦ rfl⟩⟩
    · exact fun k hk ↦ absurd hk List.not_mem_nil
    · exact fun k hk ↦ absurd hk List.not_mem_nil
  | cons i is ih =>
    rw [List.map_cons] at hnodup hnone ⊢
    obtain ⟨hi, his⟩ := List.forall_mem_cons.1 huser
    obtain ⟨pa, hpa⟩ := Option.isSome_iff_exists.1 hi.2
    obtain ⟨hnew, hnodup⟩ := List.nodup_cons.1 hnodup
    obtain ⟨hnone_i, hnone⟩ := List.forall_mem_cons.1 hnone
    rw [copyPages, pageAt_eq hi.1 hpa]
    obtain ⟨pte, freelist, mem⟩ := s
    rcases freelist with - | ⟨f, next⟩
    · exact ⟨_, rfl, hall, fun h ↦ (by cases h)⟩
    · obtain ⟨hf, hnodup_next⟩ := List.nodup_cons.1 hfree.nodup
      obtain ⟨hf₀, hnext₀⟩ := List.forall_mem_cons.1 hfree.ne_zero
      have hmap : Space.mappages ⟨pte, ⟨next, Function.update mem f (mem pa)⟩⟩ i PGSIZE f =
          .ok ⟨Function.update pte (i / PGSIZE) (some f),
            ⟨next, Function.update mem f (mem pa)⟩⟩ := by
        rw [Space.mappages_eq (hdvd i List.mem_cons_self), Space.mapPage, if_neg]
        rintro (htop | hsome)
        · exact absurd hi.1 (Nat.not_lt.2 htop)
        · exact Option.not_isSome_iff_eq_none.2 hnone_i hsome
      have hall' : Vm.All (· ≠ 0) ⟨Function.update pte (i / PGSIZE) (some f), next⟩ :=
        Vm.All.update (m := ⟨pte, next⟩) ⟨hnext₀, hall.mapped⟩ _ fun pa h ↦ Option.some.inj h ▸ hf₀
      obtain ⟨c, hc, hall'', hloops⟩ := ih
        (s := ⟨Function.update pte (i / PGSIZE) (some f), ⟨next, Function.update mem f (mem pa)⟩⟩)
        (fun j hj ↦ hdvd j (List.mem_cons_of_mem i hj)) his hnodup
        (fun k hk ↦ (Function.update_of_ne (ne_of_mem_of_not_mem hk hnew) _ _).trans (hnone k hk))
        ⟨hnodup_next, hnext₀, fun g hg ↦ hfree.unused g (List.mem_cons_of_mem f hg)⟩ hall'
      refine ⟨c, ?_, hall'', fun hok ↦ Loops.cons rfl hf hnew hpa hfree.unused (hloops hok)⟩
      show Space.mappages ⟨pte, ⟨next, Function.update mem f (mem pa)⟩⟩ i PGSIZE f >>= _ = _
      rw [hmap]
      exact hc

/-- An address space without null pages can be freed. -/
theorem exists_freevm (h : Vm.All (· ≠ 0) ⟨d.user, r.freelist⟩) : ∃ r', freevm d r = .ok r' := by
  have hturn : ∀ (s : Space) (a : ℕ), s.vm.All (· ≠ 0) →
      ∃ s', s.deallocPage a = .ok s' ∧ s'.vm.All (· ≠ 0) := by
    intro s a hs
    rw [Space.deallocPage]
    rcases hpte : s.pte (a / PGSIZE) with - | pa
    · exact ⟨s, rfl, hs⟩
    · have hne : pa ≠ 0 := hs.mapped _ pa hpte
      exact ⟨_, if_neg hne, (hs.update _ fun pa h ↦ (by cases h)).kfree hne⟩
  obtain ⟨s', hloop, -⟩ := GuardedLoop.exists_foldlM_of_preserves (I := fun s ↦ s.vm.All (· ≠ 0))
    (fun s a hs ↦ hturn s a hs) (s := ⟨d.user, r⟩) h (Vm.pages (PGROUNDUP 0) USERTOP)
  have hde : Space.deallocuvm ⟨d.user, r⟩ USERTOP 0 = .ok (0, s') := by
    rw [Space.deallocuvm, if_neg (by decide), hloop]
    rfl
  exact ⟨_, by rw [freevm, hde]; rfl⟩

/-- **`fork` copies exactly the parent's memory.** For a process whose user pages are those of its
heap and its stack, `copyuvm` does not panic, and a directory that it returns is a copy: it maps the
same pages, to pages of its own with the same contents, and the parent keeps its own. -/
theorem copyuvm_copied (h : Exactly pgdir sz stackHead) (hfree : Unused pgdir r) :
    ∃ c, copyuvm pgdir sz stackHead r = .ok c ∧
      ∀ d, c.1 = some d → Copied pgdir d r.mem c.2.mem := by
  rw [copyuvm]
  rcases Nat.lt_or_ge r.freelist.length Elf.kvmPages with hfew | hkvm
  · rw [setupkvm_of_lt hfew]
    exact ⟨_, rfl, fun d hd ↦ (by cases hd)⟩
  obtain ⟨dir, tables, rest, hlist, hkvm⟩ := setupkvm_of_le hkvm
  have hrest : ∀ pa ∈ rest, pa ∈ r.freelist := fun pa hpa ↦
    hlist ▸ List.mem_append_right (dir :: tables) hpa
  have hfree' : Unused pgdir { r with freelist := rest } :=
    ⟨(List.nodup_append.1 (hlist ▸ hfree.nodup)).2.1, fun pa hpa ↦ hfree.ne_zero pa (hrest pa hpa),
      fun pa hpa ↦ hfree.unused pa (hrest pa hpa)⟩
  have huser : ∀ i ∈ Vm.pages (2 * PGSIZE) sz ++ Vm.pages stackHead USERTOP,
      i < USERTOP ∧ (pgdir.user (i / PGSIZE)).isSome := fun i hi ↦ by
    have hsome := (mem_loops_iff h).1 (List.mem_map_of_mem (f := (· / PGSIZE)) hi)
    have hlt := h.user _ hsome
    rw [Nat.div_mul_cancel (dvd_of_mem_loops h hi)] at hlt
    exact ⟨hlt, hsome⟩
  obtain ⟨c, hc, hall, hloops⟩ := copyPages_spec (s := ⟨fun _ ↦ none, { r with freelist := rest }⟩)
    (fun i hi ↦ dvd_of_mem_loops h hi) huser (nodup_loops h) (fun _ _ ↦ rfl) hfree'
    ⟨hfree'.ne_zero, nofun⟩
  rw [hkvm]
  simp only [hc]
  rcases hok : c.1 with - | -
  · obtain ⟨r', hr'⟩ := exists_freevm (d := ⟨c.2.pte, dir, tables⟩) (r := c.2.ram) hall
    refine ⟨(none, r'), ?_, fun d hd ↦ (by cases hd)⟩
    show (if c.1 = true then _ else freevm ⟨c.2.pte, dir, tables⟩ c.2.ram >>= _) = _
    rw [hok, if_neg Bool.false_ne_true, hr']
    rfl
  · have hl := hloops hok
    have hmem : ∀ k, (c.2.pte k).isSome → (pgdir.user k).isSome := fun k hk ↦ by
      by_contra hno
      rw [hl.others k fun hmem ↦ hno ((mem_loops_iff h).1 hmem)] at hk
      cases hk
    have hfrom : ∀ k pa, c.2.pte k = some pa → pa ∈ rest := fun k pa hpa ↦ by
      have hk := (mem_loops_iff h).2 (hmem k (Option.isSome_iff_exists.2 ⟨pa, hpa⟩))
      obtain ⟨f, hf, hpte, -⟩ := hl.copied k hk
      exact Option.some.inj (hpte.symm.trans hpa) ▸ hf
    refine ⟨(some ⟨c.2.pte, dir, tables⟩, c.2.ram), ?_, fun d hd ↦ ?_⟩
    · show (if c.1 = true then _ else _) = _
      rw [hok, if_pos rfl]
    · obtain rfl := Option.some.inj hd
      refine ⟨fun k ↦ ⟨hmem k, fun hk ↦ ?_⟩, fun k pa hpa ↦ hfree'.unused pa (hfrom k pa hpa),
        fun k l pa hk hl' ↦ ?_, fun k pa pa' hpa hpa' ↦ ?_, fun pa hpa ↦ ?_⟩
      · obtain ⟨f, -, hpte, -⟩ := hl.copied k ((mem_loops_iff h).2 hk)
        exact Option.isSome_iff_exists.2 ⟨f, hpte⟩
      · have hmem_of : ∀ k, c.2.pte k = some pa → k ∈ _ := fun k hk ↦
          (mem_loops_iff h).2 (hmem k (Option.isSome_iff_exists.2 ⟨pa, hk⟩))
        exact hl.distinct k (hmem_of k hk) l (hmem_of l hl') (hk.trans hl'.symm)
      · obtain ⟨f, -, hpte, hcopy⟩ := hl.copied k
          ((mem_loops_iff h).2 (Option.isSome_iff_exists.2 ⟨pa, hpa⟩))
        obtain rfl : f = pa' := Option.some.inj (hpte.symm.trans hpa')
        exact hcopy pa hpa
      · exact hl.kept pa fun hmem ↦ hfree'.unused pa hmem hpa

/-- The page directory of a process with a page of code and a page of stack. -/
def twoPages : Elf.Pgdir where
  user k := if k = 2 then some 0x200000 else if k = 0x9F then some 0x201000 else none
  dir := 0x202000
  tables := (List.range 12).map fun i ↦ 0x203000 + i * PGSIZE

theorem twoPages_exactly : Exactly twoPages (3 * PGSIZE) (USERTOP - PGSIZE) := by
  have huser : ∀ k, (twoPages.user k).isSome ↔ k = 2 ∨ k = 0x9F := by
    intro k
    show (if k = 2 then some 0x200000
      else if k = 0x9F then some 0x201000 else none : Option ℕ).isSome ↔ _
    split_ifs with htwo hstack
    · exact iff_of_true rfl (.inl htwo)
    · exact iff_of_true rfl (.inr hstack)
    · exact iff_of_false Bool.false_ne_true (not_or.2 ⟨htwo, hstack⟩)
  refine ⟨by decide, by decide, by decide, fun k ↦ ?_, fun k hk ↦ ?_⟩
  · have hround : PGROUNDUP (3 * PGSIZE) = 0x3000 := by decide
    rw [huser, hround]
    rw [USERTOP, PGSIZE]
    omega
  · rw [huser] at hk
    rw [USERTOP, PGSIZE]
    omega

/-- Memory with twenty free pages. -/
def twentyFree : Ram := ⟨Elf.pool, fun pa _ ↦ .ofNat pa⟩

theorem twoPages_unused : Unused twoPages twentyFree := by
  refine ⟨by decide, by decide, fun pa hpa hhas ↦ ?_⟩
  have hlt : ∀ pa ∈ Elf.pool, pa < 0x200000 := by decide
  rcases hhas with rfl | htable | ⟨k, hk⟩
  · exact absurd hpa (by decide)
  · have hle : ∀ pa ∈ twoPages.tables, 0x200000 ≤ pa := by decide
    exact absurd (hlt pa hpa) (Nat.not_lt.2 (hle pa htable))
  · have hpte : (if k = 2 then some 0x200000 else if k = 0x9F then some 0x201000 else none) =
      some pa := hk
    split_ifs at hpte <;>
    · obtain rfl := Option.some.inj hpte
      exact absurd hpa (by decide)

/-- The copy of such a process. -/
theorem twoPages_copied : ∃ c d,
    copyuvm twoPages (3 * PGSIZE) (USERTOP - PGSIZE) twentyFree = .ok c ∧ c.1 = some d ∧
      Copied twoPages d twentyFree.mem c.2.mem := by
  obtain ⟨c, hc, hcopied⟩ := copyuvm_copied twoPages_exactly twoPages_unused
  obtain ⟨c', hc', hsome⟩ := GuardedLoop.exists_eq_ok
    (x := copyuvm twoPages (3 * PGSIZE) (USERTOP - PGSIZE) twentyFree)
    (p := fun c ↦ c.1.isSome) (by decide +kernel)
  obtain rfl : c = c' := Except.ok.inj (hc.symm.trans hc')
  obtain ⟨d, hd⟩ := Option.isSome_iff_exists.1 hsome
  exact ⟨c, d, hc, hd, hcopied d hd⟩

end StackReloc
