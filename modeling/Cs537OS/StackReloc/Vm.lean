import Mathlib.Tactic.SplitIfs
import Cs537OS.Foundation.GuardedLoop
import Cs537OS.Xv6.Basic

/-!
# Memory of a process with a relocated stack

The address space of a process in the kernel that puts the stack at the top of user memory: code and
heap grow up from the bottom to `sz`, the stack grows down from `USERTOP` to `stack_head`. This
module has the functions that change either end, `growproc` for `sbrk` and `growstack` for a page
fault, with the page allocator and the page table below them.

The page table is the one of the first four megabytes, which `setupkvm` has allocated for the
addresses above `USERTOP`, so that `walkpgdir` finds an entry for every user page. It is read as the
physical page that each user page is mapped to. The contents of the pages are left out.
-/

open Xv6

namespace StackReloc

def PGROUNDUP (sz : ℕ) : ℕ := uint (sz + PGSIZE - 1) / PGSIZE * PGSIZE

/-- A kernel panic. -/
structure Panic where
  message : String
deriving DecidableEq

/-- The user pages that are mapped, by page number, and the allocator's list of free pages. -/
structure Vm where
  pte : ℕ → Option ℕ
  freelist : List ℕ

namespace Vm

/-- Allocate one page of physical memory. -/
def kalloc (m : Vm) : Option (ℕ × Vm) :=
  match m.freelist with
  | [] => none
  | r :: next => some (r, { m with freelist := next })

def kfree (m : Vm) (v : ℕ) : Vm :=
  { m with freelist := v :: m.freelist }

/-- Map the page at `a` to the physical page `pa`. -/
def mappages (m : Vm) (a pa : ℕ) : Except Panic Vm :=
  if (m.pte (a / PGSIZE)).isSome then
    .error ⟨"remap"⟩
  else
    .ok { m with pte := Function.update m.pte (a / PGSIZE) (some pa) }

/-- The addresses `a`, `a + PGSIZE`, ... below `top`. -/
def pages (a top : ℕ) : List ℕ :=
  (List.range ((top - a + PGSIZE - 1) / PGSIZE)).map fun i ↦ a + i * PGSIZE

/-- One turn of the loop of `deallocuvm`. -/
def deallocPage (m : Vm) (a : ℕ) : Except Panic Vm :=
  match m.pte (a / PGSIZE) with
  | none => .ok m
  | some pa =>
    if pa = 0 then
      .error ⟨"kfree"⟩
    else
      .ok ({ m with pte := Function.update m.pte (a / PGSIZE) none }.kfree pa)

/-- Deallocate user pages to bring the process size from `oldsz` to `newsz`. Returns the new process
size. -/
def deallocuvm (m : Vm) (oldsz newsz : ℕ) : Except Panic (ℕ × Vm) :=
  if newsz ≥ oldsz then
    .ok (oldsz, m)
  else do
    let m' ← (pages (PGROUNDUP newsz) oldsz).foldlM deallocPage m
    .ok (newsz, m')

/-- The loop of `allocuvm` over the pages to be mapped. -/
def allocPages (oldsz newsz : ℕ) : List ℕ → Vm → Except Panic (ℕ × Vm)
  | [], m => .ok (newsz, m)
  | a :: as, m =>
    match m.kalloc with
    | none => do
      let r ← m.deallocuvm newsz oldsz
      .ok (0, r.2)
    | some (mem, m') => do
      let m'' ← m'.mappages a mem
      allocPages oldsz newsz as m''

/-- Allocate physical memory to grow a process from `oldsz` to `newsz`. Returns the new size or 0
on error. -/
def allocuvm (m : Vm) (oldsz newsz : ℕ) : Except Panic (ℕ × Vm) :=
  if newsz > USERTOP then
    .ok (0, m)
  else if newsz < oldsz then
    .ok (oldsz, m)
  else
    allocPages oldsz newsz (pages (PGROUNDUP oldsz) newsz) m

/-! ### Sizes -/

theorem allocPages_fst {oldsz newsz : ℕ} {as : List ℕ} {m : Vm} {r : ℕ × Vm}
    (h : allocPages oldsz newsz as m = .ok r) : r.1 = 0 ∨ r.1 = newsz := by
  induction as generalizing m with
  | nil => exact .inr (Except.ok.inj h ▸ rfl)
  | cons a as ih =>
    rw [allocPages] at h
    cases hmem : m.kalloc with
    | none =>
      rw [hmem] at h
      cases hde : m.deallocuvm newsz oldsz with
      | error e =>
        rw [hde] at h
        cases h
      | ok r' =>
        rw [hde] at h
        exact .inl (Except.ok.inj h ▸ rfl)
    | some mem =>
      rw [hmem] at h
      cases hmap : mem.2.mappages a mem.1 with
      | error e =>
        simp only [hmap] at h
        cases h
      | ok m' =>
        simp only [hmap] at h
        exact ih h

/-- What `allocuvm` returns when it is asked to grow. -/
theorem allocuvm_fst {m : Vm} {oldsz newsz : ℕ} {r : ℕ × Vm} (hle : oldsz ≤ newsz)
    (h : m.allocuvm oldsz newsz = .ok r) : r.1 = 0 ∨ r.1 = newsz := by
  rw [allocuvm] at h
  split_ifs at h with htop hlt
  · exact .inl (Except.ok.inj h ▸ rfl)
  · exact absurd hle (Nat.not_le.2 hlt)
  · exact allocPages_fst h

/-- What `deallocuvm` returns. -/
theorem deallocuvm_fst {m : Vm} {oldsz newsz : ℕ} {r : ℕ × Vm}
    (h : m.deallocuvm oldsz newsz = .ok r) : r.1 = min oldsz newsz := by
  rw [deallocuvm] at h
  split_ifs at h with hge
  · rw [← Except.ok.inj h]
    exact (Nat.min_eq_left hge).symm
  · cases hloop : (pages (PGROUNDUP newsz) oldsz).foldlM deallocPage m with
    | error e =>
      rw [hloop] at h
      cases h
    | ok m' =>
      rw [hloop] at h
      rw [← Except.ok.inj h]
      exact (Nat.min_eq_right (Nat.le_of_not_le hge)).symm

/-! ### What the loops keep -/

section

variable {I : Vm → Prop} {m : Vm} {oldsz newsz : ℕ} {as : List ℕ} {r : ℕ × Vm}

/-- `deallocuvm` keeps what every page that is freed keeps. -/
theorem deallocuvm_preserves (hfree : ∀ m a m', I m → m.deallocPage a = .ok m' → I m') (hm : I m)
    (h : m.deallocuvm oldsz newsz = .ok r) : I r.2 := by
  rw [deallocuvm] at h
  split_ifs at h
  · cases h
    exact hm
  · obtain ⟨m', hloop, h⟩ := GuardedLoop.bind_eq_ok_iff.1 h
    cases h
    exact GuardedLoop.foldlM_preserves hfree hm hloop

/-- The loop of `allocuvm` keeps what every page that is mapped or freed keeps. -/
theorem allocPages_preserves (hfree : ∀ m a m', I m → m.deallocPage a = .ok m' → I m')
    (hmap : ∀ a ∈ as, ∀ m mem m', I m → m.kalloc = some mem → mem.2.mappages a mem.1 = .ok m' →
      I m')
    (hm : I m) (h : allocPages oldsz newsz as m = .ok r) : I r.2 := by
  induction as generalizing m with
  | nil =>
    cases h
    exact hm
  | cons a as ih =>
    rw [allocPages] at h
    cases hmem : m.kalloc with
    | none =>
      rw [hmem] at h
      obtain ⟨s, hde, h⟩ := GuardedLoop.bind_eq_ok_iff.1 h
      have hs := deallocuvm_preserves hfree hm hde
      cases h
      exact hs
    | some mem =>
      rw [hmem] at h
      obtain ⟨m₁, hmap₁, h⟩ := GuardedLoop.bind_eq_ok_iff.1 h
      have hm₁ := hmap a List.mem_cons_self m mem m₁ hm hmem hmap₁
      exact ih (fun a' ha' ↦ hmap a' (List.mem_cons_of_mem a ha')) hm₁ h

theorem allocuvm_preserves (hfree : ∀ m a m', I m → m.deallocPage a = .ok m' → I m')
    (hmap : ∀ a ∈ pages (PGROUNDUP oldsz) newsz, ∀ m mem m', I m → m.kalloc = some mem →
      mem.2.mappages a mem.1 = .ok m' → I m')
    (hm : I m) (h : m.allocuvm oldsz newsz = .ok r) : I r.2 := by
  rw [allocuvm] at h
  split_ifs at h
  · cases h
    exact hm
  · cases h
    exact hm
  · exact allocPages_preserves hfree hmap hm h

end

/-! ### Which pages are mapped -/

/-- No page below page number `b` is mapped. -/
def FreeBelow (b : ℕ) (m : Vm) : Prop := ∀ n < b, m.pte n = none

variable {m m' : Vm} {b : ℕ}

theorem FreeBelow.mappages {a pa : ℕ} (hm : m.FreeBelow b) (ha : b * PGSIZE ≤ a)
    (h : m.mappages a pa = .ok m') : m'.FreeBelow b := by
  rw [Vm.mappages] at h
  split_ifs at h
  cases h
  have hpage : b ≤ a / PGSIZE := (Nat.le_div_iff_mul_le (by decide)).2 ha
  intro n hn
  exact (Function.update_of_ne (hn.trans_le hpage).ne _ _).trans (hm n hn)

theorem FreeBelow.deallocPage {a : ℕ} (hm : m.FreeBelow b) (h : m.deallocPage a = .ok m') :
    m'.FreeBelow b := by
  rw [Vm.deallocPage] at h
  split at h
  · cases h
    exact hm
  · split_ifs at h
    cases h
    intro n hn
    show Function.update m.pte (a / PGSIZE) none n = none
    rcases eq_or_ne n (a / PGSIZE) with rfl | hne
    · exact Function.update_self _ _ _
    · rw [Function.update_of_ne hne]
      exact hm n hn

theorem FreeBelow.deallocuvm {oldsz newsz : ℕ} {r : ℕ × Vm} (hm : m.FreeBelow b)
    (h : m.deallocuvm oldsz newsz = .ok r) : r.2.FreeBelow b :=
  deallocuvm_preserves (fun _ _ _ hm h ↦ hm.deallocPage h) hm h

theorem FreeBelow.kalloc {mem : ℕ × Vm} (hm : m.FreeBelow b) (hmem : m.kalloc = some mem) :
    mem.2.FreeBelow b := by
  rw [Vm.kalloc] at hmem
  split at hmem <;> cases hmem
  exact hm

theorem mem_pages {a lo top : ℕ} : a ∈ pages lo top ↔ ∃ i, a = lo + i * PGSIZE ∧ a < top := by
  have hcount : ∀ i, i < (top - lo + PGSIZE - 1) / PGSIZE ↔ lo + i * PGSIZE < top := by
    intro i
    rw [PGSIZE]
    omega
  rw [pages, List.mem_map]
  constructor
  · rintro ⟨i, hi, rfl⟩
    exact ⟨i, rfl, (hcount i).1 (List.mem_range.1 hi)⟩
  · rintro ⟨i, rfl, hlt⟩
    exact ⟨i, List.mem_range.2 ((hcount i).2 hlt), rfl⟩

/-- A size within user memory is rounded up to the next multiple of the page size. -/
theorem PGROUNDUP_spec {sz : ℕ} (hsz : sz ≤ USERTOP) :
    PGROUNDUP sz = (sz + PGSIZE - 1) / PGSIZE * PGSIZE := by
  rw [PGROUNDUP, uint, PGSIZE]
  rw [USERTOP] at hsz
  omega

theorem le_PGROUNDUP {sz : ℕ} (hsz : sz ≤ USERTOP) : sz ≤ PGROUNDUP sz := by
  rw [PGROUNDUP_spec hsz]
  rw [PGSIZE]
  omega

/-- The pages that `allocuvm` is asked for are below no page that lies below the old size. -/
theorem FreeBelow.allocuvm {oldsz newsz : ℕ} {r : ℕ × Vm} (hm : m.FreeBelow b)
    (hold : b * PGSIZE ≤ PGROUNDUP oldsz ∨ newsz ≤ PGROUNDUP oldsz)
    (h : m.allocuvm oldsz newsz = .ok r) : r.2.FreeBelow b := by
  refine allocuvm_preserves (fun _ _ _ hm h ↦ hm.deallocPage h)
    (fun a ha _ _ _ hm hmem hmap ↦ (hm.kalloc hmem).mappages ?_ hmap) hm h
  obtain ⟨i, rfl, hlt⟩ := mem_pages.1 ha
  omega

/-- When `allocPages` goes through, its pages are mapped and those that were mapped still are. -/
theorem allocPages_mapped {oldsz newsz : ℕ} {as : List ℕ} {r : ℕ × Vm}
    (h : allocPages oldsz newsz as m = .ok r) (hr : r.1 ≠ 0) :
    (∀ n, (m.pte n).isSome → (r.2.pte n).isSome) ∧ ∀ a ∈ as, (r.2.pte (a / PGSIZE)).isSome := by
  induction as generalizing m with
  | nil =>
    cases h
    exact ⟨fun _ hn ↦ hn, fun a ha ↦ absurd ha List.not_mem_nil⟩
  | cons a as ih =>
    rw [Vm.allocPages] at h
    cases hmem : m.kalloc with
    | none =>
      rw [hmem] at h
      obtain ⟨s, -, h⟩ := GuardedLoop.bind_eq_ok_iff.1 h
      cases h
      exact absurd rfl hr
    | some mem =>
      rw [hmem] at h
      obtain ⟨m₁, hmap, h⟩ := GuardedLoop.bind_eq_ok_iff.1 h
      have hpte : m₁.pte = Function.update m.pte (a / PGSIZE) (some mem.1) := by
        rw [kalloc] at hmem
        split at hmem <;> cases hmem
        rw [Vm.mappages] at hmap
        split_ifs at hmap
        cases hmap
        rfl
      obtain ⟨hkeep, has⟩ := ih h
      refine ⟨fun n hn ↦ hkeep n ?_, List.forall_mem_cons.2 ⟨hkeep _ ?_, has⟩⟩ <;> rw [hpte]
      · rcases eq_or_ne n (a / PGSIZE) with rfl | hne
        · rw [Function.update_self]
          rfl
        · rwa [Function.update_of_ne hne]
      · rw [Function.update_self]
        rfl

/-- When `allocuvm` grows the process, the pages from the old size to the new one are mapped. -/
theorem allocuvm_mapped {oldsz newsz : ℕ} {r : ℕ × Vm} (hold : oldsz ≤ newsz)
    (h : m.allocuvm oldsz newsz = .ok r) (hr : r.1 ≠ 0) :
    (∀ n, (m.pte n).isSome → (r.2.pte n).isSome) ∧
      ∀ n, PGROUNDUP oldsz ≤ n * PGSIZE → n * PGSIZE < newsz → (r.2.pte n).isSome := by
  rw [Vm.allocuvm] at h
  split_ifs at h with htop hlt
  · cases h
    exact absurd rfl hr
  · exact absurd hlt (Nat.not_lt.2 hold)
  · obtain ⟨hkeep, has⟩ := allocPages_mapped h hr
    refine ⟨hkeep, fun n hn hlt ↦ ?_⟩
    have hround : ∃ c, PGROUNDUP oldsz = c * PGSIZE := ⟨_, rfl⟩
    obtain ⟨c, hc⟩ := hround
    have hmem : n * PGSIZE ∈ pages (PGROUNDUP oldsz) newsz := by
      refine mem_pages.2 ⟨n - c, ?_, hlt⟩
      rw [hc] at hn ⊢
      rw [← Nat.add_mul, Nat.add_sub_cancel' (Nat.le_of_mul_le_mul_right hn (by decide))]
    have hn' := has _ hmem
    rwa [Nat.mul_div_cancel n (by decide)] at hn'

end Vm

/-! ### The two ends -/

/-- A process, as far as its memory is concerned. -/
structure Proc where
  sz : ℕ
  stackHead : ℕ
  killed : Bool
  vm : Vm

/-- Grow the memory of the process by `n` bytes. Returns 0 on success, -1 on failure. -/
def growproc (p : Proc) (n : ℤ) : Except Panic (ℤ × Proc) :=
  if int (uint (p.stackHead - p.sz - n)) < 5 * PGSIZE then
    .ok (-1, p)
  else if n > 0 then do
    let r ← p.vm.allocuvm p.sz (uint (p.sz + n))
    if r.1 = 0 then .ok (-1, { p with vm := r.2 }) else .ok (0, { p with sz := r.1, vm := r.2 })
  else if n < 0 then do
    let r ← p.vm.deallocuvm p.sz (uint (p.sz + n))
    if r.1 = 0 then .ok (-1, { p with vm := r.2 }) else .ok (0, { p with sz := r.1, vm := r.2 })
  else
    .ok (0, p)

/-- The addresses that `growstack` turns down: outside user memory, more than a page below the
stack, or in the gap above the heap. -/
def Refused (p : Proc) (newstack : ℕ) : Prop :=
  newstack < 0x2000 ∨ newstack ≥ USERTOP ∨ newstack < uint (p.stackHead - PGSIZE) ∨
    newstack < uint (p.sz + 5 * PGSIZE) ∧ newstack > p.sz

instance (p : Proc) (newstack : ℕ) : Decidable (Refused p newstack) :=
  inferInstanceAs (Decidable (_ ∨ _ ∨ _ ∨ _ ∧ _))

/-- Grow the stack by a page after a fault at address `newstack`. Returns 0 on success, -1 on
failure. -/
def growstack (p : Proc) (newstack : ℕ) : Except Panic (ℤ × Proc) :=
  if Refused p newstack then
    .ok (-1, p)
  else if uint (p.stackHead - p.sz) > 5 * PGSIZE then do
    let r ← p.vm.allocuvm (uint (p.stackHead - PGSIZE)) p.stackHead
    if 0 ≠ r.1 then
      .ok (0, { p with stackHead := uint (p.stackHead - PGSIZE), vm := r.2 })
    else
      .ok (-1, { p with vm := r.2 })
  else
    .ok (-1, p)

/-- The page-fault case of `trap`: a process whose stack cannot grow is killed. -/
def trapPgflt (p : Proc) (addr : ℕ) : Except Panic Proc := do
  let r ← growstack p addr
  if 0 ≠ r.1 then .ok { r.2 with killed := true } else .ok r.2

/-! ### Runs -/

/-- What can happen to the memory of a process. -/
inductive Action where
  /-- The process calls `sbrk`. -/
  | sbrk (n : Int32)
  /-- The process touches a page that it must not. -/
  | pgflt (addr : UInt32)
  /-- Others take pages from the allocator and give pages back. -/
  | others (freelist : List ℕ)

/-- One step of the process. -/
def step (p : Proc) : Action → Except Panic Proc
  | .sbrk n => do
    let r ← growproc p n.toInt
    .ok r.2
  | .pgflt addr => trapPgflt p addr.toNat
  | .others freelist => .ok { p with vm := { p.vm with freelist := freelist } }

end StackReloc
