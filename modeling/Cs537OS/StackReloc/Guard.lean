import Cs537OS.Foundation.GuardedLoop
import Cs537OS.Foundation.Transitions
import Cs537OS.StackReloc.Vm

/-!
# The gap between heap and stack

Both ends of the address space are kept five pages apart. `growproc` looks at the gap that would be
left after the change, and keeps it for every argument. `growstack` looks at the gap before the
change and wants more than five pages, which leaves five only when the gap is a whole number of
pages; `sbrk` takes any number of bytes.

* `growproc_guard` — `growproc` keeps the gap;
* `trapPgflt_apart_iff` — a page fault keeps it unless the stack grows in a gap of less than six
  pages (`Squeezed`);
* `apart_of_reachable` — so does every run without such a fault, and such a fault never does;
* `squeezedProcess_not_apart` — a fault of that kind.
-/

open Xv6

namespace StackReloc

/-- The heap end and the stack are at least five pages apart. -/
def Apart (p : Proc) : Prop := p.sz + 5 * PGSIZE ≤ p.stackHead

/-- The states from which the gap is to be kept. -/
structure Guard (p : Proc) : Prop where
  aligned : PGSIZE ∣ p.stackHead
  top : p.stackHead ≤ USERTOP
  apart : Apart p

variable {p p' : Proc}

/-! ### sbrk -/

theorem Guard.lt (h : Guard p) : p.stackHead < 2 ^ 32 := by
  have := h.top
  rw [USERTOP] at this
  omega

/-- A process that stays where it is, up to its page table. -/
theorem Guard.of_eq (h : Guard p) (hsz : p'.sz = p.sz) (hhead : p'.stackHead = p.stackHead) :
    Guard p' := by
  refine ⟨hhead ▸ h.aligned, hhead ▸ h.top, ?_⟩
  rw [Apart, hsz, hhead]
  exact h.apart

/-- A process that gives heap back. -/
theorem Guard.of_le (h : Guard p) (hsz : p'.sz ≤ p.sz) (hhead : p'.stackHead = p.stackHead) :
    Guard p' := by
  refine ⟨hhead ▸ h.aligned, hhead ▸ h.top, ?_⟩
  have happart := h.apart
  rw [Apart] at happart ⊢
  omega

/-- `growproc` looks at the gap that the change would leave. -/
theorem add_le_of_not_lt (hle : p.sz ≤ p.stackHead) (htop : p.stackHead ≤ USERTOP) {n : ℤ}
    (hn : 0 < n) (hmax : n < 2 ^ 31)
    (hgap : ¬ int (uint (p.stackHead - p.sz - n)) < 5 * PGSIZE) :
    uint (p.sz + n) = p.sz + n ∧ p.sz + n + 5 * PGSIZE ≤ p.stackHead := by
  rw [USERTOP] at htop
  rw [int, uint, PGSIZE] at hgap
  rw [uint, PGSIZE]
  split_ifs at hgap <;> omega

/-- A new size that came out 0 is an error and changes nothing. -/
theorem sz_of_resize {s : ℕ × Vm} {r : ℤ × Proc}
    (hr : (if s.1 = 0 then (.ok (-1, { p with vm := s.2 }) : Except Panic (ℤ × Proc))
      else .ok (0, { p with sz := s.1, vm := s.2 })) = .ok r) :
    (r.2.sz = p.sz ∨ r.2.sz = s.1) ∧ r.2.stackHead = p.stackHead := by
  split_ifs at hr
  · exact Except.ok.inj hr ▸ ⟨.inl rfl, rfl⟩
  · exact Except.ok.inj hr ▸ ⟨.inr rfl, rfl⟩

/-- **`growproc` keeps the gap**, whatever the argument and the allocator. -/
theorem growproc_guard (h : Guard p) {n : ℤ} (hmax : n < 2 ^ 31) {r : ℤ × Proc}
    (hr : growproc p n = .ok r) : Guard r.2 := by
  rw [growproc] at hr
  split_ifs at hr with hgap hpos hneg
  · exact Except.ok.inj hr ▸ h
  · obtain ⟨hsum, hle⟩ :=
      add_le_of_not_lt ((Nat.le_add_right _ _).trans h.apart) h.top hpos hmax hgap
    obtain ⟨s, hs, hr⟩ := GuardedLoop.bind_eq_ok_iff.1 hr
    obtain ⟨hsz, hhead⟩ := sz_of_resize hr
    have hs' := Vm.allocuvm_fst (by omega) hs
    refine ⟨hhead ▸ h.aligned, hhead ▸ h.top, ?_⟩
    have happart := h.apart
    rw [Apart] at happart ⊢
    -- an error leaves the old size, which `sz_of_resize` has as its first case
    have hzero : s.1 = 0 → r.2.sz = p.sz := by
      intro h0
      rw [if_pos h0] at hr
      exact Except.ok.inj hr ▸ rfl
    omega
  · obtain ⟨s, hs, hr⟩ := GuardedLoop.bind_eq_ok_iff.1 hr
    obtain ⟨hsz, hhead⟩ := sz_of_resize hr
    have hs' := Vm.deallocuvm_fst hs
    exact h.of_le (by omega) hhead
  · exact Except.ok.inj hr ▸ h

/-! ### Page faults -/

/-- The fault makes the stack grow in a gap of more than five and less than six pages. -/
def Squeezed (p : Proc) (addr : ℕ) : Prop :=
  ¬ Refused p addr ∧ p.stackHead - p.sz > 5 * PGSIZE ∧ p.stackHead - p.sz < 6 * PGSIZE ∧
    p.vm.freelist ≠ []

instance (p : Proc) (addr : ℕ) : Decidable (Squeezed p addr) :=
  inferInstanceAs (Decidable (_ ∧ _ ∧ _ ∧ _))

/-- The page below an aligned stack is the only one that `growstack` asks for. -/
theorem pages_below_stack {head : ℕ} (halign : PGSIZE ∣ head) (hpos : PGSIZE ≤ head)
    (htop : head ≤ USERTOP) : Vm.pages (PGROUNDUP (head - PGSIZE)) head = [head - PGSIZE] := by
  obtain ⟨c, rfl⟩ := halign
  have hround : PGROUNDUP (PGSIZE * c - PGSIZE) = PGSIZE * c - PGSIZE := by
    rw [PGROUNDUP, uint, PGSIZE]
    rw [PGSIZE] at hpos htop
    rw [USERTOP] at htop
    omega
  have hone : (PGSIZE * c - (PGSIZE * c - PGSIZE) + PGSIZE - 1) / PGSIZE = 1 := by
    rw [PGSIZE] at hpos ⊢
    omega
  rw [hround, Vm.pages, hone]
  simp

theorem allocuvm_below_stack {m : Vm} {head : ℕ} (halign : PGSIZE ∣ head) (hpos : PGSIZE ≤ head)
    (htop : head ≤ USERTOP) {s : ℕ × Vm} (hs : m.allocuvm (head - PGSIZE) head = .ok s) :
    s.1 = if m.freelist = [] then 0 else head := by
  rw [Vm.allocuvm, if_neg (Nat.not_lt.2 htop), if_neg (Nat.not_lt.2 (Nat.sub_le _ _)),
    pages_below_stack halign hpos htop, Vm.allocPages] at hs
  cases hfree : m.freelist with
  | nil =>
    have hnone : m.kalloc = none := by rw [Vm.kalloc, hfree]
    rw [hnone] at hs
    obtain ⟨t, -, ht⟩ := GuardedLoop.bind_eq_ok_iff.1 hs
    rw [← Except.ok.inj ht, if_pos rfl]
  | cons v next =>
    have hsome : m.kalloc = some (v, { m with freelist := next }) := by rw [Vm.kalloc, hfree]
    rw [hsome] at hs
    obtain ⟨t, -, ht⟩ := GuardedLoop.bind_eq_ok_iff.1 hs
    rw [← Except.ok.inj ht, if_neg (List.cons_ne_nil v next)]

/-- The two ends of a process whose stack has moved to `head`. -/
theorem ends_of_moved {head : ℕ} {m : Vm} {c : ℤ} {r : ℤ × Proc}
    (hr : (.ok (c, { p with stackHead := head, vm := m }) : Except Panic (ℤ × Proc)) = .ok r) :
    r.2.sz = p.sz ∧ r.2.stackHead = head :=
  Except.ok.inj hr ▸ ⟨rfl, rfl⟩

/-- `growstack` moves the stack down by a page, exactly when the address is not refused, there are
more than five pages, and one can be allocated. -/
theorem growstack_cases (h : Guard p) {addr : ℕ} {r : ℤ × Proc} (hr : growstack p addr = .ok r) :
    r.2.sz = p.sz ∧ r.2.stackHead =
      if ¬ Refused p addr ∧ p.stackHead - p.sz > 5 * PGSIZE ∧ p.vm.freelist ≠ [] then
        p.stackHead - PGSIZE else p.stackHead := by
  have happart : p.sz + 5 * PGSIZE ≤ p.stackHead := h.apart
  have hpage : PGSIZE ≤ p.stackHead := by omega
  have hgap : uint (p.stackHead - p.sz) = p.stackHead - p.sz := uint_sub (by omega) h.lt
  have hhead : uint (p.stackHead - PGSIZE) = p.stackHead - PGSIZE := uint_sub hpage h.lt
  rw [growstack, hgap, hhead] at hr
  split_ifs at hr with hrefused hwide
  · rw [if_neg fun hc ↦ hc.1 hrefused]
    exact Except.ok.inj hr ▸ ⟨rfl, rfl⟩
  · obtain ⟨s, hs, hr⟩ := GuardedLoop.bind_eq_ok_iff.1 hr
    rw [allocuvm_below_stack h.aligned hpage h.top hs] at hr
    by_cases hfree : p.vm.freelist = []
    · rw [if_pos hfree, if_neg (not_not.2 rfl)] at hr
      rw [if_neg fun hc ↦ hc.2.2 hfree]
      exact Except.ok.inj hr ▸ ⟨rfl, rfl⟩
    · have hne : 0 ≠ p.stackHead := by
        have hpos : 0 < PGSIZE := by decide
        omega
      rw [if_neg hfree, if_pos hne] at hr
      rw [if_pos ⟨hrefused, hwide, hfree⟩]
      exact ends_of_moved hr
  · rw [if_neg fun hc ↦ hwide hc.2.1]
    exact Except.ok.inj hr ▸ ⟨rfl, rfl⟩

/-- A page fault changes the process as `growstack` does, and may kill it. -/
theorem trapPgflt_cases (h : Guard p) {addr : ℕ} (hr : trapPgflt p addr = .ok p') :
    p'.sz = p.sz ∧ p'.stackHead =
      if ¬ Refused p addr ∧ p.stackHead - p.sz > 5 * PGSIZE ∧ p.vm.freelist ≠ [] then
        p.stackHead - PGSIZE else p.stackHead := by
  obtain ⟨r, hgrow, hr⟩ := GuardedLoop.bind_eq_ok_iff.1 hr
  have hcases := growstack_cases h hgrow
  split_ifs at hr
  · exact Except.ok.inj hr ▸ hcases
  · exact Except.ok.inj hr ▸ hcases

/-- **A page fault keeps the gap unless the stack grows in one of less than six pages.** -/
theorem trapPgflt_apart_iff (h : Guard p) {addr : ℕ} (hr : trapPgflt p addr = .ok p') :
    Apart p' ↔ ¬ Squeezed p addr := by
  obtain ⟨hsz, hhead⟩ := trapPgflt_cases h hr
  have happart : p.sz + 5 * PGSIZE ≤ p.stackHead := h.apart
  rw [Apart, Squeezed]
  rw [hsz, hhead]
  split_ifs with hgrows
  · obtain ⟨hrefused, hwide, hfree⟩ := hgrows
    constructor
    · rintro hle ⟨-, -, hnarrow, -⟩
      omega
    · intro hnot
      by_contra hlt
      exact hnot ⟨hrefused, hwide, by omega, hfree⟩
  · exact iff_of_true happart fun hsq ↦ hgrows ⟨hsq.1, hsq.2.1, hsq.2.2.2⟩

/-- A fault that keeps the gap keeps the rest of the guard. -/
theorem trapPgflt_guard (h : Guard p) {addr : ℕ} (hr : trapPgflt p addr = .ok p')
    (happart : Apart p') : Guard p' := by
  obtain ⟨-, hhead⟩ := trapPgflt_cases h hr
  have htop := h.top
  split_ifs at hhead with hgrows
  · refine ⟨hhead ▸ Nat.dvd_sub h.aligned dvd_rfl, ?_, happart⟩
    omega
  · exact ⟨hhead ▸ h.aligned, hhead ▸ htop, happart⟩

/-! ### Runs -/

/-- The runs from a state with a gap of five pages. -/
def system : System Proc Action where
  init := Guard
  next p a p' := step p a = .ok p'

/-- The step is not a page fault that makes the stack grow in a gap of less than six pages. -/
def Meets (p : Proc) : Action → Prop
  | .pgflt addr => ¬ Squeezed p addr.toNat
  | _ => True

/-- What a step does to the gap. -/
theorem step_apart_iff (h : Guard p) {a : Action} (hstep : step p a = .ok p') :
    Apart p' ↔ Meets p a := by
  cases a with
  | sbrk n =>
    obtain ⟨r, hr, hr'⟩ := GuardedLoop.bind_eq_ok_iff.1 hstep
    have hguard := growproc_guard h (Int32.toInt_lt n) hr
    exact iff_of_true (Except.ok.inj hr' ▸ hguard.apart) trivial
  | pgflt addr => exact trapPgflt_apart_iff h hstep
  | others freelist => exact iff_of_true (Except.ok.inj hstep ▸ h.apart) trivial

/-- A step that meets the condition keeps the guard. -/
theorem step_guard (h : Guard p) {a : Action} (ha : Meets p a) (hstep : step p a = .ok p') :
    Guard p' := by
  cases a with
  | sbrk n =>
    obtain ⟨r, hr, hr'⟩ := GuardedLoop.bind_eq_ok_iff.1 hstep
    exact Except.ok.inj hr' ▸ growproc_guard h (Int32.toInt_lt n) hr
  | pgflt addr => exact trapPgflt_guard h hstep ((trapPgflt_apart_iff h hstep).2 ha)
  | others freelist => exact Except.ok.inj hstep ▸ h.of_eq rfl rfl

/-- **In every run without a fault in a gap of less than six pages the gap is kept, and such a fault
never keeps it.** -/
theorem apart_of_reachable (hp : (system.restrict Meets).Reachable p) :
    Apart p ∧ ∀ a p', step p a = .ok p' → (Apart p' ↔ Meets p a) := by
  have hguard : Guard p := by
    refine hp.invariant (fun _ hs ↦ hs) ?_
    rintro s a t hs ⟨ha, hstep⟩
    exact step_guard hs ha hstep
  exact ⟨hguard.apart, fun a p' hstep ↦ step_apart_iff hguard hstep⟩

/-- A process of three pages right after `exec`. -/
def execedProcess : Proc where
  sz := 0x3000
  stackHead := USERTOP - PGSIZE
  killed := false
  vm := ⟨fun n ↦ if n = 2 ∨ n = 0x9F then some (0x100 + n) else none, [0x200, 0x201]⟩

theorem execedProcess_apart :
    Apart execedProcess ∧
      ∀ a p', step execedProcess a = .ok p' → (Apart p' ↔ Meets execedProcess a) :=
  apart_of_reachable (.init ⟨by decide, by decide, by unfold Apart; decide⟩)

/-- The same process after an `sbrk` that leaves five pages and one byte. -/
def squeezedProcess : Proc where
  sz := 0x99FFF
  stackHead := USERTOP - PGSIZE
  killed := false
  vm := ⟨fun n ↦ if 2 ≤ n ∧ n ≤ 0x99 ∨ n = 0x9F then some (0x100 + n) else none, [0x200, 0x201]⟩

/-- **The stack comes closer than five pages to the heap**: a fault right below the stack makes it
grow by a page although only five pages and one byte are left. -/
theorem squeezedProcess_not_apart : ¬ ∀ p, system.Reachable p → Apart p := by
  intro hall
  have hguard : Guard squeezedProcess := ⟨by decide, by decide, by unfold Apart; decide⟩
  have hsqueezed : Squeezed squeezedProcess 0x9EFFF := by decide
  obtain ⟨p', hp'⟩ : ∃ p', step squeezedProcess (.pgflt 0x9EFFF) = .ok p' := ⟨_, rfl⟩
  have hreach : system.Reachable p' := .step _ (.init hguard) hp'
  exact (trapPgflt_apart_iff hguard hp').1 (hall p' hreach) hsqueezed

end StackReloc
