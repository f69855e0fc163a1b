import Cs537OS.StackReloc.Exec
import Cs537OS.StackReloc.Guard

/-!
# The pages at address zero

The first two pages of user memory are kept free, so that a null pointer leads nowhere: `exec` loads
a program behind them, `fork` does not copy them and `growstack` does not touch them. `growproc`
checks the gap to the stack and forgets these pages: a process can give back everything down to the
end of the first page and grow again from there. And `exec` does not look at the addresses of the
segments: it can load one over a page table.

* `lowFree_of_reachable` — in every run without such a growth (`LowGrowth`) and without such a
  segment no process has a page below `2 * PGSIZE`, and such a growth always maps one when it
  succeeds;
* `shrunkProcess_not_lowFree` — a program of one page shrinks by two pages and grows by one.

The stack stays away from the low pages because it never comes below the heap, `sz ≤ stackHead`.
`exec` has no check for this, but a program that large has the page of the stack for its own, and
mapping it again is a panic (`loadSegments_le`).
-/

open Xv6

namespace StackReloc

/-- No page below `2 * PGSIZE` is mapped. -/
def LowFree (p : Proc) : Prop := p.vm.FreeBelow 2

/-- `sbrk` makes the heap grow beyond the first page from an end that lies in it. -/
def LowGrowth (p : Proc) (n : ℤ) : Prop :=
  0 < n ∧ ¬ int (uint (p.stackHead - p.sz - n)) < 5 * PGSIZE ∧ p.sz ≤ PGSIZE ∧ PGSIZE < p.sz + n ∧
    p.vm.freelist ≠ []

/-- What holds of every process. -/
structure NullGuard (p : Proc) : Prop where
  low : LowFree p
  pos : 0 < p.sz
  le : p.sz ≤ p.stackHead
  stack : 2 * PGSIZE ≤ p.stackHead
  top : p.stackHead ≤ USERTOP

variable {p p' : Proc}

/-- The pages and the two ends are the same. -/
theorem NullGuard.of_eq (h : NullGuard p) (hpte : p'.vm.pte = p.vm.pte) (hsz : p'.sz = p.sz)
    (hhead : p'.stackHead = p.stackHead) : NullGuard p' := by
  refine ⟨?_, hsz ▸ h.pos, ?_, hhead ▸ h.stack, hhead ▸ h.top⟩
  · rw [LowFree, Vm.FreeBelow, hpte]
    exact h.low
  · rw [hsz, hhead]
    exact h.le

/-! ### sbrk -/

/-- A resize that may have failed. -/
theorem NullGuard.resize (h : NullGuard p) {s : ℕ × Vm} {r : ℤ × Proc}
    (hlow : s.2.FreeBelow 2) (hle : s.1 ≤ p.stackHead)
    (hr : (if s.1 = 0 then (.ok (-1, { p with vm := s.2 }) : Except Panic (ℤ × Proc))
      else .ok (0, { p with sz := s.1, vm := s.2 })) = .ok r) : NullGuard r.2 := by
  split_ifs at hr with hzero
  · cases hr
    exact ⟨hlow, h.pos, h.le, h.stack, h.top⟩
  · cases hr
    exact ⟨hlow, Nat.pos_of_ne_zero hzero, hle, h.stack, h.top⟩

/-- Without free pages nothing is mapped. -/
theorem allocuvm_nil {m : Vm} {oldsz newsz : ℕ} {r : ℕ × Vm} (hm : m.FreeBelow 2)
    (hfree : m.freelist = []) (h : m.allocuvm oldsz newsz = .ok r) : r.2.FreeBelow 2 := by
  rw [Vm.allocuvm] at h
  split_ifs at h
  · cases h
    exact hm
  · cases h
    exact hm
  · generalize Vm.pages (PGROUNDUP oldsz) newsz = as at h
    cases as with
    | nil =>
      cases h
      exact hm
    | cons a as =>
      have hnone : m.kalloc = none := by rw [Vm.kalloc, hfree]
      rw [Vm.allocPages, hnone] at h
      obtain ⟨s, hde, h⟩ := GuardedLoop.bind_eq_ok_iff.1 h
      have hs := hm.deallocuvm hde
      cases h
      exact hs

theorem PGROUNDUP_of_le_page {sz : ℕ} (hpos : 0 < sz) (hsz : sz ≤ PGSIZE) :
    PGROUNDUP sz = PGSIZE := by
  rw [PGSIZE] at hsz
  rw [PGROUNDUP, uint, PGSIZE]
  omega

theorem two_pages_le_PGROUNDUP {sz : ℕ} (hsz : PGSIZE < sz) (htop : sz ≤ USERTOP) :
    2 * PGSIZE ≤ PGROUNDUP sz := by
  rw [Vm.PGROUNDUP_spec htop]
  rw [PGSIZE] at hsz ⊢
  omega

/-- **`growproc` keeps the guard** unless the heap grows from the first page. -/
theorem growproc_nullGuard (h : NullGuard p) {n : ℤ} (hmax : n < 2 ^ 31) (hn : ¬ LowGrowth p n)
    {r : ℤ × Proc} (hr : growproc p n = .ok r) : NullGuard r.2 := by
  have hsz : p.sz ≤ USERTOP := h.le.trans h.top
  rw [growproc] at hr
  split_ifs at hr with hgap hpos hneg
  · cases hr
    exact h
  · obtain ⟨hsum, hle⟩ := add_le_of_not_lt h.le h.top hpos hmax hgap
    obtain ⟨s, hs, hr⟩ := GuardedLoop.bind_eq_ok_iff.1 hr
    refine h.resize ?_ ?_ hr
    · by_cases hfree : p.vm.freelist = []
      · exact allocuvm_nil h.low hfree hs
      · refine h.low.allocuvm ?_ hs
        by_cases hpage : p.sz ≤ PGSIZE
        · right
          rw [PGROUNDUP_of_le_page h.pos hpage]
          by_contra! hlt
          exact hn ⟨hpos, hgap, hpage, by omega, hfree⟩
        · exact .inl (two_pages_le_PGROUNDUP (not_le.1 hpage) hsz)
    · have hs' := Vm.allocuvm_fst (by omega) hs
      omega
  · obtain ⟨s, hs, hr⟩ := GuardedLoop.bind_eq_ok_iff.1 hr
    refine h.resize (h.low.deallocuvm hs) ?_ hr
    rw [Vm.deallocuvm_fst hs]
    exact (Nat.min_le_left _ _).trans h.le
  · cases hr
    exact h

/-- A growth from the first page maps the second one when it succeeds. -/
theorem growproc_lowGrowth (h : NullGuard p) {n : ℤ} (hmax : n < 2 ^ 31) (hn : LowGrowth p n)
    {r : ℤ × Proc} (hr : growproc p n = .ok r) (hok : r.1 = 0) : ¬ LowFree r.2 := by
  obtain ⟨hpos, hgap, hpage, hlt, -⟩ := hn
  obtain ⟨hsum, -⟩ := add_le_of_not_lt h.le h.top hpos hmax hgap
  rw [growproc, if_neg hgap, if_pos hpos] at hr
  obtain ⟨s, hs, hr⟩ := GuardedLoop.bind_eq_ok_iff.1 hr
  split_ifs at hr with hzero
  · cases hr
    cases hok
  · cases hr
    obtain ⟨-, hmapped⟩ := Vm.allocuvm_mapped (by omega) hs hzero
    intro hlow
    have hsome : (s.2.pte 1).isSome := by
      refine hmapped 1 ?_ (by omega)
      rw [PGROUNDUP_of_le_page h.pos hpage, Nat.one_mul]
    rw [hlow 1 (by decide)] at hsome
    cases hsome

/-! ### Page faults -/

/-- A process with new ends and new pages. -/
theorem nullGuard_of_ok {sz head : ℕ} {m : Vm} {c : ℤ} {r : ℤ × Proc} (hlow : m.FreeBelow 2)
    (hpos : 0 < sz) (hle : sz ≤ head) (hstack : 2 * PGSIZE ≤ head) (htop : head ≤ USERTOP)
    (hr : (.ok (c, { p with sz := sz, stackHead := head, vm := m }) :
      Except Panic (ℤ × Proc)) = .ok r) : NullGuard r.2 := by
  cases hr
  exact ⟨hlow, hpos, hle, hstack, htop⟩

/-- **A page fault keeps the guard**: the stack only grows when it is more than five pages above the
heap. -/
theorem trapPgflt_nullGuard (h : NullGuard p) {addr : ℕ} (hr : trapPgflt p addr = .ok p') :
    NullGuard p' := by
  have hlt : p.stackHead < 2 ^ 32 := by
    have htop := h.top
    rw [USERTOP] at htop
    omega
  have hgrow : ∀ r, growstack p addr = .ok r → NullGuard r.2 := by
    intro r hr
    rw [growstack, uint_sub h.le hlt] at hr
    split_ifs at hr with hrefused hgap
    · cases hr
      exact h
    · have hpage : PGSIZE ≤ p.stackHead := by omega
      rw [uint_sub hpage hlt] at hr
      obtain ⟨s, hs, hr⟩ := GuardedLoop.bind_eq_ok_iff.1 hr
      have hlow : s.2.FreeBelow 2 := by
        refine h.low.allocuvm (.inl ?_) hs
        have htop := h.top
        refine le_trans ?_ (Vm.le_PGROUNDUP (by omega))
        omega
      split_ifs at hr
      · exact nullGuard_of_ok hlow h.pos (by omega) (by omega) ((Nat.sub_le _ _).trans h.top) hr
      · exact nullGuard_of_ok hlow h.pos h.le h.stack h.top hr
    · cases hr
      exact h
  obtain ⟨r, hr', hr⟩ := GuardedLoop.bind_eq_ok_iff.1 hr
  have hguard := hgrow r hr'
  split_ifs at hr
  · cases hr
    exact hguard.of_eq rfl rfl rfl
  · cases hr
    exact hguard

/-! ### exec -/

namespace Vm

variable {m : Vm}

/-- All pages from the third one to `sz` are mapped, and none below. -/
structure Loaded (sz : ℕ) (m : Vm) : Prop where
  low : m.FreeBelow 2
  two : 2 * PGSIZE ≤ sz
  top : sz ≤ USERTOP
  mapped : ∀ n, 2 ≤ n → n * PGSIZE < sz → (m.pte n).isSome

/-- A segment extends what is loaded, if there is memory for it. -/
theorem Loaded.allocuvm {sz newsz : ℕ} {r : ℕ × Vm} (hm : m.Loaded sz)
    (h : m.allocuvm sz newsz = .ok r) (hr : r.1 ≠ 0) : r.2.Loaded r.1 := by
  have hround : 2 * PGSIZE ≤ PGROUNDUP sz := hm.two.trans (le_PGROUNDUP hm.top)
  have hlow : r.2.FreeBelow 2 := hm.low.allocuvm (.inl hround) h
  by_cases hle : sz ≤ newsz
  · have hsize : r.1 = newsz := (allocuvm_fst hle h).resolve_left hr
    obtain ⟨hkeep, hnew⟩ := allocuvm_mapped hle h hr
    refine ⟨hlow, hsize ▸ hm.two.trans hle, ?_, fun n hn hlt ↦ ?_⟩
    · rw [Vm.allocuvm] at h
      split_ifs at h with htop hlt
      · cases h
        exact absurd rfl hr
      · exact absurd hle (not_le.2 hlt)
      · exact hsize.le.trans (not_lt.1 htop)
    · rcases Nat.lt_or_ge (n * PGSIZE) sz with hbelow | habove
      · exact hkeep n (hm.mapped n hn hbelow)
      · -- a page that starts at or above `sz` starts at or above `sz` rounded up
        refine hnew n ?_ (hsize ▸ hlt)
        rw [PGROUNDUP_spec hm.top]
        rw [PGSIZE] at habove ⊢
        omega
  · have hsame : r = (sz, m) ∨ r = (0, m) := by
      rw [Vm.allocuvm, if_pos (not_le.1 hle)] at h
      split_ifs at h
      · cases h
        exact .inr rfl
      · cases h
        exact .inl rfl
    obtain rfl | rfl := hsame
    · exact hm
    · exact absurd rfl hr

theorem Loaded.loadSegments {phs : List Proghdr} {sz sz' : ℕ} {m' : Vm} (hm : m.Loaded sz)
    (h : loadSegments phs sz m = .ok (some sz', m')) : m'.Loaded sz' := by
  induction phs generalizing sz m with
  | nil =>
    cases h
    exact hm
  | cons ph phs ih =>
    rw [Vm.loadSegments] at h
    split at h
    · cases h
    split at h
    · exact ih hm h
    split at h
    · cases h
    obtain ⟨r, hr, h⟩ := GuardedLoop.bind_eq_ok_iff.1 h
    split at h
    · cases h
    · next hne =>
      split at h
      · cases h
      split at h
      · cases h
      exact ih (hm.allocuvm hr hne) h

/-- The program leaves the page of the stack alone, or mapping it is a panic. -/
theorem Loaded.le_of_stack {sz : ℕ} {s : ℕ × Vm} (hm : m.Loaded sz)
    (h : m.allocuvm (USERTOP - PGSIZE) USERTOP = .ok s) (hs : s.1 ≠ 0) :
    sz ≤ USERTOP - PGSIZE := by
  by_contra! hlt
  have hpages : pages (PGROUNDUP (USERTOP - PGSIZE)) USERTOP = [0x9F000] := by decide
  have hmapped : (m.pte (0x9F000 / PGSIZE)).isSome := hm.mapped 0x9F (by decide) hlt
  rw [Vm.allocuvm, if_neg (lt_irrefl _), if_neg (by decide), hpages, allocPages] at h
  cases hmem : m.kalloc with
  | none =>
    rw [hmem] at h
    obtain ⟨t, -, h⟩ := GuardedLoop.bind_eq_ok_iff.1 h
    cases h
    exact hs rfl
  | some mem =>
    rw [hmem] at h
    obtain ⟨t, hmap, -⟩ := GuardedLoop.bind_eq_ok_iff.1 h
    have hsame : mem.2.pte = m.pte := by
      rw [kalloc] at hmem
      split at hmem <;> cases hmem
      rfl
    rw [mappages, hsame, if_pos hmapped] at hmap
    cases hmap

end Vm

/-- A process whose list of free pages changes. -/
theorem NullGuard.setFreelist (h : NullGuard p) (freelist : List ℕ) :
    NullGuard (p.setFreelist freelist) :=
  h.of_eq rfl rfl rfl

/-- **A program that is executed starts with the guard**, whatever was before; one that cannot be
executed changes nothing but the free pages. -/
theorem exec_nullGuard {prog : Program} {r : ℤ × Proc} (h : r.1 ≠ 0 → NullGuard p)
    (hr : exec p prog = .ok r) : NullGuard r.2 := by
  have hfail : (-1 : ℤ) ≠ 0 := by decide
  rw [exec] at hr
  split at hr
  · cases hr
    exact h hfail
  obtain ⟨⟨size, m⟩, hload, hr⟩ := GuardedLoop.bind_eq_ok_iff.1 hr
  cases size with
  | none =>
    obtain ⟨_, -, hr⟩ := GuardedLoop.bind_eq_ok_iff.1 hr
    cases hr
    exact (h hfail).setFreelist _
  | some sz =>
    obtain ⟨s, hs, hr⟩ := GuardedLoop.bind_eq_ok_iff.1 hr
    split at hr
    · cases hr
    · next hne =>
      split at hr
      · obtain ⟨_, -, hr⟩ := GuardedLoop.bind_eq_ok_iff.1 hr
        cases hr
        exact (h hfail).setFreelist _
      · obtain ⟨old, -, hr⟩ := GuardedLoop.bind_eq_ok_iff.1 hr
        have hempty : (Vm.setupkvm p.vm.freelist).Loaded (2 * PGSIZE) := by
          refine ⟨fun _ _ ↦ rfl, le_rfl, by decide, fun n hn hlt ↦ ?_⟩
          exact absurd (Nat.lt_of_mul_lt_mul_right hlt) (not_lt.2 hn)
        have hloaded := hempty.loadSegments hload
        have hlow : s.2.FreeBelow 2 := hloaded.low.allocuvm (.inl (by decide)) hs
        have hlow' : Vm.FreeBelow 2 { s.2 with freelist := old.freelist } := hlow
        have hpos : 0 < sz := lt_of_lt_of_le (by decide) hloaded.two
        exact nullGuard_of_ok hlow' hpos (hloaded.le_of_stack hs hne) (by decide) (Nat.sub_le _ _)
          hr

/-! ### fork -/

namespace Vm

theorem FreeBelow.copyPages {pte : ℕ → Option ℕ} {is : List ℕ} {d : Vm} {r : Bool × Vm}
    (hd : d.FreeBelow 2) (his : ∀ i ∈ is, 2 * PGSIZE ≤ i) (h : copyPages pte is d = .ok r) :
    r.2.FreeBelow 2 := by
  induction is generalizing d with
  | nil =>
    cases h
    exact hd
  | cons i is ih =>
    rw [Vm.copyPages] at h
    split at h
    · cases h
    · cases hmem : d.kalloc with
      | none =>
        rw [hmem] at h
        cases h
        exact hd
      | some mem =>
        rw [hmem] at h
        obtain ⟨d₁, hmap, h⟩ := GuardedLoop.bind_eq_ok_iff.1 h
        exact ih ((hd.kalloc hmem).mappages (his i List.mem_cons_self) hmap)
          (fun i' hi' ↦ his i' (List.mem_cons_of_mem i hi')) h

/-- The copy of an address space whose stack is above the two pages. -/
theorem copyuvm_freeBelow {m : Vm} {sz stackaddr : ℕ} {r : Bool × Vm}
    (hstack : 2 * PGSIZE ≤ stackaddr) (h : m.copyuvm sz stackaddr = .ok r) (hr : r.1) :
    r.2.FreeBelow 2 := by
  have hpages {lo top : ℕ} (hlo : 2 * PGSIZE ≤ lo) : ∀ i ∈ pages lo top, 2 * PGSIZE ≤ i := by
    intro i hi
    obtain ⟨j, rfl, -⟩ := mem_pages.1 hi
    exact hlo.trans (Nat.le_add_right _ _)
  have hempty : (setupkvm m.freelist).FreeBelow 2 := fun _ _ ↦ rfl
  obtain ⟨s, hcopy, h⟩ := GuardedLoop.bind_eq_ok_iff.1 h
  have hlow := hempty.copyPages (List.forall_mem_append.2 ⟨hpages le_rfl, hpages hstack⟩) hcopy
  split at h
  · cases h
    exact hlow
  · obtain ⟨d, -, h⟩ := GuardedLoop.bind_eq_ok_iff.1 h
    cases h
    cases hr

end Vm

/-- **`fork` keeps the guard** and gives it to the child. -/
theorem fork_nullGuard (h : NullGuard p) {r : Proc × Option Proc} (hr : fork p = .ok r) :
    NullGuard r.1 ∧ ∀ c, r.2 = some c → NullGuard c := by
  obtain ⟨s, hs, hr⟩ := GuardedLoop.bind_eq_ok_iff.1 hr
  split at hr
  · next hok =>
    cases hr
    refine ⟨h.setFreelist _, ?_⟩
    rintro c ⟨⟩
    exact ⟨Vm.copyuvm_freeBelow h.stack hs hok, h.pos, h.le, h.stack, h.top⟩
  · cases hr
    exact ⟨h.setFreelist _, nofun⟩

/-! ### Runs -/

/-- No heap grows from the first page, and no segment is loaded over memory of others. -/
def KeepsGuard (ps : Procs) (a : Slot × ProcAction) : Prop :=
  match a.2 with
  | .memory (.sbrk n) => ∀ p, ps a.1 = some p → ¬ LowGrowth p n.toInt
  | a => ¬ a.Stray

theorem orPanic_eq_ok {α : Type} {x : Except Panic α} {y : α} (h : orPanic x = .ok y) :
    x = .ok y := by
  cases x with
  | error e => cases h
  | ok x =>
    cases h
    rfl

/-- All processes are guarded. -/
def Procs.NullGuard (ps : Procs) : Prop := ∀ q p, ps q = some p → StackReloc.NullGuard p

/-- One process changes; every step but a `fork` goes through this. -/
theorem Procs.NullGuard.update {ps : Procs} {q : Slot} {o : Option Proc} (h : ps.NullGuard)
    (ho : ∀ p, o = some p → StackReloc.NullGuard p) :
    Procs.NullGuard (Function.update ps q o) := by
  intro i p hi
  rcases eq_or_ne i q with rfl | hne
  · rw [Function.update_self] at hi
    exact ho p hi
  · rw [Function.update_of_ne hne] at hi
    exact h i p hi

theorem Procs.NullGuard.update_some {ps : Procs} {q : Slot} (h : ps.NullGuard)
    (hp : StackReloc.NullGuard p) : Procs.NullGuard (Function.update ps q (some p)) := by
  refine h.update ?_
  rintro _ ⟨⟩
  exact hp

/-- A step that meets the condition keeps all processes guarded. -/
theorem Procs.step_nullGuard {ps ps' : Procs} {q : Slot} {a : ProcAction} (h : ps.NullGuard)
    (ha : KeepsGuard ps (q, a)) (hstep : ps.step q a = .ok ps') : ps'.NullGuard := by
  rw [Procs.step] at hstep
  split at hstep
  · cases hstep
  · next p hq =>
    have hp := h q p hq
    cases a with
    | memory a =>
      obtain ⟨p', hp', hstep⟩ := GuardedLoop.bind_eq_ok_iff.1 hstep
      cases hstep
      refine h.update_some ?_
      have hp' := orPanic_eq_ok hp'
      cases a with
      | sbrk n =>
        obtain ⟨r, hr, hr'⟩ := GuardedLoop.bind_eq_ok_iff.1 hp'
        cases hr'
        exact growproc_nullGuard hp (Int32.toInt_lt n) (ha p hq) hr
      | pgflt addr => exact trapPgflt_nullGuard hp hp'
      | others freelist =>
        cases hp'
        exact hp.setFreelist freelist
    | exec prog =>
      obtain ⟨r, hr, hstep⟩ := GuardedLoop.bind_eq_ok_iff.1 hstep
      cases hstep
      exact h.update_some (exec_nullGuard (fun _ ↦ hp) (orPanic_eq_ok hr))
    | fork c =>
      dsimp only at hstep
      split at hstep
      · obtain ⟨r, hr, hstep⟩ := GuardedLoop.bind_eq_ok_iff.1 hstep
        cases hstep
        obtain ⟨hparent, hchild⟩ := fork_nullGuard hp (orPanic_eq_ok hr)
        exact (h.update_some hparent).update hchild
      · cases hstep
    | exit =>
      cases hstep
      exact h.update nofun

theorem KeepsGuard.not_stray {ps : Procs} {q : Slot} {a : ProcAction} (h : KeepsGuard ps (q, a)) :
    ¬ a.Stray := by
  cases a with
  | exec prog => exact h
  | _ => exact id

/-- **The null guard holds in every run in which no heap grows from the first page and no segment
is loaded over memory of others**, and a growth that succeeds breaks it exactly when it is one of
these. -/
theorem lowFree_of_reachable {start : Program} (hstart : ¬ (ProcAction.exec start).Stray)
    {ps : Procs} (hps : ((procSystem start).restrict KeepsGuard).Reachable ps) :
    (∀ q p, ps q = some p → LowFree p) ∧
      ∀ q p (n : Int32) r, ps q = some p → growproc p n.toInt = .ok r → r.1 = 0 →
        (LowFree r.2 ↔ ¬ LowGrowth p n.toInt) := by
  have hguard : ps.NullGuard := by
    refine hps.invariant ?_ ?_
    · rintro ps ⟨q, p, p', hexec, hps⟩
      obtain rfl := hps.resolve_right hstart
      refine Procs.NullGuard.update_some (fun _ _ ↦ nofun) ?_
      exact exec_nullGuard (fun hne ↦ absurd rfl hne) hexec
    · rintro ps ⟨q, a⟩ ps' h ⟨ha, hstep⟩
      exact Procs.step_nullGuard h ha (hstep.resolve_right fun hstray ↦ ha.not_stray hstray.2)
  refine ⟨fun q p hq ↦ (hguard q p hq).low, fun q p n r hq hr hok ↦ ⟨fun hlow hgrow ↦ ?_, ?_⟩⟩
  · exact growproc_lowGrowth (hguard q p hq) (Int32.toInt_lt n) hgrow hr hok hlow
  · exact fun hn ↦ (growproc_nullGuard (hguard q p hq) (Int32.toInt_lt n) hn hr).low

/-- A program of one page. -/
def onePage : Program where
  valid := true
  phdrs := [⟨true, 0x2000, 0x1000, 0x1000, true, true⟩]
  args := true

/-- The process that executes it. -/
def startedProcess : Proc where
  sz := 0x3000
  stackHead := USERTOP - PGSIZE
  killed := false
  vm := ⟨Function.update (Function.update (fun _ ↦ none) 2 (some 0x200)) 0x9F (some 0x201), [0x202]⟩

def startedProcs : Procs := Function.update (fun _ ↦ none) initproc (some startedProcess)

set_option maxRecDepth 20000 in
theorem startedProcs_init : (procSystem onePage).init startedProcs := by
  refine ⟨initproc, ⟨0, 0, false, ⟨fun _ ↦ none, [0x200, 0x201, 0x202]⟩⟩, startedProcess, ?_,
    .inl rfl⟩
  rfl

theorem onePage_not_stray : ¬ (ProcAction.exec onePage).Stray := by
  rintro ⟨-, -, ⟨-, -, -, -, -, hstray⟩ | ⟨-, hstray⟩⟩
  · exact absurd hstray (by decide)
  · exact hstray

theorem startedProcess_lowFree : LowFree startedProcess :=
  (lowFree_of_reachable onePage_not_stray (.init startedProcs_init)).1 initproc startedProcess rfl

/-- It gives back its page and the one below, and asks for one page. -/
def shrinkAndGrow : List (Slot × ProcAction) :=
  [(initproc, .memory (.sbrk (-0x2000))), (initproc, .memory (.sbrk 0x1000))]

/-- **The guard is lost**: the page at `0x1000` is mapped. -/
theorem shrunkProcess_not_lowFree :
    ¬ ∀ start ps, (procSystem start).Reachable ps → ∀ q p, ps q = some p → LowFree p := by
  intro h
  obtain ⟨ps, hps, hcheck⟩ := System.Reachable.exists_of_run (S := procSystem onePage)
    (f := fun ps a ↦ Procs.step ps a.1 a.2)
    (p := fun ps ↦ match ps initproc with
      | some p => (p.vm.pte 1).isSome
      | none => false)
    (fun _ _ _ hstep ↦ .inl hstep) (l := shrinkAndGrow)
    (.init startedProcs_init : (procSystem onePage).Reachable startedProcs) (by decide +kernel)
  split at hcheck
  · next p hp =>
    rw [h onePage ps hps initproc p hp 1 (by decide)] at hcheck
    cases hcheck
  · cases hcheck

end StackReloc
