import Cs537OS.StackReloc.Image

/-!
# Where the pages of an address space come from

The functions that build and take down address spaces only move pages between the list of free pages
and the page tables, so whatever holds of every page at the start holds of every page at the end
(`Vm.All`). For the pages of the allocator this gives the invariant that `exec` relies on: it leaves
the allocator and the process with pages of the allocator, and the process without a page at
address 0 (`exec_wellFormed`).
-/

open Xv6

namespace StackReloc

namespace Vm

/-- Every page, free or mapped, has the property `P`. -/
structure All (P : ℕ → Prop) (m : Vm) : Prop where
  free : ∀ pa ∈ m.freelist, P pa
  mapped : ∀ n pa, m.pte n = some pa → P pa

variable {P : ℕ → Prop} {m m' : Vm} {a pa : ℕ}

theorem All.kalloc (hm : m.All P) (h : m.kalloc = some (pa, m')) : P pa ∧ m'.All P := by
  obtain ⟨pte, freelist⟩ := m
  rcases freelist with - | ⟨r, next⟩
  · cases h
  · cases h
    obtain ⟨hr, hnext⟩ := List.forall_mem_cons.1 hm.free
    exact ⟨hr, hnext, hm.mapped⟩

theorem All.kfree (hm : m.All P) (hpa : P pa) : (m.kfree pa).All P :=
  ⟨List.forall_mem_cons.2 ⟨hpa, hm.free⟩, hm.mapped⟩

theorem All.kfrees {pas : List ℕ} (hm : m.All P) (hpas : ∀ pa ∈ pas, P pa) :
    (pas.foldl Vm.kfree m).All P := by
  induction pas generalizing m with
  | nil => exact hm
  | cons pa pas ih =>
    obtain ⟨hpa, hrest⟩ := List.forall_mem_cons.1 hpas
    exact ih (hm.kfree hpa) hrest

/-- A change of one entry to a page with the property, or to none. -/
theorem All.update (hm : m.All P) (n : ℕ) {o : Option ℕ} (ho : ∀ pa, o = some pa → P pa) :
    Vm.All P { m with pte := Function.update m.pte n o } := by
  refine ⟨hm.free, fun n' pa' h ↦ ?_⟩
  have hupdate : Function.update m.pte n o n' = some pa' := h
  rcases eq_or_ne n' n with rfl | hne
  · rw [Function.update_self] at hupdate
    exact ho pa' hupdate
  · rw [Function.update_of_ne hne] at hupdate
    exact hm.mapped n' pa' hupdate

theorem All.mappages (hm : m.All P) (hpa : P pa) (h : m.mappages a pa = .ok m') : m'.All P := by
  rw [Vm.mappages] at h
  split_ifs at h
  cases h
  exact hm.update _ fun pa' h ↦ Option.some.inj h ▸ hpa

theorem All.deallocPage (hm : m.All P) (h : m.deallocPage a = .ok m') : m'.All P := by
  rw [Vm.deallocPage] at h
  rcases hpte : m.pte (a / PGSIZE) with - | pa
  · rw [hpte] at h
    cases h
    exact hm
  · rw [hpte] at h
    obtain ⟨-, h⟩ := GuardedLoop.guard_eq_ok_iff.1 h
    cases h
    exact (hm.update _ fun pa' h ↦ (by cases h)).kfree (hm.mapped _ pa hpte)

theorem All.deallocuvm {oldsz newsz : ℕ} {r : ℕ × Vm} (hm : m.All P)
    (h : m.deallocuvm oldsz newsz = .ok r) : r.2.All P :=
  deallocuvm_preserves (fun _ _ _ hm h ↦ hm.deallocPage h) hm h

theorem All.allocuvm {oldsz newsz : ℕ} {r : ℕ × Vm} (hm : m.All P)
    (h : m.allocuvm oldsz newsz = .ok r) : r.2.All P := by
  refine allocuvm_preserves (fun _ _ _ hm h ↦ hm.deallocPage h)
    (fun a _ _ _ _ hm hmem hmap ↦ ?_) hm h
  obtain ⟨hpa, hm₁⟩ := hm.kalloc hmem
  exact hm₁.mappages hpa hmap

/-- The size that `allocuvm` comes to is between the old size and the top of user memory. -/
theorem allocuvm_bounds {oldsz newsz : ℕ} {r : ℕ × Vm} (hold : oldsz ≤ USERTOP)
    (h : m.allocuvm oldsz newsz = .ok r) (hr : r.1 ≠ 0) : oldsz ≤ r.1 ∧ r.1 ≤ USERTOP := by
  rw [Vm.allocuvm] at h
  split_ifs at h with htop hlt
  · cases h
    exact absurd rfl hr
  · cases h
    exact ⟨le_rfl, hold⟩
  · rw [(allocPages_fst h).resolve_left hr]
    exact ⟨Nat.le_of_not_lt hlt, Nat.le_of_not_lt htop⟩

end Vm

namespace Elf

variable {P : ℕ → Prop} {t : Task} {f : File} {freelist argv : List ℕ}

theorem liftPanic_eq_ok_iff {α : Type} {x : Except Panic α} {a : α} :
    liftPanic x = .ok a ↔ x = .ok a := by
  rcases x with why | b
  · exact ⟨fun h ↦ (by cases h), fun h ↦ (by cases h)⟩
  · exact ⟨fun h ↦ (by cases h; rfl), fun h ↦ (by cases h; rfl)⟩

/-- What `exec` keeps of the address space that it builds. -/
structure Building (m : Vm) : Prop where
  all : m.All Frame
  free : m.FreeBelow 2

theorem Building.allocuvm {m : Vm} {oldsz newsz : ℕ} {r : ℕ × Vm} (hm : Building m)
    (hlo : 2 * PGSIZE ≤ oldsz) (hhi : oldsz ≤ USERTOP) (h : m.allocuvm oldsz newsz = .ok r) :
    Building r.2 :=
  ⟨hm.all.allocuvm h, hm.free.allocuvm (.inl (hlo.trans (Vm.le_PGROUNDUP hhi))) h⟩

/-- **The loop over the program headers** keeps it, whatever is written where. -/
theorem loadProgram_building {phs : List (Option Proghdr)} {sz : ℕ} {m : Vm} {l : Loaded}
    (hm : Building m) (hlo : 2 * PGSIZE ≤ sz) (hhi : sz ≤ USERTOP)
    (h : loadProgram t f phs sz m = .ok l) : Building l.vm := by
  induction phs generalizing sz m l with
  | nil =>
    cases h
    exact hm
  | cons oph phs ih =>
    rcases oph with - | ph
    · cases h
      exact hm
    · rw [loadProgram] at h
      split_ifs at h with htype hmem
      · exact ih hm hlo hhi h
      · cases h
        exact hm
      · obtain ⟨r, halloc, h⟩ := GuardedLoop.bind_eq_ok_iff.1 h
        rw [liftPanic_eq_ok_iff] at halloc
        have hr : Building r.2 := hm.allocuvm hlo hhi halloc
        split_ifs at h with hzero
        · cases h
          exact hr
        · obtain ⟨hle, htop⟩ := Vm.allocuvm_bounds hhi halloc hzero
          obtain ⟨s, -, h⟩ := GuardedLoop.bind_eq_ok_iff.1 h
          split_ifs at h
          · cases h
            exact hr
          · obtain ⟨l', hl', h⟩ := GuardedLoop.bind_eq_ok_iff.1 h
            have hall : Building l'.vm := ih hr (hlo.trans hle) htop hl'
            cases h
            exact hall

/-! ### Page directories -/

/-- The pages of a page directory itself are pages of the allocator. -/
def Pgdir.Frames (d : Pgdir) : Prop := Frame d.dir ∧ ∀ pa ∈ d.tables, Frame pa

theorem mapTables_frames (is : List ℕ) {m : Vm} (hm : m.All Frame) :
    (∀ tables, (mapTables is m).1 = some tables → ∀ pa ∈ tables, Frame pa) ∧
      (mapTables is m).2.All Frame ∧ (mapTables is m).2.pte = m.pte := by
  induction is generalizing m with
  | nil => exact ⟨fun _ h ↦ by cases h; exact fun _ hpa ↦ absurd hpa List.not_mem_nil, hm, rfl⟩
  | cons i is ih =>
    rw [mapTables]
    rcases hmem : m.kalloc with - | ⟨pgtab, m'⟩
    · exact ⟨fun _ h ↦ (by cases h), hm, rfl⟩
    · obtain ⟨hpa, hm'⟩ := hm.kalloc hmem
      obtain ⟨htables, hall, hpte⟩ := ih hm'
      have hsame : m'.pte = m.pte := by
        rw [Vm.kalloc] at hmem
        split at hmem <;> cases hmem
        rfl
      refine ⟨fun tables h ↦ ?_, hall, hpte.trans hsame⟩
      obtain ⟨tables', h', rfl⟩ := Option.map_eq_some_iff.1 h
      exact List.forall_mem_cons.2 ⟨hpa, htables tables' h'⟩

theorem setupkvm_frames (hfree : ∀ pa ∈ freelist, Frame pa) :
    (∀ d, (setupkvm freelist).1 = some d → d.Frames) ∧ Building (setupkvm freelist).2 := by
  have hempty : Vm.All Frame ⟨fun _ ↦ none, freelist⟩ := ⟨hfree, fun _ _ h ↦ (by cases h)⟩
  rw [setupkvm]
  rcases hmem : Vm.kalloc ⟨fun _ ↦ none, freelist⟩ with - | ⟨pgdir, m⟩
  · exact ⟨fun _ h ↦ (by cases h), hempty, fun _ _ ↦ rfl⟩
  · obtain ⟨hpa, hm⟩ := hempty.kalloc hmem
    obtain ⟨htables, hall, hpte⟩ := mapTables_frames kernelTables hm
    have hnone : m.pte = fun _ ↦ none := by
      rw [Vm.kalloc] at hmem
      split at hmem <;> cases hmem
      rfl
    refine ⟨fun d h ↦ ?_, hall, fun n _ ↦ by rw [hpte, hnone]⟩
    obtain ⟨tables, hsome, rfl⟩ := Option.map_eq_some_iff.1 h
    exact ⟨hpa, htables tables hsome⟩

theorem freevm_frames {d : Pgdir} {free : List ℕ} (hd : d.Frames)
    (hm : Vm.All Frame ⟨d.user, freelist⟩) (h : freevm d freelist = .ok free) :
    ∀ pa ∈ free, Frame pa := by
  obtain ⟨r, hde, h⟩ := GuardedLoop.bind_eq_ok_iff.1 h
  cases h
  exact (((hm.deallocuvm hde).kfrees hd.2).kfree hd.1).free

/-! ### The ends of `exec` -/

variable {d : Pgdir} {m : Vm} {r : Outcome}

theorem bad_wellFormed (hwf : WellFormed t freelist) (hd : d.Frames) (hm : m.All Frame)
    (h : bad t d m = .ok r) : WellFormed r.task r.freelist := by
  obtain ⟨free, hfree, h⟩ := GuardedLoop.bind_eq_ok_iff.1 h
  have hframes : ∀ pa ∈ free, Frame pa :=
    freevm_frames (d := { d with user := m.pte }) hd ⟨hm.free, hm.mapped⟩
      (liftPanic_eq_ok_iff.1 hfree)
  cases h
  exact { hwf with free := hframes }

theorem runLoaded_wellFormed {entry sz : ℕ} (hwf : WellFormed t freelist) (hd : d.Frames)
    (hm : Building m) (h : runLoaded t d entry sz argv m = .ok r) :
    WellFormed r.task r.freelist := by
  obtain ⟨s, halloc, h⟩ := GuardedLoop.bind_eq_ok_iff.1 h
  rw [liftPanic_eq_ok_iff] at halloc
  have hs : Building s.2 := hm.allocuvm (by decide) (by decide) halloc
  obtain ⟨-, h⟩ := GuardedLoop.guard_eq_ok_iff.1 h
  split at h
  · exact bad_wellFormed hwf hd hs.all h
  · -- the old address space is freed, and the new one is that of the process
    obtain ⟨free, hfree, h⟩ := GuardedLoop.bind_eq_ok_iff.1 h
    rw [liftPanic_eq_ok_iff] at hfree
    cases h
    exact
      { free := freevm_frames ⟨hwf.dir, hwf.tables⟩ ⟨hs.all.free, hwf.user⟩ hfree
        user := hs.all.mapped
        dir := hd.1
        tables := hd.2
        null := hs.free 0 (by decide) }

/-- **`exec` keeps what it relies on**: whatever the file and the arguments, a call that comes back
leaves the process and the allocator as the next call needs them. -/
theorem exec_wellFormed {file : Option File} (hwf : WellFormed t freelist)
    (h : exec t freelist file argv = .ok r) : WellFormed r.task r.freelist := by
  rcases file with - | f
  · cases h
    exact hwf
  rw [exec] at h
  split_ifs at h with hshort hmagic
  · cases h
    exact hwf
  · cases h
    exact hwf
  obtain ⟨hd, hm⟩ := setupkvm_frames hwf.free
  rcases hkvm : setupkvm freelist with ⟨od, m⟩
  rw [hkvm] at h hd hm
  rcases od with - | d
  · cases h
    exact { hwf with free := hm.all.free }
  · obtain ⟨l, hl, h⟩ := GuardedLoop.bind_eq_ok_iff.1 h
    have hbuilding : Building l.vm := loadProgram_building hm le_rfl (by decide) hl
    obtain ⟨o, ho, h⟩ := GuardedLoop.bind_eq_ok_iff.1 h
    have hwf' : WellFormed o.task o.freelist := by
      rcases hsize : l.size with - | sz <;> rw [hsize] at ho
      · exact bad_wellFormed hwf (hd d rfl) hbuilding.all ho
      · exact runLoaded_wellFormed hwf (hd d rfl) hbuilding ho
    cases h
    exact hwf'

end Elf

end StackReloc
