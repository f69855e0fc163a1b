import Cs537OS.Foundation.GuardedLoop
import Cs537OS.Threads.Forest

/-!
# The kernel without the monitor

The C function `freevm` does not ask who has the page directory that it frees. Here are the three
calls that free one with `freevm` as it is in the source, and the system of their runs: a directory
that is freed is free, and can be given out again, also when an entry of the table still shows it.

A step that the monitor does not stop is the same in both systems (`Unmonitored.agrees_step`). The
monitor also objects to a directory that was just allocated and is given back because memory ran
out, when an entry that is being filled in shows the same number from its last user. Nothing comes
of that: `fork` and `exec` leave the kernel as if no directory had been to be had
(`Unmonitored.forkCopy_aborted`, `Unmonitored.exec_aborted`).
-/

open GuardedLoop (bind_eq_ok_iff)
open Xv6

namespace Threads

namespace Unmonitored

open Kernel

variable {k k' : Kernel} {p np : Slot} {d : ℕ}

/-- Free a page directory. -/
def freevm (k : Kernel) (d : ℕ) : Except Fault Kernel :=
  if d = 0 then .error .panic else .ok { k with pgdirs := k.pgdirs.erase d }

/-- The second step of `fork`. -/
def forkCopy (k : Kernel) (p np : Slot) : NewSpace → Except Fault (Kernel × Option ℤ)
  | .aborted d => do
    let k' ← freevm (k.setupkvm d) d
    .ok (k'.giveUp np, none)
  | space => k.forkCopy p np space

/-- Replace the address space of `p`. -/
def exec (k : Kernel) (p : Slot) : NewSpace → Except Fault (Kernel × ℤ)
  | .none => .ok (k, -1)
  | .aborted d => do
    let k' ← freevm (k.setupkvm d) d
    .ok (k', -1)
  | .ready d sz => do
    let oldpgdir := (k.ptable p).pgdir
    let k' ← freevm ((k.setupkvm d).modify p fun a ↦ { a with pgdir := d, sz := sz }) oldpgdir
    .ok (k', 0)

/-- One scan of `wait`. -/
def wait (k : Kernel) (p : Slot) : Except Fault (Kernel × Option ℤ) :=
  match k.zombieChild p with
  | some q => do
    -- only free when this is the last one
    let k' ← if (k.ptable q).countThread = 0 then freevm k (k.ptable q).pgdir else .ok k
    .ok (k'.reap q, some (k.ptable q).pid)
  | none => k.wait p

/-- One step of the kernel. -/
def step (k : Kernel) : Action → Except Fault Kernel
  | .forkCopy p space =>
    match k.call p with
    | .fork np => require (k.Running p ∧ space.Fresh k) do
      let r ← forkCopy k p np space
      .ok (r.1.setCall p (if r.2.isSome then .forkReturn np else .user))
    | _ => .error .blocked
  | .exec p space => require (k.InUser p ∧ space.Fresh k) do
    let r ← exec k p space
    .ok r.1
  | .wait p => require (k.Running p ∧ (k.call p = .user ∨ k.call p = .wait)) do
    let r ← wait k p
    .ok (r.1.setCall p (if r.2.isSome then .user else .wait))
  | a => k.step a

/-- The runs of the kernel from boot. -/
def system : System Kernel Action where
  init k := ∃ d, d ≠ 0 ∧ k = userinit d
  next k a k' := step k a = .ok k'

/-! ### The monitor only stops steps -/

/-- The first computation is the second, or has been stopped by the monitor. -/
def Agrees {α : Type} (x y : Except Fault α) : Prop :=
  x = .error .inUse ∨ x = .error .notAllocated ∨ x = y

theorem Agrees.refl {α : Type} (x : Except Fault α) : Agrees x x := .inr (.inr rfl)

theorem Agrees.eq_ok {α : Type} {x y : Except Fault α} (h : Agrees x y) {a : α} (hx : x = .ok a) :
    y = .ok a := by
  rcases h with rfl | rfl | rfl
  · cases hx
  · cases hx
  · exact hx

theorem Agrees.bind {α β : Type} {x y : Except Fault α} (h : Agrees x y)
    (f : α → Except Fault β) : Agrees (x >>= f) (y >>= f) := by
  rcases h with rfl | rfl | rfl
  · exact .inl rfl
  · exact .inr (.inl rfl)
  · exact .refl _

theorem Agrees.require {c : Prop} [Decidable c] {x y : Except Fault Kernel} (h : Agrees x y) :
    Agrees (require c x) (require c y) := by
  unfold Threads.require
  split_ifs
  · exact h
  · exact .refl _

/-- Freeing an address space agrees, -/
theorem agrees_freevm (k : Kernel) (d : ℕ) : Agrees (k.freevm d) (freevm k d) := by
  rw [Kernel.freevm, freevm]
  split_ifs
  · exact .refl _
  · exact .inl rfl
  · exact .refl _
  · exact .inr (.inl rfl)

/-- so does the copy of `fork`, -/
theorem agrees_forkCopy (k : Kernel) (p np : Slot) (space : NewSpace) :
    Agrees (k.forkCopy p np space) (forkCopy k p np space) := by
  cases space with
  | none => exact .refl _
  | aborted d => exact (agrees_freevm _ _).bind _
  | ready d sz => exact .refl _

/-- so does `exec`, -/
theorem agrees_exec (k : Kernel) (p : Slot) (space : NewSpace) :
    Agrees (k.exec p space) (exec k p space) := by
  cases space with
  | none => exact .refl _
  | aborted d => exact (agrees_freevm _ _).bind _
  | ready d sz => exact (agrees_freevm _ _).bind _

/-- and so does `wait`. -/
theorem agrees_wait (k : Kernel) (p : Slot) : Agrees (k.wait p) (wait k p) := by
  rw [wait]
  cases hchild : k.zombieChild p with
  | none => exact .refl _
  | some q =>
    rw [Kernel.wait, hchild]
    dsimp only
    split_ifs
    · exact (agrees_freevm _ _).bind _
    · exact .refl _

/-- **A step is the same with the monitor, unless it is stopped.** -/
theorem agrees_step (k : Kernel) (a : Action) : Agrees (k.step a) (step k a) := by
  cases a with
  | forkCopy p space =>
    cases hcall : k.call p with
    | fork np =>
      simp only [Kernel.step, step, hcall]
      exact ((agrees_forkCopy k p np space).bind _).require
    | _ =>
      simp only [Kernel.step, step, hcall]
      exact .refl _
  | exec p space => exact ((agrees_exec k p space).bind _).require
  | wait p => exact ((agrees_wait k p).bind _).require
  | _ => exact .refl _

theorem require_eq_ok {c : Prop} [Decidable c] {x : Except Fault Kernel}
    (h : require c x = .ok k') : c ∧ x = .ok k' := by
  rw [require] at h
  split_ifs at h with hc
  exact ⟨hc, h⟩

theorem require_ok {c : Prop} [Decidable c] {k₁ : Kernel} (h : require c (.ok k₁) = .ok k') :
    c ∧ k₁ = k' :=
  (require_eq_ok h).imp_right Except.ok.inj

/-! ### The steps of the calls -/

/-- `growproc` starts in user mode, with a size or with an error. -/
theorem step_growproc {n : ℤ} {memory : Bool} (hstep : step k (.growproc p n memory) = .ok k') :
    k.InUser p ∧ (k.growproc p n memory = none ∧ k' = k ∨
      ∃ sz, k.growproc p n memory = some sz ∧ k' = k.setCall p (.growproc sz)) := by
  obtain ⟨hp, hok⟩ := require_eq_ok hstep
  refine ⟨hp, ?_⟩
  cases hsz : k.growproc p n memory with
  | none =>
    rw [hsz] at hok
    exact .inl ⟨rfl, (Except.ok.inj hok).symm⟩
  | some sz =>
    rw [hsz] at hok
    exact .inr ⟨sz, rfl, (Except.ok.inj hok).symm⟩

/-- An entry goes back in a call of `fork` or of `clone`. -/
theorem step_noKstack (hstep : step k (.noKstack p) = .ok k') :
    ∃ np, k.Fills p np ∧ k.Running p ∧ k' = (k.noKstack np).setCall p .user := by
  cases hcall : k.call p with
  | fork np =>
    simp only [step, Kernel.step, hcall] at hstep
    obtain ⟨hp, hok⟩ := require_eq_ok hstep
    exact ⟨np, .inl hcall, hp, (Except.ok.inj hok).symm⟩
  | clone np stack =>
    simp only [step, Kernel.step, hcall] at hstep
    obtain ⟨hp, hok⟩ := require_eq_ok hstep
    exact ⟨np, .inr ⟨stack, hcall⟩, hp, (Except.ok.inj hok).symm⟩
  | _ => simp only [step, Kernel.step, hcall, reduceCtorEq] at hstep

/-- The step in which there is no page for the kernel stack. -/
theorem noKstack_step {stack : ℕ} (hcall : k.call p = .clone np stack) (hp : k.Running p) :
    step k (.noKstack p) = .ok ((k.noKstack np).setCall p .user) := by
  simp only [step, Kernel.step, hcall]
  exact if_pos hp

/-- The second step of `clone` belongs to a call of `clone`. -/
theorem step_cloneCopy (hstep : step k (.cloneCopy p) = .ok k') :
    ∃ np stack, k.call p = .clone np stack ∧ k.Running p ∧
      k' = (k.cloneCopy p np stack).setCall p (.cloneReturn np) := by
  cases hcall : k.call p with
  | clone np stack =>
    simp only [step, Kernel.step, hcall] at hstep
    obtain ⟨hp, hok⟩ := require_eq_ok hstep
    exact ⟨np, stack, rfl, hp, (Except.ok.inj hok).symm⟩
  | _ => simp only [step, Kernel.step, hcall, reduceCtorEq] at hstep

/-- The step in which `clone` fills in its entry. -/
theorem cloneCopy_step {stack : ℕ} (hcall : k.call p = .clone np stack) (hp : k.Running p) :
    step k (.cloneCopy p) = .ok ((k.cloneCopy p np stack).setCall p (.cloneReturn np)) := by
  simp only [step, Kernel.step, hcall]
  exact if_pos hp

/-- So does its last one. -/
theorem step_cloneReturn {copied : Bool} (hstep : step k (.cloneReturn p copied) = .ok k') :
    ∃ np, k.call p = .cloneReturn np ∧ k.Running p ∧
      k' = (k.cloneReturn np copied).1.setCall p .user := by
  cases hcall : k.call p with
  | cloneReturn np =>
    simp only [step, Kernel.step, hcall] at hstep
    obtain ⟨hp, hok⟩ := require_eq_ok hstep
    exact ⟨np, rfl, hp, (Except.ok.inj hok).symm⟩
  | _ => simp only [step, Kernel.step, hcall, reduceCtorEq] at hstep

/-- The step in which `clone` writes to the stack and returns. -/
theorem cloneReturn_step {copied : Bool} (hcall : k.call p = .cloneReturn np) (hp : k.Running p) :
    step k (.cloneReturn p copied) = .ok ((k.cloneReturn np copied).1.setCall p .user) := by
  simp only [step, Kernel.step, hcall]
  exact if_pos hp

/-- The second step of `fork` belongs to a call of `fork`. -/
theorem step_forkCopy {space : NewSpace} (hstep : step k (.forkCopy p space) = .ok k') :
    ∃ np r, k.call p = .fork np ∧ k.Running p ∧ space.Fresh k ∧ forkCopy k p np space = .ok r ∧
      k' = r.1.setCall p (if r.2.isSome then .forkReturn np else .user) := by
  cases hcall : k.call p with
  | fork np =>
    simp only [step, hcall] at hstep
    obtain ⟨⟨hp, hfresh⟩, hok⟩ := require_eq_ok hstep
    obtain ⟨r, hr, hok⟩ := bind_eq_ok_iff.1 hok
    exact ⟨np, r, rfl, hp, hfresh, hr, (Except.ok.inj hok).symm⟩
  | _ => simp only [step, hcall, reduceCtorEq] at hstep

/-- So does its last one. -/
theorem step_forkReturn (hstep : step k (.forkReturn p) = .ok k') :
    ∃ np, k.call p = .forkReturn np ∧ k.Running p ∧
      k' = (k.forkReturn np).setCall p .user := by
  cases hcall : k.call p with
  | forkReturn np =>
    simp only [step, Kernel.step, hcall] at hstep
    obtain ⟨hp, hok⟩ := require_eq_ok hstep
    exact ⟨np, rfl, hp, (Except.ok.inj hok).symm⟩
  | _ => simp only [step, Kernel.step, hcall, reduceCtorEq] at hstep

/-- `exec` starts in user mode and stays there. -/
theorem step_exec {space : NewSpace} (hstep : step k (.exec p space) = .ok k') :
    ∃ r, k.InUser p ∧ space.Fresh k ∧ exec k p space = .ok r ∧ r.1 = k' := by
  obtain ⟨⟨hp, hfresh⟩, hok⟩ := require_eq_ok hstep
  obtain ⟨r, hr, hok⟩ := bind_eq_ok_iff.1 hok
  exact ⟨r, hp, hfresh, hr, Except.ok.inj hok⟩

/-- `wait` starts in user mode or goes on, and is over when it has something to return. -/
theorem step_wait (hstep : step k (.wait p) = .ok k') :
    ∃ r, k.Running p ∧ (k.call p = .user ∨ k.call p = .wait) ∧ wait k p = .ok r ∧
      r.1.setCall p (if r.2.isSome then .user else .wait) = k' := by
  obtain ⟨⟨hp, hcall⟩, hok⟩ := require_eq_ok hstep
  obtain ⟨r, hr, hok⟩ := bind_eq_ok_iff.1 hok
  exact ⟨r, hp, hcall, hr, Except.ok.inj hok⟩

/-- So does `join`, unless its argument is not valid. -/
theorem step_join {stack : ℕ} (hstep : step k (.join p stack) = .ok k') :
    k.Running p ∧ (k.call p = .user ∨ k.call p = .join stack) ∧
      ((k.call p = .user ∧ ¬ k.joinArgument p stack) ∧ k = k' ∨
        ¬ (k.call p = .user ∧ ¬ k.joinArgument p stack) ∧
          (k.join p).1.setCall p (if (k.join p).2.isSome then .user else .join stack) = k') := by
  obtain ⟨⟨hp, hcall⟩, hok⟩ := require_eq_ok hstep
  refine ⟨hp, hcall, ?_⟩
  split_ifs at hok with hbad
  · exact .inl ⟨hbad, Except.ok.inj hok⟩
  · exact .inr ⟨hbad, Except.ok.inj hok⟩

/-! ### Directories that are given back -/

/-- An address space that has been freed is no longer allocated. -/
theorem freevm_eq_ok (hfree : freevm k d = .ok k') :
    k' = { k with pgdirs := k.pgdirs.erase d } := by
  rw [freevm] at hfree
  split_ifs at hfree
  exact (Except.ok.inj hfree).symm

/-- `wait` answers with a child that has exited, or fails, or goes to sleep. -/
theorem wait_cases {r : Kernel × Option ℤ} (hr : wait k p = .ok r) :
    (∃ q dirs, k.zombieChild p = some q ∧ dirs ⊆ k.pgdirs ∧
        r = ({ k with pgdirs := dirs }.reap q, some (k.ptable q).pid)) ∨
      r = (k, some (-1)) ∨ r = (k.sleep p (.proc p), none) := by
  rw [wait] at hr
  cases hchild : k.zombieChild p with
  | none =>
    rw [hchild] at hr
    rw [Kernel.wait, hchild] at hr
    dsimp only at hr
    split_ifs at hr
    · exact .inr (.inl (Except.ok.inj hr).symm)
    · exact .inr (.inr (Except.ok.inj hr).symm)
  | some q =>
    rw [hchild] at hr
    dsimp only at hr
    split_ifs at hr
    · obtain ⟨k₁, hfree, hr⟩ := bind_eq_ok_iff.1 hr
      obtain rfl := freevm_eq_ok hfree
      exact .inl ⟨q, _, rfl, Finset.erase_subset _ _, (Except.ok.inj hr).symm⟩
    · exact .inl ⟨q, k.pgdirs, rfl, subset_rfl, (Except.ok.inj hr).symm⟩

/-- Any address space but the null pointer can be freed. -/
theorem freevm_of_ne_zero (hd0 : d ≠ 0) :
    freevm k d = .ok { k with pgdirs := k.pgdirs.erase d } := if_neg hd0

/-- A directory that was free is given back. -/
theorem freevm_setupkvm (hd0 : d ≠ 0) (hd : d ∉ k.pgdirs) :
    freevm (k.setupkvm d) d = .ok k := by
  rw [freevm_of_ne_zero hd0]
  show Except.ok { k with pgdirs := (insert d k.pgdirs).erase d } = .ok k
  rw [Finset.erase_insert hd]

/-- A copy that is given up and freed again was never there, -/
theorem forkCopy_aborted (hd0 : d ≠ 0) (hd : d ∉ k.pgdirs) :
    forkCopy k p np (.aborted d) = k.forkCopy p np .none := by
  rw [forkCopy, freevm_setupkvm hd0 hd]
  rfl

/-- and neither was the address space of an `exec` that fails. -/
theorem exec_aborted (hd0 : d ≠ 0) (hd : d ∉ k.pgdirs) :
    exec k p (.aborted d) = exec k p .none := by
  show freevm (k.setupkvm d) d >>= (fun k' ↦ .ok (k', -1)) = _
  rw [freevm_setupkvm hd0 hd]
  rfl

/-- Without the memory for an address space `fork` gives the entry up. -/
theorem forkCopy_cases {space : NewSpace} (hfresh : space.Fresh k) {r : Kernel × Option ℤ}
    (hr : forkCopy k p np space = .ok r) :
    r = (k.giveUp np, none) ∨ ∃ d sz, space = .ready d sz := by
  cases space with
  | none => exact .inl (Except.ok.inj hr).symm
  | aborted d =>
    rw [forkCopy_aborted hfresh.1 hfresh.2] at hr
    exact .inl (Except.ok.inj hr).symm
  | ready d sz => exact .inr ⟨d, sz, rfl⟩

/-- Without the memory for an address space `exec` changes nothing. -/
theorem exec_cases {space : NewSpace} (hfresh : space.Fresh k) {r : Kernel × ℤ}
    (hr : exec k p space = .ok r) : r = (k, -1) ∨ ∃ d sz, space = .ready d sz := by
  cases space with
  | none => exact .inl (Except.ok.inj hr).symm
  | aborted d =>
    rw [exec_aborted hfresh.1 hfresh.2] at hr
    exact .inl (Except.ok.inj hr).symm
  | ready d sz => exact .inr ⟨d, sz, rfl⟩

end Unmonitored

end Threads
