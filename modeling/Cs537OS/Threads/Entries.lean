import Cs537OS.Threads.Sizes

/-!
# What a step does to one entry

`Fate` lists what can become of an entry of the process table in one step, as far as its state, the
address it sleeps on and the mark of `kill` are concerned, and `fate_of_step` says that there is
nothing else. Which process asked for the step is the `caller` of the action; nobody asks for
`dispatch` and `yield`, and `wakeup` and `kill` come from elsewhere.

`Tidy` is what that needs of the table and what every step keeps. `CallChange` lists the calls that
the caller of a step can be in when it is over.
-/

open GuardedLoop (bind_eq_ok_iff)
open Xv6

namespace Threads

/-- The process in whose call the step is. -/
def Action.caller : Action → Option Slot
  | .dispatch _ => none
  | .yield _ => none
  | .sleep p _ => some p
  | .wakeup _ => none
  | .kill _ => none
  | .growproc p _ _ => some p
  | .growNext p => some p
  | .fork p => some p
  | .noKstack p => some p
  | .forkCopy p _ => some p
  | .forkReturn p => some p
  | .clone p _ => some p
  | .cloneCopy p => some p
  | .cloneReturn p _ => some p
  | .exec p _ => some p
  | .exit p => some p
  | .wait p => some p
  | .join p _ => some p

namespace Kernel

/-- The process that `kill` finds. -/
def killed? (k : Kernel) (pid : ℤ) : Option Slot :=
  (List.finRange NPROC).find? fun p ↦ (k.ptable p).pid = pid

/-- What can be said of every table. -/
structure Tidy (k : Kernel) : Prop extends Orderly k where
  /-- A process that runs does not sleep on anything. -/
  chan : ∀ p, k.Running p → (k.ptable p).chan = .null
  parent : ∀ p, (k.ptable p).Awake → p ≠ initproc → (k.ptable p).parent ≠ none

end Kernel

open Kernel

/-- The address, the mark of `kill` and whether there is a parent are as before. -/
structure Still (a a' : Proc) : Prop where
  chan : a'.chan = a.chan
  killed : a'.killed = a.killed
  parent : a'.parent = none ↔ a.parent = none

/-- What becomes of entry `t`. -/
inductive Fate (k k' : Kernel) (a : Action) (t : Slot) : Prop where
  | kept (hstate : (k'.ptable t).state = (k.ptable t).state)
    (hstill : Still (k.ptable t) (k'.ptable t))
  | dispatched (ha : a = .dispatch t) (hold : (k.ptable t).state = .runnable)
    (hnew : (k'.ptable t).state = .running) (hchan : (k'.ptable t).chan = .null)
    (hkilled : (k'.ptable t).killed = (k.ptable t).killed)
    (hparent : (k'.ptable t).parent = (k.ptable t).parent)
  | yielded (ha : a = .yield t) (hold : k.Running t) (hnew : (k'.ptable t).state = .runnable)
    (hstill : Still (k.ptable t) (k'.ptable t))
  | slept (ha : a.caller = some t) (hold : k.Running t) (hnew : (k'.ptable t).state = .sleeping)
    (hparent : (k'.ptable t).parent = (k.ptable t).parent)
  | woken (hchan : (k.ptable t).chan ≠ .null) (hold : (k.ptable t).state = .sleeping)
    (hnew : (k'.ptable t).state = .runnable) (hstill : Still (k.ptable t) (k'.ptable t))
  | killed (pid : ℤ) (ha : a = .kill pid) (hit : k.killed? pid = some t)
    (hnew : (k'.ptable t).state =
      if (k.ptable t).state = .sleeping then .runnable else (k.ptable t).state)
    (hchan : (k'.ptable t).chan = (k.ptable t).chan)
    (hparent : (k'.ptable t).parent = (k.ptable t).parent)
  | exited (ha : a = .exit t) (hold : k.Running t) (hnew : (k'.ptable t).state = .zombie)
  | reaped (hold : (k.ptable t).state = .zombie) (hnew : (k'.ptable t).state = .unused)
  | taken (hold : (k.ptable t).state = .unused)
    (hnew : (k'.ptable t).state = .embryo)
  | filled (p : Slot) (ha : a.caller = some p)
    (hmakes : k.Fills p t ∨ k.call p = .cloneReturn t ∧ a = .cloneReturn p true)
    (hnew : (k'.ptable t).state = .unused ∨ (k'.ptable t).state = .embryo ∨
      (k'.ptable t).state = .runnable ∧ (k'.ptable t).parent ≠ none)

theorem Still.refl (a : Proc) : Still a a := ⟨rfl, rfl, .rfl⟩

theorem Still.trans {a b c : Proc} (hab : Still a b) (hbc : Still b c) : Still a c :=
  ⟨hbc.chan.trans hab.chan, hbc.killed.trans hab.killed, hbc.parent.trans hab.parent⟩

variable {k k' : Kernel} {p q np t : Slot} {a : Action}

theorem Fate.refl (k : Kernel) (a : Action) (t : Slot) : Fate k k a t := .kept rfl (.refl _)

/-- A step that changes one entry. -/
theorem fate_modify {f : Proc → Proc} (hf : t = p → Fate k (k.modify p f) a p) :
    Fate k (k.modify p f) a t := by
  by_cases ht : t = p
  · subst ht
    exact hf rfl
  · refine .kept ?_ ?_ <;> rw [modify_ptable_of_ne ht]
    exact .refl _

/-- What becomes of an entry is read off the table. -/
theorem Fate.of_ptable_eq {k₁ : Kernel} (h : Fate k k₁ a t) (heq : k'.ptable t = k₁.ptable t) :
    Fate k k' a t := by
  cases h with
  | kept hstate hstill => exact .kept (heq ▸ hstate) (heq ▸ hstill)
  | dispatched ha hold hnew hchan hkilled hparent =>
    exact .dispatched ha hold (heq ▸ hnew) (heq ▸ hchan) (heq ▸ hkilled) (heq ▸ hparent)
  | yielded ha hold hnew hstill => exact .yielded ha hold (heq ▸ hnew) (heq ▸ hstill)
  | slept ha hold hnew hparent => exact .slept ha hold (heq ▸ hnew) (heq ▸ hparent)
  | woken hchan hold hnew hstill => exact .woken hchan hold (heq ▸ hnew) (heq ▸ hstill)
  | killed pid ha hit hnew hchan hparent =>
    exact .killed pid ha hit (heq ▸ hnew) (heq ▸ hchan) (heq ▸ hparent)
  | exited ha hold hnew => exact .exited ha hold (heq ▸ hnew)
  | reaped hold hnew => exact .reaped hold (heq ▸ hnew)
  | taken hold hnew => exact .taken hold (heq ▸ hnew)
  | filled p ha hmakes hnew => exact .filled p ha hmakes (heq ▸ hnew)

/-! ### The calls -/

theorem fate_sleep (hp : k.Running p) {chan : Chan} (ha : a.caller = some p) :
    Fate k (k.sleep p chan) a t := by
  refine fate_modify fun _ ↦ .slept ha hp ?_ ?_ <;> rw [modify_ptable_self]

/-- The entry is as before, or was woken from an address. -/
structure Roused (a a' : Proc) : Prop extends Still a a' where
  state : a'.state = a.state ∨ a.chan ≠ .null ∧ a.state = .sleeping ∧ a'.state = .runnable

theorem Roused.refl (a : Proc) : Roused a a := ⟨.refl a, .inl rfl⟩

theorem Roused.trans {a b c : Proc} (hab : Roused a b) (hbc : Roused b c) : Roused a c := by
  refine ⟨hab.toStill.trans hbc.toStill, ?_⟩
  rcases hab.state with heq | ⟨hchan, hold, hnew⟩
  · rcases hbc.state with heq' | ⟨hchan', hold', hnew'⟩
    · exact .inl (heq'.trans heq)
    · exact .inr ⟨hab.chan ▸ hchan', heq ▸ hold', hnew'⟩
  · rcases hbc.state with heq' | ⟨-, hold', -⟩
    · exact .inr ⟨hchan, hold, heq'.trans hnew⟩
    · rw [hnew] at hold'
      cases hold'

theorem Roused.fate (h : Roused (k.ptable t) (k'.ptable t)) : Fate k k' a t := by
  rcases h.state with heq | ⟨hchan, hold, hnew⟩
  · exact .kept heq h.toStill
  · exact .woken hchan hold hnew h.toStill

/-- `wakeup1` on an address wakes who sleeps there, -/
theorem roused_wakeup1 {chan : Chan} (hchan : chan ≠ .null) (t : Slot) :
    Roused (k.ptable t) ((k.wakeup1 chan).ptable t) := by
  show Roused _ (ite _ _ _)
  split_ifs with ht
  · exact ⟨⟨rfl, rfl, .rfl⟩, .inr ⟨ht.2 ▸ hchan, ht.1, rfl⟩⟩
  · exact .refl _

/-- and a turn of the loop of `exit` wakes init at most, -/
theorem roused_passChild (t : Slot) : Roused (k.ptable t) ((passChild p k q).ptable t) := by
  rcases passChild_cases p k q with ⟨-, heq⟩ | ⟨hparent, k', hk', heq⟩
  · rw [heq]
    exact .refl _
  · have hmod : Roused (k.ptable t) (k'.ptable t) := by
      rw [hk']
      by_cases ht : t = q
      · rw [ht, modify_ptable_self]
        exact ⟨⟨rfl, rfl, by rw [hparent]; simp⟩, .inl rfl⟩
      · rw [modify_ptable_of_ne ht]
        exact .refl _
    rcases heq with heq | heq <;> rw [heq]
    · exact hmod
    · exact hmod.trans (roused_wakeup1 (by simp) t)

/-- as does the whole loop. -/
theorem roused_foldl_passChild (l : List Slot) (k : Kernel) (t : Slot) :
    Roused (k.ptable t) ((l.foldl (passChild p) k).ptable t) := by
  induction l generalizing k with
  | nil => exact .refl _
  | cons q l ih => exact (roused_passChild t).trans (ih _)

/-- `exit` makes one ZOMBIE and wakes its parent and init. -/
theorem fate_exit (h : Tidy k) (hp : k.Running p) (hexit : k.exit p = .ok k') :
    Fate k k' (.exit p) t := by
  obtain ⟨hroot, k₁, hk₁, rfl⟩ := exit_eq_ok hexit
  by_cases ht : t = p
  · subst ht
    refine .exited rfl hp ?_
    rw [setState, modify_ptable_self]
  · -- a process that exits has a parent, which it wakes, and not those who sleep on nothing
    have hparent := h.parent p hp.awake hroot
    have hchan : Chan.ofProc (k.ptable p).parent ≠ .null := by
      cases hpar : (k.ptable p).parent with
      | none => exact absurd hpar hparent
      | some q =>
        intro hnull
        cases hnull
    have hloop : Roused (k.ptable t) (k₁.ptable t) :=
      hk₁ ▸ (roused_wakeup1 hchan t).trans (roused_foldl_passChild _ _ t)
    refine hloop.fate.of_ptable_eq ?_
    rw [setState, modify_ptable_of_ne ht]

/-- `kill` marks one process and wakes it. -/
theorem fate_kill (pid : ℤ) : Fate k (k.kill pid) (.kill pid) t := by
  rw [Kernel.kill]
  split
  · exact .refl _ _ _
  · rename_i p hit
    refine fate_modify fun _ ↦ .killed pid rfl hit ?_ ?_ ?_ <;> rw [modify_ptable_self]

/-- The caller of `growproc` keeps its entry, -/
theorem fate_growSelf (sz : ℕ) : Fate k (k.growSelf p sz) a t := by
  refine fate_modify fun _ ↦ .kept ?_ ?_ <;> rw [modify_ptable_self]
  exact ⟨rfl, rfl, .rfl⟩

/-- and so does everybody in the rest of `growproc`. -/
theorem fate_growNext (hok : k.growNext p = .ok k') : Fate k k' a t := by
  rcases growNext_cases hok with ⟨sz, -, rfl⟩ | ⟨sz, q, rest, -, rfl⟩ | ⟨sz, -, rfl⟩
  · exact (fate_growSelf sz).of_ptable_eq rfl
  · rw [growChild]
    split_ifs
    · exact (fate_growSelf sz).of_ptable_eq rfl
    · exact (Fate.refl k a t).of_ptable_eq rfl
  · exact (Fate.refl k a t).of_ptable_eq rfl

/-- `allocproc` takes one free entry. -/
theorem fate_allocproc : Fate k k.allocproc.2 a t := by
  rcases allocproc_cases k with heq | ⟨np, hnp, heq⟩ <;> rw [heq]
  · exact .refl _ _ _
  · by_cases ht : t = np
    · subst ht
      refine .taken hnp ?_
      rw [allocEntry, modify_ptable_self]
    · exact (Fate.refl k a t).of_ptable_eq (allocEntry_ptable_of_ne ht)

theorem fork_ptable : (k.fork p).ptable = k.allocproc.2.ptable := by
  rw [Kernel.fork]
  split <;> rename_i heq <;> rw [heq]
  rfl

theorem clone_ptable (stack : ℕ) : (k.clone p stack).ptable = k.allocproc.2.ptable := by
  rw [Kernel.clone]
  split <;> rename_i heq <;> rw [heq]
  rfl

/-- An entry that goes back. -/
theorem fate_goesBack {f : Proc → Proc} (hf : k.Fills p np) (ha : a.caller = some p)
    (hstate : ∀ a, (f a).state = .unused) : Fate k (k.modify np f) a t := by
  refine fate_modify fun _ ↦ .filled p ha (.inl hf) (.inl ?_)
  rw [modify_ptable_self, hstate]

/-- The copy of `fork` makes the child RUNNABLE or gives its entry back, -/
theorem fate_forkCopy {space : NewSpace} (hf : k.Fills p np) (hfresh : space.Fresh k)
    {r : Kernel × Option ℤ} (hr : Unmonitored.forkCopy k p np space = .ok r) :
    Fate k r.1 (.forkCopy p space) t := by
  rcases Unmonitored.forkCopy_cases hfresh hr with rfl | ⟨d, sz, rfl⟩
  · exact fate_goesBack (f := fun a ↦ { a with pgdir := 0, state := .unused }) hf rfl fun _ ↦ rfl
  · rw [← Except.ok.inj hr]
    by_cases ht : t = np
    · subst ht
      refine .filled p rfl (.inl hf) (.inr (.inr ⟨?_, ?_⟩)) <;> rw [modify_ptable_self]
      exact nofun
    · refine (Fate.refl k _ t).of_ptable_eq ?_
      rw [modify_ptable_of_ne ht]
      rfl

/-- and the reset of its count changes no state. -/
theorem fate_forkReturn : Fate k (k.forkReturn np) a t := by
  refine fate_modify fun _ ↦ .kept ?_ ?_ <;> rw [modify_ptable_self]
  exact ⟨rfl, rfl, .rfl⟩

/-- `clone` fills in an EMBRYO, -/
theorem fate_cloneCopy {stack : ℕ} (hf : k.Fills p np) (hne : np ≠ p)
    (hembryo : (k.ptable np).state = .embryo) :
    Fate k (k.cloneCopy p np stack) (.cloneCopy p) t := by
  by_cases ht : t = np
  · subst ht
    refine .filled p rfl (.inl hf) (.inr (.inl ?_))
    rw [cloneCopy_ptable_self hne]
    exact hembryo
  · by_cases htp : t = p
    · subst htp
      refine .kept ?_ ?_ <;> rw [cloneCopy_ptable_parent hne]
      exact ⟨rfl, rfl, .rfl⟩
    · exact (Fate.refl k _ t).of_ptable_eq (cloneCopy_ptable_of_ne ht htp stack)

/-- which its end makes RUNNABLE. -/
theorem fate_cloneReturn (h : Orderly k) (hcall : k.call p = .cloneReturn np) (copied : Bool) :
    Fate k (k.cloneReturn np copied).1 (.cloneReturn p copied) t := by
  cases copied with
  | false => exact .refl _ _ _
  | true =>
    show Fate k (k.modify np fun a ↦ { a with state := .runnable }) _ t
    refine fate_modify fun _ ↦ .filled p rfl (.inr ⟨hcall, rfl⟩) (.inr (.inr ⟨?_, ?_⟩)) <;>
      rw [modify_ptable_self]
    exact fun hnone ↦ by cases (h.made_parent p np (.inr hcall)).symm.trans hnone

theorem freevm_ptable {d : ℕ} (h : Unmonitored.freevm k d = .ok k') : k'.ptable = k.ptable :=
  Unmonitored.freevm_eq_ok h ▸ rfl

theorem fate_exec {space : NewSpace} (hfresh : space.Fresh k) {r : Kernel × ℤ}
    (hr : Unmonitored.exec k p space = .ok r) : Fate k r.1 a t := by
  rcases Unmonitored.exec_cases hfresh hr with rfl | ⟨d, sz, rfl⟩
  · exact .refl _ _ _
  · obtain ⟨k₁, hfree, hr⟩ := bind_eq_ok_iff.1 hr
    rw [← Except.ok.inj hr]
    have hmod : Fate k ((k.setupkvm d).modify p fun a ↦ { a with pgdir := d, sz := sz }) a t := by
      by_cases ht : t = p
      · subst ht
        refine .kept ?_ ?_ <;> rw [modify_ptable_self]
        exacts [rfl, ⟨rfl, rfl, .rfl⟩]
      · exact (Fate.refl k a t).of_ptable_eq (modify_ptable_of_ne ht)
    exact hmod.of_ptable_eq (congrFun (freevm_ptable hfree) t)

theorem fate_reap {k₁ : Kernel} (htable : k₁.ptable = k.ptable)
    (hx : (k.ptable q).state = .zombie) :
    Fate k (k₁.reap q) a t := by
  by_cases ht : t = q
  · subst ht
    refine .reaped hx ?_
    rw [reap, modify_ptable_self]
  · exact (Fate.refl k a t).of_ptable_eq ((reap_ptable_of_ne ht).trans (congrFun htable t))

/-- `wait` frees a ZOMBIE or falls asleep, -/
theorem fate_wait (hp : k.Running p) {r : Kernel × Option ℤ}
    (hr : Unmonitored.wait k p = .ok r) : Fate k r.1 (.wait p) t := by
  rcases Unmonitored.wait_cases hr with ⟨x, dirs, hchild, -, rfl⟩ | rfl | rfl
  · exact fate_reap rfl (zombieChild_eq_some hchild).2
  · exact .refl _ _ _
  · exact fate_sleep hp rfl

/-- and so does `join`. -/
theorem fate_join (hp : k.Running p) (stack : ℕ) : Fate k (k.join p).1 (.join p stack) t := by
  rw [Kernel.join]
  cases hthread : k.zombieThread p with
  | none =>
    dsimp only
    split_ifs
    · exact .refl _ _ _
    · exact fate_sleep hp rfl
  | some x =>
    obtain ⟨-, hzombie⟩ := zombieThread_eq_some hthread
    have hxp : p ≠ x := by
      rintro rfl
      rw [hp] at hzombie
      cases hzombie
    dsimp only
    by_cases htp : t = p
    · subst htp
      refine .kept ?_ ?_ <;> rw [modify_ptable_self, reap_ptable_of_ne hxp]
      exact ⟨rfl, rfl, .rfl⟩
    · have hreap : Fate k (k.reap x) (.join p stack) t := fate_reap rfl hzombie
      exact hreap.of_ptable_eq (modify_ptable_of_ne htp)

/-- What a step does to an entry, for the calls of which nothing has to be known. -/
theorem fate_of_step_of_ne (hexit : ∀ p, a ≠ .exit p) (hcopy : ∀ p, a ≠ .cloneCopy p)
    (hreturn : ∀ p copied, a ≠ .cloneReturn p copied)
    (hstep : Unmonitored.step k a = .ok k') (t : Slot) : Fate k k' a t := by
  cases a with
  | dispatch p =>
    obtain ⟨hp, rfl⟩ := Unmonitored.require_ok hstep
    refine fate_modify fun ht ↦ ?_
    subst ht
    refine .dispatched rfl hp ?_ ?_ ?_ ?_ <;> rw [modify_ptable_self]
  | yield p =>
    obtain ⟨hp, rfl⟩ := Unmonitored.require_ok hstep
    refine fate_modify fun ht ↦ ?_
    subst ht
    refine .yielded rfl hp ?_ ?_ <;> rw [modify_ptable_self]
    exact ⟨rfl, rfl, .rfl⟩
  | sleep p a =>
    obtain ⟨hp, rfl⟩ := Unmonitored.require_ok hstep
    exact fate_sleep hp rfl
  | wakeup a =>
    rw [← Except.ok.inj hstep]
    exact (roused_wakeup1 (by simp) t).fate
  | kill pid =>
    rw [← Except.ok.inj hstep]
    exact fate_kill pid
  | growproc p n memory =>
    obtain ⟨-, ⟨-, rfl⟩ | ⟨sz, -, rfl⟩⟩ := Unmonitored.step_growproc hstep
    · exact .refl _ _ _
    · exact (Fate.refl k _ t).of_ptable_eq rfl
  | growNext p =>
    obtain ⟨-, hok⟩ := Unmonitored.require_eq_ok hstep
    exact fate_growNext hok
  | fork p =>
    obtain ⟨-, rfl⟩ := Unmonitored.require_ok hstep
    exact fate_allocproc.of_ptable_eq (congrFun fork_ptable t)
  | noKstack p =>
    obtain ⟨np, hf, -, rfl⟩ := Unmonitored.step_noKstack hstep
    exact (fate_goesBack (f := fun a ↦ { a with state := .unused }) hf rfl
      fun _ ↦ rfl).of_ptable_eq rfl
  | clone p stack =>
    obtain ⟨-, rfl⟩ := Unmonitored.require_ok hstep
    exact fate_allocproc.of_ptable_eq (congrFun (clone_ptable stack) t)
  | forkCopy p space =>
    obtain ⟨np, r, hcall, -, hfresh, hr, rfl⟩ := Unmonitored.step_forkCopy hstep
    exact (fate_forkCopy (.inl hcall) hfresh hr).of_ptable_eq rfl
  | forkReturn p =>
    obtain ⟨np, -, -, rfl⟩ := Unmonitored.step_forkReturn hstep
    exact fate_forkReturn.of_ptable_eq rfl
  | cloneCopy p => exact absurd rfl (hcopy p)
  | cloneReturn p copied => exact absurd rfl (hreturn p copied)
  | exec p space =>
    obtain ⟨r, -, hfresh, hr, rfl⟩ := Unmonitored.step_exec hstep
    exact fate_exec hfresh hr
  | exit p => exact absurd rfl (hexit p)
  | wait p =>
    obtain ⟨r, hp, -, hr, rfl⟩ := Unmonitored.step_wait hstep
    exact (fate_wait hp hr).of_ptable_eq rfl
  | join p stack =>
    obtain ⟨hp, -, ⟨-, rfl⟩ | ⟨-, rfl⟩⟩ := Unmonitored.step_join hstep
    · exact .refl _ _ _
    · exact (fate_join hp stack).of_ptable_eq rfl

/-- **What a step does to an entry.** -/
theorem fate_of_step (h : Tidy k) (hstep : Unmonitored.step k a = .ok k') (t : Slot) :
    Fate k k' a t := by
  cases a with
  | cloneCopy p =>
    obtain ⟨np, stack, hcall, hp, rfl⟩ := Unmonitored.step_cloneCopy hstep
    have hf : k.Fills p np := .inr ⟨stack, hcall⟩
    exact (fate_cloneCopy hf (Fills.ne h.toOrderly hp hf) (h.fills_halfMade p np hf).1).of_ptable_eq
      rfl
  | cloneReturn p copied =>
    obtain ⟨np, hcall, -, rfl⟩ := Unmonitored.step_cloneReturn hstep
    exact (fate_cloneReturn h.toOrderly hcall copied).of_ptable_eq rfl
  | exit p =>
    obtain ⟨hp, hok⟩ := Unmonitored.require_eq_ok hstep
    exact fate_exit h hp.1 hok
  | _ => exact fate_of_step_of_ne (by simp) (by simp) (by simp) hstep t

/-! ### Who falls asleep -/

/-- Only in a call of its own does a process fall asleep. -/
theorem Fate.sleeping (h : Fate k k' a t) (ht : (k'.ptable t).state = .sleeping) :
    (k.ptable t).state = .sleeping ∨ a.caller = some t := by
  cases h with
  | kept hstate hstill => exact .inl (hstate.symm.trans ht)
  | slept ha hold hnew hparent => exact .inr ha
  | killed pid ha hit hnew hchan hparent =>
    by_cases hs : (k.ptable t).state = .sleeping
    · exact .inl hs
    · rw [if_neg hs] at hnew
      exact .inl (hnew.symm.trans ht)
  | dispatched ha hold hnew => exact absurd (hnew.symm.trans ht) (by decide)
  | yielded ha hold hnew => exact absurd (hnew.symm.trans ht) (by decide)
  | woken hchan hold hnew => exact absurd (hnew.symm.trans ht) (by decide)
  | exited ha hold hnew => exact absurd (hnew.symm.trans ht) (by decide)
  | reaped hold hnew => exact absurd (hnew.symm.trans ht) (by decide)
  | taken hold hnew => exact absurd (hnew.symm.trans ht) (by decide)
  | filled p ha hmakes hnew =>
    rcases hnew with hnew | hnew | ⟨hnew, -⟩ <;> exact absurd (hnew.symm.trans ht) (by decide)

theorem sleeping_wakeup1 {chan : Chan} (ht : ((k.wakeup1 chan).ptable t).state = .sleeping) :
    (k.ptable t).state = .sleeping := by
  by_cases hwoken : (k.ptable t).state = .sleeping ∧ (k.ptable t).chan = chan
  · exact hwoken.1
  · have hsame : (k.wakeup1 chan).ptable t = k.ptable t := if_neg hwoken
    exact hsame ▸ ht

theorem sleeping_foldl_passChild (l : List Slot) (k : Kernel)
    (ht : ((l.foldl (passChild p) k).ptable t).state = .sleeping) :
    (k.ptable t).state = .sleeping := by
  rcases (roused_foldl_passChild (p := p) l k t).state with heq | ⟨-, hold, -⟩
  · exact heq ▸ ht
  · exact hold

/-- **Only the process in whose call the step is falls asleep in it**, in any table. -/
theorem sleeping_of_step (hstep : Unmonitored.step k a = .ok k')
    (ht : (k'.ptable t).state = .sleeping) :
    (k.ptable t).state = .sleeping ∨ a.caller = some t := by
  cases a with
  | exit p =>
    obtain ⟨-, hok⟩ := Unmonitored.require_eq_ok hstep
    obtain ⟨-, k₁, hk₁, rfl⟩ := exit_eq_ok hok
    by_cases hp : t = p
    · exact .inr (hp ▸ rfl)
    · rw [setState, modify_ptable_of_ne hp, hk₁] at ht
      exact .inl (sleeping_wakeup1 (sleeping_foldl_passChild _ _ ht))
  | cloneCopy p =>
    obtain ⟨np, stack, -, -, rfl⟩ := Unmonitored.step_cloneCopy hstep
    by_cases hp : t = p
    · exact .inr (hp ▸ rfl)
    · left
      by_cases hnp : t = np
      · subst hnp
        rwa [setCall_ptable, cloneCopy_ptable_self hp] at ht
      · rwa [setCall_ptable, cloneCopy_ptable_of_ne hnp hp] at ht
  | cloneReturn p copied =>
    obtain ⟨np, -, -, rfl⟩ := Unmonitored.step_cloneReturn hstep
    left
    by_cases hnp : t = np
    · subst hnp
      rw [setCall_ptable, cloneReturn_ptable_self] at ht
      cases copied
      · exact ht
      · cases ht
    · rwa [setCall_ptable, cloneReturn_ptable_of_ne hnp] at ht
  | _ => exact (fate_of_step_of_ne (by simp) (by simp) (by simp) hstep t).sleeping ht

/-! ### Who is in which call -/

theorem allocproc_call : k.allocproc.2.call = k.call := by
  rcases allocproc_cases k with heq | ⟨np, -, heq⟩ <;> rw [heq]
  rfl

theorem forkCopy_call {space : NewSpace} {r : Kernel × Option ℤ}
    (hr : Unmonitored.forkCopy k p np space = .ok r) (hfresh : space.Fresh k) :
    r.1.call = k.call := by
  rcases Unmonitored.forkCopy_cases hfresh hr with rfl | ⟨d, sz, rfl⟩
  · rfl
  · exact Except.ok.inj hr ▸ rfl

theorem exec_call {space : NewSpace} {r : Kernel × ℤ} (hfresh : space.Fresh k)
    (hr : Unmonitored.exec k p space = .ok r) : r.1.call = k.call := by
  rcases Unmonitored.exec_cases hfresh hr with rfl | ⟨d, sz, rfl⟩
  · rfl
  · obtain ⟨k₁, hfree, hr⟩ := bind_eq_ok_iff.1 hr
    rw [← Except.ok.inj hr, Unmonitored.freevm_eq_ok hfree]
    rfl

theorem wait_call {r : Kernel × Option ℤ} (hr : Unmonitored.wait k p = .ok r) :
    r.1.call = k.call := by
  rcases Unmonitored.wait_cases hr with ⟨x, dirs, -, -, rfl⟩ | rfl | rfl <;> rfl

theorem join_call : (k.join p).1.call = k.call := by
  rw [Kernel.join]
  split
  · rfl
  · split_ifs <;> rfl

/-- A step in `growproc` comes to another one or to the end of the call. -/
theorem growNext_call (hok : k.growNext p = .ok k') :
    (k.call p).Simple ∧ ∃ c : Call, c.Simple ∧ k'.call = Function.update k.call p c := by
  rcases growNext_cases hok with ⟨sz, hcall, rfl⟩ | ⟨sz, q, rest, hcall, rfl⟩ | ⟨sz, hcall, rfl⟩ <;>
    rw [hcall]
  · exact ⟨trivial, .growLoop sz _, trivial, rfl⟩
  · exact ⟨trivial, .growLoop sz rest, trivial, congrArg (Function.update · p _) growChild_call⟩
  · exact ⟨trivial, .user, trivial, rfl⟩

/-- Process `p` takes step `a` and is in call `c` after it. -/
inductive CallChange (k : Kernel) (p : Slot) (a : Action) (c : Call) : Prop where
  | simple (hcall : (k.call p).Simple) (hc : c.Simple)
  | fork (np : Slot) (ha : a = .fork p) (hcall : k.call p = .user) (hc : c = .fork np)
    (hnp : (k.ptable np).state = .unused)
  | clone (np : Slot) (stack : ℕ) (ha : a = .clone p stack) (hcall : k.call p = .user)
    (hc : c = .clone np stack) (hnp : (k.ptable np).state = .unused)
  | noKstack (np : Slot) (ha : a = .noKstack p) (hcall : k.Fills p np) (hc : c = .user)
  | forkCopy (np : Slot) (space : NewSpace) (ha : a = .forkCopy p space)
    (hcall : k.call p = .fork np) (hc : c = .forkReturn np ∨ c = .user)
  | forkReturn (np : Slot) (ha : a = .forkReturn p) (hcall : k.call p = .forkReturn np)
    (hc : c = .user)
  | cloneCopy (np : Slot) (stack : ℕ) (ha : a = .cloneCopy p) (hcall : k.call p = .clone np stack)
    (hc : c = .cloneReturn np)
  | cloneReturn (np : Slot) (copied : Bool) (ha : a = .cloneReturn p copied)
    (hcall : k.call p = .cloneReturn np) (hc : c = .user)

/-- Nobody's call has changed, or that of the caller has. -/
theorem call_of_update {k₁ : Kernel} {c : Call} (hsame : k₁.call = k.call)
    (hchange : CallChange k p a c) (ha : a.caller = some p) (q : Slot) :
    (k₁.setCall p c).call q = k.call q ∨
      a.caller = some q ∧ CallChange k q a ((k₁.setCall p c).call q) := by
  rcases eq_or_ne q p with rfl | hq
  · rw [setCall_call_self]
    exact .inr ⟨ha, hchange⟩
  · exact .inl ((setCall_call_of_ne hq).trans (congrFun hsame q))

/-- **What a step does to the calls that the processes are in.** -/
theorem call_of_step (hstep : Unmonitored.step k a = .ok k') (q : Slot) :
    k'.call q = k.call q ∨ a.caller = some q ∧ CallChange k q a (k'.call q) := by
  cases a with
  | dispatch p =>
    obtain ⟨-, rfl⟩ := Unmonitored.require_ok hstep
    exact .inl rfl
  | yield p =>
    obtain ⟨-, rfl⟩ := Unmonitored.require_ok hstep
    exact .inl rfl
  | sleep p a =>
    obtain ⟨-, rfl⟩ := Unmonitored.require_ok hstep
    exact .inl rfl
  | wakeup a => exact .inl (Except.ok.inj hstep ▸ rfl)
  | kill pid =>
    rw [← Except.ok.inj hstep]
    exact .inl (congrFun kill_call q)
  | growproc p n memory =>
    obtain ⟨hp, ⟨-, rfl⟩ | ⟨sz, -, rfl⟩⟩ := Unmonitored.step_growproc hstep
    · exact .inl rfl
    · exact call_of_update (c := .growproc sz) rfl (.simple (hp.2 ▸ trivial) trivial) rfl q
  | growNext p =>
    obtain ⟨-, hok⟩ := Unmonitored.require_eq_ok hstep
    obtain ⟨hcall, c, hc, hupdate⟩ := growNext_call hok
    rw [hupdate]
    rcases eq_or_ne q p with rfl | hq
    · rw [Function.update_self]
      exact .inr ⟨rfl, .simple hcall hc⟩
    · exact .inl (Function.update_of_ne hq _ _)
  | fork p =>
    obtain ⟨hp, rfl⟩ := Unmonitored.require_ok hstep
    rw [Kernel.fork]
    rcases allocproc_cases k with heq | ⟨np, hnp, heq⟩ <;> rw [heq]
    · exact .inl rfl
    · exact call_of_update rfl (.fork np rfl hp.2 rfl hnp) rfl q
  | noKstack p =>
    obtain ⟨np, hf, -, rfl⟩ := Unmonitored.step_noKstack hstep
    exact call_of_update rfl (.noKstack np rfl hf rfl) rfl q
  | forkCopy p space =>
    obtain ⟨np, r, hcall, -, hfresh, hr, rfl⟩ := Unmonitored.step_forkCopy hstep
    refine call_of_update (forkCopy_call hr hfresh) (.forkCopy np space rfl hcall ?_) rfl q
    split_ifs
    · exact .inl rfl
    · exact .inr rfl
  | forkReturn p =>
    obtain ⟨np, hcall, -, rfl⟩ := Unmonitored.step_forkReturn hstep
    exact call_of_update rfl (.forkReturn np rfl hcall rfl) rfl q
  | clone p stack =>
    obtain ⟨hp, rfl⟩ := Unmonitored.require_ok hstep
    rw [Kernel.clone]
    rcases allocproc_cases k with heq | ⟨np, hnp, heq⟩ <;> rw [heq]
    · exact .inl rfl
    · exact call_of_update rfl (.clone np stack rfl hp.2 rfl hnp) rfl q
  | cloneCopy p =>
    obtain ⟨np, stack, hcall, -, rfl⟩ := Unmonitored.step_cloneCopy hstep
    exact call_of_update rfl (.cloneCopy np stack rfl hcall rfl) rfl q
  | cloneReturn p copied =>
    obtain ⟨np, hcall, -, rfl⟩ := Unmonitored.step_cloneReturn hstep
    exact call_of_update (cloneReturn_call copied) (.cloneReturn np copied rfl hcall rfl) rfl q
  | exec p space =>
    obtain ⟨r, -, hfresh, hr, rfl⟩ := Unmonitored.step_exec hstep
    exact .inl (congrFun (exec_call hfresh hr) q)
  | exit p =>
    obtain ⟨-, hok⟩ := Unmonitored.require_eq_ok hstep
    obtain ⟨hroot, -⟩ := exit_eq_ok hok
    obtain ⟨k₁, hk₁, -, hcall, -⟩ := exit_spec (k := k) hroot
    obtain rfl : k₁ = k' := Except.ok.inj (hk₁.symm.trans hok)
    exact .inl (congrFun hcall q)
  | wait p =>
    obtain ⟨r, -, hcall, hr, rfl⟩ := Unmonitored.step_wait hstep
    refine call_of_update (wait_call hr) (.simple (simple_of_user_or hcall) ?_) rfl q
    split_ifs <;> trivial
  | join p stack =>
    obtain ⟨-, hcall, ⟨-, rfl⟩ | ⟨-, rfl⟩⟩ := Unmonitored.step_join hstep
    · exact .inl rfl
    · refine call_of_update join_call (.simple (simple_of_user_or_join hcall) ?_) rfl q
      split_ifs <;> trivial

/-- A process that is in `clone` with an entry that is not filled in was there, or has just called
it. -/
theorem call_eq_clone (hstep : Unmonitored.step k a = .ok k') {stack : ℕ}
    (hcall : k'.call q = .clone np stack) :
    k.call q = .clone np stack ∨ a = .clone q stack ∧ (k.ptable np).state = .unused := by
  rcases call_of_step hstep q with hsame | ⟨-, hchange⟩
  · exact .inl (hsame.symm.trans hcall)
  · rw [hcall] at hchange
    cases hchange with
    | simple _ hc => exact hc.elim
    | clone np' stack' ha _ hc hnp =>
      obtain ⟨rfl, rfl⟩ := Call.clone.inj hc
      exact .inr ⟨ha, hnp⟩
    | forkCopy _ _ _ _ hc => rcases hc with hc | hc <;> cases hc
    | fork _ _ _ hc => cases hc
    | noKstack _ _ _ hc => cases hc
    | forkReturn _ _ _ hc => cases hc
    | cloneCopy _ _ _ _ hc => cases hc
    | cloneReturn _ _ _ _ hc => cases hc

/-- A process that has filled in a thread had done so, or has just done so. -/
theorem call_eq_cloneReturn (hstep : Unmonitored.step k a = .ok k')
    (hcall : k'.call q = .cloneReturn np) :
    k.call q = .cloneReturn np ∨ a = .cloneCopy q ∧ ∃ stack, k.call q = .clone np stack := by
  rcases call_of_step hstep q with hsame | ⟨-, hchange⟩
  · exact .inl (hsame.symm.trans hcall)
  · rw [hcall] at hchange
    cases hchange with
    | simple _ hc => exact hc.elim
    | cloneCopy np' stack ha hold hc =>
      obtain rfl := Call.cloneReturn.inj hc
      exact .inr ⟨ha, stack, hold⟩
    | forkCopy _ _ _ _ hc => rcases hc with hc | hc <;> cases hc
    | fork _ _ _ hc => cases hc
    | clone _ _ _ _ hc => cases hc
    | noKstack _ _ _ hc => cases hc
    | forkReturn _ _ _ hc => cases hc
    | cloneReturn _ _ _ _ hc => cases hc

/-- A process that has called `clone` is in that call until it has filled in the thread, or there
was no kernel stack for it. -/
theorem call_of_clone {stack : ℕ} (hcall : k.call p = .clone np stack) (hcopy : a ≠ .cloneCopy p)
    (hno : a ≠ .noKstack p) (hstep : Unmonitored.step k a = .ok k') :
    k'.call p = .clone np stack := by
  rcases call_of_step hstep p with hsame | ⟨-, hchange⟩
  · exact hsame.trans hcall
  · cases hchange with
    | simple hold => exact (hcall ▸ hold : (Call.clone np stack).Simple).elim
    | noKstack _ ha => exact absurd ha hno
    | cloneCopy _ _ ha => exact absurd ha hcopy
    | fork _ _ hold => cases hcall.symm.trans hold
    | clone _ _ _ hold => cases hcall.symm.trans hold
    | forkCopy _ _ _ hold => cases hcall.symm.trans hold
    | forkReturn _ _ hold => cases hcall.symm.trans hold
    | cloneReturn _ _ _ hold => cases hcall.symm.trans hold

/-- Then it is about to make the thread RUNNABLE, until it does. -/
theorem call_of_cloneReturn (hcall : k.call p = .cloneReturn np)
    (hreturn : ∀ copied, a ≠ .cloneReturn p copied) (hstep : Unmonitored.step k a = .ok k') :
    k'.call p = .cloneReturn np := by
  rcases call_of_step hstep p with hsame | ⟨-, hchange⟩
  · exact hsame.trans hcall
  · cases hchange with
    | simple hold => exact (hcall ▸ hold : (Call.cloneReturn np).Simple).elim
    | noKstack _ _ hold => rcases hold with hold | ⟨_, hold⟩ <;> cases hcall.symm.trans hold
    | cloneReturn _ copied ha => exact absurd ha (hreturn copied)
    | fork _ _ hold => cases hcall.symm.trans hold
    | clone _ _ _ hold => cases hcall.symm.trans hold
    | forkCopy _ _ _ hold => cases hcall.symm.trans hold
    | forkReturn _ _ hold => cases hcall.symm.trans hold
    | cloneCopy _ _ _ hold => cases hcall.symm.trans hold

/-! ### The table stays tidy -/

/-- An entry that is awake was so before, or is new and has a parent. -/
theorem Fate.awake (h : Fate k k' a t) (ht : (k'.ptable t).Awake) :
    (k.ptable t).Awake ∧ ((k'.ptable t).parent = none → (k.ptable t).parent = none) ∨
      (k'.ptable t).parent ≠ none := by
  cases h with
  | kept hstate hstill => exact .inl ⟨by rw [Proc.Awake, ← hstate]; exact ht, hstill.parent.1⟩
  | dispatched ha hold hnew hchan hkilled hparent =>
    exact .inl ⟨.inr (.inl hold), fun h ↦ hparent ▸ h⟩
  | yielded ha hold hnew hstill => exact .inl ⟨.inr (.inr hold), hstill.parent.1⟩
  | slept ha hold hnew hparent => exact .inl ⟨.inr (.inr hold), fun h ↦ hparent ▸ h⟩
  | woken hchan hold hnew hstill => exact .inl ⟨.inl hold, hstill.parent.1⟩
  | killed pid ha hit hnew hchan hparent =>
    refine .inl ⟨?_, fun h ↦ hparent ▸ h⟩
    by_cases hs : (k.ptable t).state = .sleeping
    · exact .inl hs
    · rw [if_neg hs] at hnew
      rw [Proc.Awake, ← hnew]
      exact ht
  | exited ha hold hnew => rcases ht with ht | ht | ht <;> rw [hnew] at ht <;> cases ht
  | reaped hold hnew => rcases ht with ht | ht | ht <;> rw [hnew] at ht <;> cases ht
  | taken hold hnew => rcases ht with ht | ht | ht <;> rw [hnew] at ht <;> cases ht
  | filled p ha hmakes hnew =>
    rcases hnew with hnew | hnew | ⟨-, hparent⟩
    · rcases ht with ht | ht | ht <;> rw [hnew] at ht <;> cases ht
    · rcases ht with ht | ht | ht <;> rw [hnew] at ht <;> cases ht
    · exact .inr hparent

/-- Who runs has been dispatched with no address to sleep on, or ran before. -/
theorem Fate.running (h : Fate k k' a t) (ht : k'.Running t) :
    (k'.ptable t).chan = .null ∨ k.Running t ∧ (k'.ptable t).chan = (k.ptable t).chan := by
  cases h with
  | kept hstate hstill => exact .inr ⟨hstate.symm.trans ht, hstill.chan⟩
  | dispatched ha hold hnew hchan => exact .inl hchan
  | killed pid ha hit hnew hchan hparent =>
    by_cases hs : (k.ptable t).state = .sleeping
    · rw [if_pos hs] at hnew
      exact absurd (hnew.symm.trans ht) (by decide)
    · rw [if_neg hs] at hnew
      exact .inr ⟨hnew.symm.trans ht, hchan⟩
  | yielded ha hold hnew => exact absurd (hnew.symm.trans ht) (by decide)
  | slept ha hold hnew => exact absurd (hnew.symm.trans ht) (by decide)
  | woken hchan hold hnew => exact absurd (hnew.symm.trans ht) (by decide)
  | exited ha hold hnew => exact absurd (hnew.symm.trans ht) (by decide)
  | reaped hold hnew => exact absurd (hnew.symm.trans ht) (by decide)
  | taken hold hnew => exact absurd (hnew.symm.trans ht) (by decide)
  | filled p ha hmakes hnew =>
    rcases hnew with hnew | hnew | ⟨hnew, -⟩ <;> exact absurd (hnew.symm.trans ht) (by decide)

/-- Who runs did so before, or has been given a processor. -/
theorem Fate.dispatched_of_running (h : Fate k k' a t) (ht : k'.Running t) :
    k.Running t ∨ a = .dispatch t := by
  cases h with
  | kept hstate => exact .inl (hstate.symm.trans ht)
  | dispatched ha => exact .inr ha
  | killed pid ha hit hnew =>
    split_ifs at hnew with hs
    · exact absurd (hnew.symm.trans ht) (by decide)
    · exact .inl (hnew.symm.trans ht)
  | yielded _ _ hnew => exact absurd (hnew.symm.trans ht) (by decide)
  | slept _ _ hnew => exact absurd (hnew.symm.trans ht) (by decide)
  | woken _ _ hnew => exact absurd (hnew.symm.trans ht) (by decide)
  | exited _ _ hnew => exact absurd (hnew.symm.trans ht) (by decide)
  | reaped _ hnew => exact absurd (hnew.symm.trans ht) (by decide)
  | taken _ hnew => exact absurd (hnew.symm.trans ht) (by decide)
  | filled q _ _ hnew =>
    rcases hnew with hnew | hnew | ⟨hnew, -⟩ <;> exact absurd (hnew.symm.trans ht) (by decide)

/-- A step keeps the table tidy, -/
theorem Kernel.Tidy.step (h : Tidy k) (hstep : Unmonitored.step k a = .ok k') : Tidy k' := by
  have hfate := fate_of_step h hstep
  refine ⟨h.toOrderly.step hstep, fun p hp ↦ ?_, fun p hp hroot hnone ↦ ?_⟩
  · rcases (hfate p).running hp with hnull | ⟨hold, hchan⟩
    · exact hnull
    · exact hchan.trans (h.chan p hold)
  · rcases (hfate p).awake hp with ⟨hold, hparent⟩ | hsome
    · exact h.parent p hold hroot (hparent hnone)
    · exact hsome hnone

/-- as it is at boot. -/
theorem tidy_userinit {d : ℕ} (hd : d ≠ 0) : Tidy (userinit d) := by
  have hfirst : ∀ p, ((userinit d).ptable p).Awake → p = initproc := by
    intro p hp
    by_contra hne
    rw [userinit_ptable_of_ne d hne] at hp
    rcases hp with hp | hp | hp <;> cases hp
  refine ⟨(userinit_inv hd).toOrderly, fun p hp ↦ ?_, fun p hp hroot ↦ absurd (hfirst p hp) hroot⟩
  rw [hfirst p hp.awake, userinit_ptable_initproc]

end Threads
