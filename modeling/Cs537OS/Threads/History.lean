import Cs537OS.Threads.Entries

/-!
# What the calls have returned

Runs of the kernel with the record of what `fork`, `clone`, `wait` and `join` have returned and of
who has exited, latest first. `Kernel.events` reads what a step adds to the record off the results
of the calls. The pids that `fork` and `clone` return are recorded when the child becomes RUNNABLE,
since it may have exited when they return.

`Change` lists what a step can do to the table as far as the bookkeeping of threads reads it: which
entries are taken, for whom, with which page directory, stack and pid. `change_of_step` says that
there is nothing else. It leaves out `clone` when the stack of the thread cannot be written.
-/

open GuardedLoop (bind_eq_ok_iff)
open Xv6

namespace Threads

open Kernel

/-- What a call has returned or will return to process `p`, or who has exited. -/
inductive Event where
  | forked (p : Slot) (pid : ℤ)
  | cloned (p : Slot) (pid : ℤ) (stack : ℕ)
  | exited (pid : ℤ)
  | waited (p : Slot) (pid : ℤ)
  | joined (p : Slot) (pid : ℤ) (stack : ℕ)
deriving DecidableEq

/-- The process or thread that the event is about. -/
def Event.pid : Event → ℤ
  | .forked _ pid => pid
  | .cloned _ pid _ => pid
  | .exited pid => pid
  | .waited _ pid => pid
  | .joined _ pid _ => pid

namespace Kernel

/-- What one scan of `wait` returns, if it returns. -/
def waitResult (k : Kernel) (p : Slot) : Option ℤ :=
  match Unmonitored.wait k p with
  | .ok r => r.2
  | .error _ => none

/-- What a step of `join` returns, if it returns: a pid with the stack that is stored, or -1. -/
def joinResult (k : Kernel) (p : Slot) (stack : ℕ) : Option (ℤ × Option ℕ) :=
  if k.call p = .user ∧ ¬ k.joinArgument p stack then some (-1, none) else (k.join p).2

/-- What a step adds to the record. -/
def events (k : Kernel) : Action → List Event
  | .forkCopy p space =>
    match k.call p with
    | .fork np =>
      match Unmonitored.forkCopy k p np space with
      | .ok (_, some pid) => [.forked p pid]
      | _ => []
    | _ => []
  | .cloneReturn p copied =>
    match k.call p with
    | .cloneReturn np =>
      let r := k.cloneReturn np copied
      if r.2 = -1 then [] else [.cloned p r.2 (k.ptable np).stack]
    | _ => []
  | .exit p => [.exited (k.ptable p).pid]
  | .wait p =>
    match k.waitResult p with
    | some pid => if pid = -1 then [] else [.waited p pid]
    | none => []
  | .join p stack =>
    match k.joinResult p stack with
    | some (pid, some stored) => [.joined p pid stored]
    | _ => []
  | _ => []

end Kernel

/-- The runs of the kernel from boot, with the record. -/
def recorded : System (Kernel × List Event) Action where
  init s := (∃ d, d ≠ 0 ∧ s.1 = userinit d) ∧ s.2 = []
  next s a t := Unmonitored.step s.1 a = .ok t.1 ∧ t.2 = s.1.events a ++ s.2

/-! ### What a step can do -/

/-- Nothing that the bookkeeping of threads reads has changed, up to parent and page directory. -/
structure Alike (a a' : Proc) : Prop where
  unused : a'.state = .unused ↔ a.state = .unused
  embryo : a'.state = .embryo ↔ a.state = .embryo
  halfMade : a'.HalfMade ↔ a.HalfMade
  zombie : a'.state = .zombie ↔ a.state = .zombie
  pid : a'.pid = a.pid
  stack : a'.stack = a.stack
  countThread : a.state = .zombie → a'.countThread = a.countThread

/-- Nothing that the bookkeeping of threads reads has changed. -/
structure Same (a a' : Proc) : Prop extends Alike a a' where
  parent : a'.parent = a.parent
  pgdir : a'.pgdir = a.pgdir

theorem Same.of_kept {a a' : Proc} (h : Kept a a') (hpid : a'.pid = a.pid)
    (hstack : a'.stack = a.stack) (hparent : a'.parent = a.parent) : Same a a' := by
  refine ⟨⟨h.unused, h.embryo, ?_, h.zombie, hpid, hstack, fun _ ↦ h.countThread⟩, hparent,
    h.pgdir⟩
  rw [Proc.HalfMade, Proc.HalfMade, h.embryo, hparent]

theorem Same.refl (a : Proc) : Same a a := .of_kept (.refl a) rfl rfl rfl

/-- What action `a` does to the table, and what it adds to the record. -/
inductive Change (k k' : Kernel) (a : Action) : List Event → Prop where
  /-- Nothing. -/
  | idle (hsame : ∀ i, Same (k.ptable i) (k'.ptable i)) (hnext : k'.nextpid = k.nextpid) :
    Change k k' a []
  /-- An entry is taken. -/
  | take (np : Slot) (hold : (k.ptable np).state = .unused) (hnew : (k'.ptable np).HalfMade)
    (hpid : (k'.ptable np).pid = k.nextpid)
    (hrest : ∀ i, i ≠ np → Same (k.ptable i) (k'.ptable i)) (hnext : k'.nextpid = k.nextpid + 1) :
    Change k k' a []
  /-- It goes back. -/
  | giveUp (np : Slot) (hold : (k.ptable np).HalfMade) (hnew : (k'.ptable np).state = .unused)
    (hrest : ∀ i, i ≠ np → Same (k.ptable i) (k'.ptable i)) (hnext : k'.nextpid = k.nextpid) :
    Change k k' a []
  /-- It becomes a child of `q` with a page directory that was free. -/
  | child (q np : Slot) (hq : k.Running q) (hold : (k.ptable np).HalfMade)
    (hnew : (k'.ptable np).state = .runnable) (hpid : (k'.ptable np).pid = (k.ptable np).pid)
    (hparent : (k'.ptable np).parent = some q) (hpgdir : (k'.ptable np).pgdir ∉ k.pgdirs)
    (hrest : ∀ i, i ≠ np → Same (k.ptable i) (k'.ptable i)) (hnext : k'.nextpid = k.nextpid) :
    Change k k' a [.forked q (k.ptable np).pid]
  /-- The count of a child is set. -/
  | reset (q np : Slot) (ha : a = .forkReturn q) (hcall : k.call q = .forkReturn np)
    (hnew : k'.ptable np = { k.ptable np with countThread := 0 })
    (hrest : ∀ i, i ≠ np → Same (k.ptable i) (k'.ptable i)) (hnext : k'.nextpid = k.nextpid) :
    Change k k' a []
  /-- It becomes an EMBRYO in the address space of `q`. -/
  | claim (q np : Slot) (stack : ℕ) (ha : a = .cloneCopy q) (hq : k.Running q)
    (hcall : k.call q = .clone np stack) (hold : (k.ptable np).HalfMade)
    (hnew : (k'.ptable np).state = .embryo) (hpid : (k'.ptable np).pid = (k.ptable np).pid)
    (hparent : (k'.ptable np).parent = some q) (hpgdir : (k'.ptable np).pgdir = (k.ptable q).pgdir)
    (hstack : (k'.ptable np).stack = stack)
    (hrest : ∀ i, i ≠ np → Same (k.ptable i) (k'.ptable i)) (hnext : k'.nextpid = k.nextpid) :
    Change k k' a []
  /-- It becomes a thread of `q`. -/
  | thread (q np : Slot) (ha : a = .cloneReturn q true) (hcall : k.call q = .cloneReturn np)
    (hold : (k.ptable np).state = .embryo)
    (hnew : k'.ptable np = { k.ptable np with state := .runnable })
    (hrest : ∀ i, i ≠ np → Same (k.ptable i) (k'.ptable i)) (hnext : k'.nextpid = k.nextpid) :
    Change k k' a [.cloned q (k.ptable np).pid (k.ptable np).stack]
  /-- A process gets a page directory that was free. -/
  | exec (q : Slot) (d sz : ℕ) (ha : a = .exec q (.ready d sz)) (hq : k.Running q)
    (hd : d ∉ k.pgdirs)
    (hnew : k'.ptable q = { k.ptable q with pgdir := d, sz := sz })
    (hrest : ∀ i, i ≠ q → Same (k.ptable i) (k'.ptable i)) (hnext : k'.nextpid = k.nextpid) :
    Change k k' a []
  /-- A process exits, and its children are passed to the first process. -/
  | exit (q : Slot) (ha : a = .exit q) (hq : k.Running q) (hroot : q ≠ initproc)
    (hnew : (k'.ptable q).state = .zombie) (hpid : (k'.ptable q).pid = (k.ptable q).pid)
    (hpgdir : ∀ i, (k'.ptable i).pgdir = (k.ptable i).pgdir)
    (hstack : (k'.ptable q).stack = (k.ptable q).stack)
    (hcount : (k'.ptable q).countThread = (k.ptable q).countThread)
    (hparent : ∀ i, (k'.ptable i).parent =
      if (k.ptable i).parent = some q then some initproc else (k.ptable i).parent)
    (hrest : ∀ i, i ≠ q → Alike (k.ptable i) (k'.ptable i)) (hnext : k'.nextpid = k.nextpid) :
    Change k k' a [.exited (k.ptable q).pid]
  /-- `wait` of `q` reaps `x`. -/
  | wait (q x : Slot) (hq : k.Running q) (hx : k.Awaited q x) (hold : (k.ptable x).state = .zombie)
    (hnew : (k'.ptable x).state = .unused) (hrest : ∀ i, i ≠ x → Same (k.ptable i) (k'.ptable i))
    (hnext : k'.nextpid = k.nextpid) : Change k k' a [.waited q (k.ptable x).pid]
  /-- `join` of `q` reaps `x`. -/
  | join (q x : Slot) (hq : k.Running q) (hx : k.Joined q x) (hold : (k.ptable x).state = .zombie)
    (hnew : (k'.ptable x).state = .unused) (hrest : ∀ i, i ≠ x → Same (k.ptable i) (k'.ptable i))
    (hnext : k'.nextpid = k.nextpid) :
    Change k k' a [.joined q (k.ptable x).pid (k.ptable x).stack]

variable {k k' : Kernel} {p q np : Slot} {a : Action}

/-! ### Moves of the scheduler -/

/-- A change of one entry that is not noticed. -/
theorem same_modify {f : Proc → Proc} (hf : Same (k.ptable p) (f (k.ptable p))) (i : Slot) :
    Same (k.ptable i) ((k.modify p f).ptable i) := by
  by_cases hi : i = p
  · rw [hi, modify_ptable_self]
    exact hf
  · rw [modify_ptable_of_ne hi]
    exact .refl _

theorem same_modify_of_ne {f : Proc → Proc} {i : Slot} (hi : i ≠ p) :
    Same (k.ptable i) ((k.modify p f).ptable i) := by
  rw [modify_ptable_of_ne hi]
  exact .refl _

theorem Kernel.Running.same_sleep (hp : k.Running p) {chan : Chan} (i : Slot) :
    Same (k.ptable i) ((k.sleep p chan).ptable i) :=
  same_modify (.of_kept (kept_of_awake rfl rfl (.inr (.inr hp)) (.inl rfl)) rfl rfl rfl) i

theorem same_wakeup1 {chan : Chan} (i : Slot) : Same (k.ptable i) ((k.wakeup1 chan).ptable i) := by
  show Same _ (ite _ _ _)
  split_ifs with hi
  · exact .of_kept (kept_of_awake rfl rfl (.inl hi.1) (.inr (.inl rfl))) rfl rfl rfl
  · exact .refl _

theorem same_kill {pid : ℤ} (i : Slot) : Same (k.ptable i) ((k.kill pid).ptable i) := by
  rw [Kernel.kill]
  split
  · exact .refl _
  · rename_i p _
    refine same_modify (.of_kept ?_ rfl rfl rfl) i
    by_cases hs : (k.ptable p).state = .sleeping
    · exact kept_of_awake rfl rfl (.inl hs) (.inr (.inl (if_pos hs)))
    · refine ⟨rfl, rfl, ?_, ?_, ?_⟩ <;> simp [hs]

/-- A size is not noticed. -/
theorem same_growSelf {sz : ℕ} (i : Slot) : Same (k.ptable i) ((k.growSelf p sz).ptable i) :=
  same_modify (f := fun a ↦ { a with sz := sz })
    (.of_kept ⟨rfl, rfl, .rfl, .rfl, .rfl⟩ rfl rfl rfl) i

theorem change_growNext (hok : k.growNext p = .ok k') : Change k k' a [] := by
  rcases growNext_cases hok with ⟨sz, -, rfl⟩ | ⟨sz, q, rest, -, rfl⟩ | ⟨sz, -, rfl⟩
  · exact .idle same_growSelf rfl
  · rw [growChild]
    split_ifs
    · exact .idle same_growSelf rfl
    · exact .idle (fun i ↦ .refl _) rfl
  · exact .idle (fun i ↦ .refl _) rfl

theorem kill_nextpid {pid : ℤ} : (k.kill pid).nextpid = k.nextpid := by
  rw [Kernel.kill]
  split <;> rfl

/-! ### The calls -/

/-- The first step of `fork` and of `clone`. -/
theorem change_allocproc (h : Orderly k) : Change k k.allocproc.2 a [] := by
  rcases allocproc_cases k with heq | ⟨np, hnp, heq⟩ <;> rw [heq]
  · exact .idle (fun i ↦ .refl _) rfl
  · refine .take np hnp (allocEntry_halfMade h hnp) ?_ (fun i hi ↦ ?_) rfl
    · rw [allocEntry, modify_ptable_self]
    · rw [allocEntry_ptable_of_ne hi]
      exact .refl _

theorem Change.setCall {es : List Event} (h : Change k k' a es) (c : Call) :
    Change k (k'.setCall p c) a es := by
  cases h with
  | idle hsame hnext => exact .idle hsame hnext
  | take np hold hnew hpid hrest hnext => exact .take np hold hnew hpid hrest hnext
  | giveUp np hold hnew hrest hnext => exact .giveUp np hold hnew hrest hnext
  | child q np hq hold hnew hpid hparent hpgdir hrest hnext =>
    exact .child q np hq hold hnew hpid hparent hpgdir hrest hnext
  | reset q np ha hcall hnew hrest hnext => exact .reset q np ha hcall hnew hrest hnext
  | claim q np stack ha hq hcall hold hnew hpid hparent hpgdir hstack hrest hnext =>
    exact .claim q np stack ha hq hcall hold hnew hpid hparent hpgdir hstack hrest hnext
  | thread q np ha hcall hold hnew hrest hnext => exact .thread q np ha hcall hold hnew hrest hnext
  | exec q d sz ha hq hd hnew hrest hnext => exact .exec q d sz ha hq hd hnew hrest hnext
  | exit q ha hq hroot hnew hpid hpgdir hstack hcount hparent hrest hnext =>
    exact .exit q ha hq hroot hnew hpid hpgdir hstack hcount hparent hrest hnext
  | wait q x hq hx hold hnew hrest hnext => exact .wait q x hq hx hold hnew hrest hnext
  | join q x hq hx hold hnew hrest hnext => exact .join q x hq hx hold hnew hrest hnext

/-- The start of `fork` takes an entry, -/
theorem change_fork (h : Orderly k) : Change k (k.fork p) a [] := by
  have halloc := change_allocproc (a := a) h
  rw [Kernel.fork]
  split <;> rename_i heq <;> rw [heq] at halloc
  · exact halloc
  · exact halloc.setCall _

/-- and so does that of `clone`. -/
theorem change_clone (h : Orderly k) (stack : ℕ) : Change k (k.clone p stack) a [] := by
  have halloc := change_allocproc (a := a) h
  rw [Kernel.clone]
  split <;> rename_i heq <;> rw [heq] at halloc
  · exact halloc
  · exact halloc.setCall _

/-- An entry that goes back. -/
theorem change_goesBack (hhalf : (k.ptable np).HalfMade) {f : Proc → Proc}
    (hstate : ∀ a, (f a).state = .unused) : Change k (k.modify np f) a [] := by
  refine .giveUp np hhalf ?_ (fun i hi ↦ same_modify_of_ne hi) rfl
  rw [modify_ptable_self, hstate]

/-- The second step of `fork`. -/
theorem change_forkCopy (hp : k.Running p) (hhalf : (k.ptable np).HalfMade) {space : NewSpace}
    (hfresh : space.Fresh k) {r : Kernel × Option ℤ}
    (hr : Unmonitored.forkCopy k p np space = .ok r) :
    Change k r.1 a (r.2.toList.map (Event.forked p)) := by
  rcases Unmonitored.forkCopy_cases hfresh hr with rfl | ⟨d, sz, rfl⟩
  · exact change_goesBack (f := fun a ↦ { a with pgdir := 0, state := .unused }) hhalf fun _ ↦ rfl
  · rw [← Except.ok.inj hr]
    refine .child p np hp hhalf ?_ ?_ ?_ ?_ (fun i hi ↦ ?_) rfl
    · rw [modify_ptable_self]
    · rw [modify_ptable_self]
      rfl
    · rw [modify_ptable_self]
    · rw [modify_ptable_self]
      exact hfresh.2
    · rw [modify_ptable_of_ne hi]
      exact .refl _

/-- The second step of `clone` changes the entry of the thread, and otherwise only a count. -/
theorem same_cloneCopy (hp : k.Running p) (hne : np ≠ p) (stack : ℕ) {i : Slot} (hi : i ≠ np) :
    Same (k.ptable i) ((k.cloneCopy p np stack).ptable i) := by
  by_cases hip : i = p
  · subst hip
    rw [cloneCopy_ptable_parent hne]
    refine ⟨⟨.rfl, .rfl, .rfl, .rfl, rfl, rfl, fun hz ↦ ?_⟩, rfl, rfl⟩
    rw [hp] at hz
    cases hz
  · rw [cloneCopy_ptable_of_ne hi hip]
    exact .refl _

/-- The entry that `clone` fills in is not recorded before the call returns. -/
theorem change_cloneCopy (h : Orderly k) (hp : k.Running p) {stack : ℕ}
    (hcall : k.call p = .clone np stack) :
    Change k (k.cloneCopy p np stack) (.cloneCopy p) [] := by
  have hf : k.Fills p np := .inr ⟨stack, hcall⟩
  have hne := Fills.ne h hp hf
  have hhalf := h.fills_halfMade p np hf
  have hself := cloneCopy_ptable_self (k := k) hne stack
  refine .claim p np stack rfl hp hcall hhalf ?_ ?_ ?_ ?_ ?_
    (fun i hi ↦ same_cloneCopy hp hne stack hi) rfl <;> rw [hself]
  exact hhalf.1

/-- The last step of `clone`, when the stack could be written. -/
theorem change_cloneReturn (h : Orderly k) (hcall : k.call p = .cloneReturn np)
    (hpid : 0 < (k.ptable np).pid) :
    Change k (k.cloneReturn np true).1 (.cloneReturn p true)
      (if (k.cloneReturn np true).2 = -1 then []
        else [.cloned p (k.cloneReturn np true).2 (k.ptable np).stack]) := by
  have hresult : (k.cloneReturn np true).2 = (k.ptable np).pid := rfl
  rw [hresult, if_neg (by omega)]
  refine .thread p np rfl hcall (h.made_embryo p np hcall) ?_ (fun i hi ↦ ?_) rfl
  · rw [cloneReturn_ptable_self]
    rfl
  · rw [cloneReturn_ptable_of_ne hi]
    exact .refl _

/-- `exec` changes the page directory at most. -/
theorem change_exec (hp : k.Running p) {space : NewSpace} (hfresh : space.Fresh k)
    {r : Kernel × ℤ} (hr : Unmonitored.exec k p space = .ok r) :
    Change k r.1 (.exec p space) [] := by
  rcases Unmonitored.exec_cases hfresh hr with rfl | ⟨d, sz, rfl⟩
  · exact .idle (fun i ↦ .refl _) rfl
  · obtain ⟨k₁, hfree, hr⟩ := bind_eq_ok_iff.1 hr
    rw [← Except.ok.inj hr, Unmonitored.freevm_eq_ok hfree]
    refine .exec p d sz rfl hp hfresh.2 ?_ (fun i hi ↦ ?_) rfl
    · dsimp only
      rw [modify_ptable_self]
      rfl
    · dsimp only
      rw [modify_ptable_of_ne hi]
      exact .refl _

theorem foldl_passChild_nextpid (l : List Slot) (k : Kernel) :
    (l.foldl (passChild p) k).nextpid = k.nextpid := by
  induction l generalizing k with
  | nil => rfl
  | cons q l ih =>
    refine (ih _).trans ?_
    rcases passChild_cases p k q with ⟨-, heq⟩ | ⟨-, k', rfl, heq | heq⟩ <;> rw [heq] <;> rfl

theorem exit_nextpid (hexit : k.exit p = .ok k') : k'.nextpid = k.nextpid := by
  obtain ⟨-, k₁, hk₁, rfl⟩ := exit_eq_ok hexit
  show k₁.nextpid = _
  rw [hk₁, foldl_passChild_nextpid]
  rfl

/-- `exit` is recorded. -/
theorem change_exit (hp : k.Running p) (hexit : k.exit p = .ok k') :
    Change k k' (.exit p) [.exited (k.ptable p).pid] := by
  obtain ⟨hroot, -⟩ := exit_eq_ok hexit
  obtain ⟨k₁, hk₁, -, -, hkept, hzombie, -, hcount, hparent⟩ := exit_spec (k := k) hroot
  obtain rfl : k₁ = k' := Except.ok.inj (hk₁.symm.trans hexit)
  have hpid := exit_field Proc.pid (fun _ _ ↦ rfl) (fun _ _ ↦ rfl) hexit
  have hstack := exit_field Proc.stack (fun _ _ ↦ rfl) (fun _ _ ↦ rfl) hexit
  have hpgdir := exit_field Proc.pgdir (fun _ _ ↦ rfl) (fun _ _ ↦ rfl) hexit
  refine .exit p rfl hp hroot hzombie (hpid p) hpgdir (hstack p) hcount hparent (fun i hi ↦ ?_)
    (exit_nextpid hexit)
  have h := hkept i hi
  exact ⟨h.unused, h.embryo, (present_exit h (hparent i)).1, h.zombie, hpid i, hstack i,
    fun _ ↦ h.countThread⟩

theorem reap_ptable_self : ((k.reap q).ptable q).state = .unused := by
  rw [reap, modify_ptable_self]

/-- The pid that `wait` returns is recorded, -/
theorem change_wait (hp : k.Running p)
    (hpid : ∀ i, (k.ptable i).state = .zombie → 0 < (k.ptable i).pid)
    {r : Kernel × Option ℤ} (hr : Unmonitored.wait k p = .ok r) :
    Change k r.1 a (match r.2 with
      | some pid => if pid = -1 then [] else [.waited p pid]
      | none => []) := by
  rcases Unmonitored.wait_cases hr with ⟨x, dirs, hchild, -, rfl⟩ | rfl | rfl
  · obtain ⟨hx, hzombie⟩ := zombieChild_eq_some hchild
    have hpos := hpid x hzombie
    rw [show (match some (k.ptable x).pid with
      | some pid => if pid = -1 then [] else [Event.waited p pid]
      | none => []) = [Event.waited p (k.ptable x).pid] from if_neg (by omega)]
    refine .wait p x hp hx hzombie reap_ptable_self (fun i hi ↦ ?_) rfl
    rw [reap_ptable_of_ne hi]
    exact .refl _
  · exact .idle (fun i ↦ .refl _) rfl
  · exact .idle hp.same_sleep rfl

/-- and the one that `join` returns, with its stack. -/
theorem change_join (hp : k.Running p) :
    Change k (k.join p).1 a (match (k.join p).2 with
      | some (pid, some stored) => [.joined p pid stored]
      | _ => []) := by
  rw [Kernel.join]
  cases hthread : k.zombieThread p with
  | none =>
    dsimp only
    split_ifs
    · exact .idle (fun i ↦ .refl _) rfl
    · exact .idle hp.same_sleep rfl
  | some x =>
    obtain ⟨hx, hzombie⟩ := zombieThread_eq_some hthread
    have hxp : x ≠ p := by
      rintro rfl
      rw [hp] at hzombie
      cases hzombie
    refine .join p x hp hx hzombie ?_ (fun i hi ↦ ?_) rfl
    · rw [modify_ptable_of_ne hxp]
      exact reap_ptable_self
    · by_cases hip : i = p
      · subst hip
        rw [modify_ptable_self, reap_ptable_of_ne hi]
        refine ⟨⟨.rfl, .rfl, .rfl, .rfl, rfl, rfl, fun hz ↦ ?_⟩, rfl, rfl⟩
        rw [hp] at hz
        cases hz
      · rw [modify_ptable_of_ne hip, reap_ptable_of_ne hi]
        exact .refl _

/-- **What a step does to the table, and what it adds to the record.** -/
theorem change_of_step (h : Orderly k)
    (hpid : ∀ i, (k.ptable i).state ≠ .unused → 0 < (k.ptable i).pid)
    (ha : ∀ p copied, a = .cloneReturn p copied → copied = true)
    (hstep : Unmonitored.step k a = .ok k') : Change k k' a (k.events a) := by
  cases a with
  | dispatch p =>
    obtain ⟨hp, rfl⟩ := Unmonitored.require_ok hstep
    exact .idle (same_modify (.of_kept
      (kept_of_awake rfl rfl (.inr (.inl hp)) (.inr (.inr rfl))) rfl rfl rfl)) rfl
  | yield p =>
    obtain ⟨hp, rfl⟩ := Unmonitored.require_ok hstep
    exact .idle (same_modify (.of_kept
      (kept_of_awake rfl rfl (.inr (.inr hp)) (.inr (.inl rfl))) rfl rfl rfl)) rfl
  | sleep p a =>
    obtain ⟨hp, rfl⟩ := Unmonitored.require_ok hstep
    exact .idle hp.same_sleep rfl
  | wakeup a =>
    rw [← Except.ok.inj hstep]
    exact .idle same_wakeup1 rfl
  | kill pid =>
    rw [← Except.ok.inj hstep]
    exact .idle same_kill kill_nextpid
  | growproc p n memory =>
    obtain ⟨-, ⟨-, rfl⟩ | ⟨sz, -, rfl⟩⟩ := Unmonitored.step_growproc hstep
    · exact .idle (fun i ↦ .refl _) rfl
    · exact .idle (fun i ↦ .refl _) rfl
  | growNext p =>
    obtain ⟨-, hok⟩ := Unmonitored.require_eq_ok hstep
    exact change_growNext hok
  | fork p =>
    obtain ⟨-, rfl⟩ := Unmonitored.require_ok hstep
    exact change_fork h
  | noKstack p =>
    obtain ⟨np, hf, -, rfl⟩ := Unmonitored.step_noKstack hstep
    exact (change_goesBack (f := fun a ↦ { a with state := .unused }) (h.fills_halfMade p np hf)
      fun _ ↦ rfl).setCall _
  | forkCopy p space =>
    obtain ⟨np, r, hcall, hp, hfresh, hr, rfl⟩ := Unmonitored.step_forkCopy hstep
    have hchange := change_forkCopy (a := .forkCopy p space) hp
      (h.fills_halfMade p np (.inl hcall)) hfresh hr
    obtain ⟨k₁, result⟩ := r
    simp only [events, hcall, hr]
    cases result <;> exact hchange.setCall _
  | forkReturn p =>
    obtain ⟨np, hcall, -, rfl⟩ := Unmonitored.step_forkReturn hstep
    refine .reset p np rfl hcall ?_ (fun i hi ↦ ?_) rfl
    · rw [setCall_ptable, forkReturn_ptable, if_pos rfl]
    · rw [setCall_ptable, forkReturn_ptable, if_neg hi]
      exact .refl _
  | clone p stack =>
    obtain ⟨-, rfl⟩ := Unmonitored.require_ok hstep
    exact change_clone h stack
  | cloneCopy p =>
    obtain ⟨np, stack, hcall, hp, rfl⟩ := Unmonitored.step_cloneCopy hstep
    exact (change_cloneCopy h hp hcall).setCall _
  | cloneReturn p copied =>
    obtain ⟨np, hcall, hp, rfl⟩ := Unmonitored.step_cloneReturn hstep
    obtain rfl := ha p copied rfl
    simp only [events, hcall]
    have hembryo := h.made_embryo p np hcall
    exact (change_cloneReturn h hcall (hpid np (by rw [hembryo]; decide))).setCall _
  | exec p space =>
    obtain ⟨r, hp, hfresh, hr, rfl⟩ := Unmonitored.step_exec hstep
    exact change_exec hp.1 hfresh hr
  | exit p =>
    obtain ⟨hp, hok⟩ := Unmonitored.require_eq_ok hstep
    exact change_exit hp.1 hok
  | wait p =>
    obtain ⟨r, hp, -, hr, rfl⟩ := Unmonitored.step_wait hstep
    simp only [events, waitResult, hr]
    refine (change_wait hp (fun i hi ↦ hpid i ?_) hr).setCall _
    rw [hi]
    decide
  | join p stack =>
    obtain ⟨hp, -, ⟨hbad, rfl⟩ | ⟨hbad, rfl⟩⟩ := Unmonitored.step_join hstep
    · simp only [events, joinResult, if_pos hbad]
      exact .idle (fun i ↦ .refl _) rfl
    · simp only [events, joinResult, if_neg hbad]
      exact (change_join hp).setCall _

end Threads
