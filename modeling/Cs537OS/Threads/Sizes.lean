import Cs537OS.Foundation.GuardedLoop
import Cs537OS.Threads.AddressSpace
import Cs537OS.Threads.Unmonitored

/-!
# The size of an address space

The size of an address space is kept in every entry of the table that shares it. `clone` copies it
from the caller, and makes the thread RUNNABLE some time after that. `growproc` reads the caller's
entry and sets the caller's and those of its children in the same address space, one after the
other, and takes no lock. What is said here is about the states in which nobody in the address space
is in `growproc`.

* `oneSize_of_reachable` — entries with the same page directory have the same size in every run in
  which a process only grows or shrinks when nobody has its address space but children of its own,
  those included that `clone` is about to make RUNNABLE, and in which nobody starts `growproc` or
  copies a size while somebody else is in `growproc` in that address space;
* `growingThread_sizes` — a thread that grows leaves the process that cloned it with the old size.

`wait` and `exec` come in because they free page directories: a directory freed in use is given to
another process, which has another size.
-/

open GuardedLoop (bind_eq_ok_iff)
open Xv6

namespace Threads

open Kernel

namespace Kernel

/-- Process `q` is in `growproc`. -/
def Grows (k : Kernel) (q : Slot) : Prop :=
  match k.call q with
  | .growproc _ | .growLoop _ _ => True
  | _ => False

instance (k : Kernel) (q : Slot) : Decidable (k.Grows q) := by
  unfold Grows
  split <;> infer_instance

/-- Entry `i` is that of a process, or of a thread that `clone` is about to make RUNNABLE. -/
def Counts (k : Kernel) (i : Slot) : Prop :=
  (k.ptable i).Awake ∨ ∃ p, k.call p = .cloneReturn i

instance (k : Kernel) (i : Slot) : Decidable (k.Counts i) :=
  inferInstanceAs (Decidable (_ ∨ ∃ _, _))

end Kernel

/-- Entries with the same page directory have the same size, unless somebody who has it too is in
`growproc`. -/
def OneSize (k : Kernel) : Prop :=
  ∀ i j, (k.ptable i).Awake → (k.ptable j).Awake → (k.ptable i).pgdir = (k.ptable j).pgdir →
    (∀ q, (k.ptable q).Awake → (k.ptable q).pgdir = (k.ptable i).pgdir → ¬ k.Grows q) →
      (k.ptable i).sz = (k.ptable j).sz

/-- `growproc` of `p` by `n` bytes changes the size: it grows to a size that a process can have, and
there is memory, or it shrinks, not to nothing. The new size is computed in 32-bit arithmetic. -/
def Kernel.Resizes (k : Kernel) (p : Slot) (n : ℤ) (memory : Bool) : Prop :=
  let oldsz := (k.ptable p).sz
  let newsz := uint (oldsz + n)
  0 < n ∧ oldsz < newsz ∧ newsz ≤ USERTOP ∧ memory ∨ n < 0 ∧ 0 < newsz ∧ newsz < oldsz

instance (k : Kernel) (p : Slot) (n : ℤ) (memory : Bool) : Decidable (k.Resizes p n memory) :=
  inferInstanceAs (Decidable (_ ∨ _))

/-- Nobody has the address space of `p` but `p` and children of `p`. -/
def Kernel.SharedBelow (k : Kernel) (p : Slot) : Prop :=
  ∀ q, q ≠ p → k.Counts q → (k.ptable q).pgdir = (k.ptable p).pgdir → (k.ptable q).parent = some p

/-- Nobody else is in `growproc` in the address space of `p`. -/
def Kernel.GrowsAlone (k : Kernel) (p : Slot) : Prop :=
  ∀ q, q ≠ p → (k.ptable q).Awake → (k.ptable q).pgdir = (k.ptable p).pgdir → ¬ k.Grows q

instance (k : Kernel) (p : Slot) : Decidable (k.SharedBelow p) :=
  inferInstanceAs (Decidable (∀ _, _))

instance (k : Kernel) (p : Slot) : Decidable (k.GrowsAlone p) :=
  inferInstanceAs (Decidable (∀ _, _))

/-- The step does not break the bookkeeping of sizes. -/
def SizeMeets (k : Kernel) : Action → Prop
  | .growproc p n memory => k.GrowsAlone p ∧ (k.Resizes p n memory → k.SharedBelow p)
  | .cloneCopy p => k.GrowsAlone p
  | .exec p space => FreesSafely k (.exec p space)
  | .wait p => FreesSafely k (.wait p)
  | _ => True

instance (k : Kernel) (a : Action) : Decidable (FreesSafely k a) :=
  decidable_of_iff (fault? (k.step a) ≠ some .inUse ∧ fault? (k.step a) ≠ some .notAllocated)
    (and_congr (not_congr fault?_eq_some_iff) (not_congr fault?_eq_some_iff))

instance (k : Kernel) : (a : Action) → Decidable (SizeMeets k a)
  | .growproc _ _ _ => inferInstanceAs (Decidable (_ ∧ (_ → _)))
  | .cloneCopy p => inferInstanceAs (Decidable (k.GrowsAlone p))
  | .exec p space => inferInstanceAs (Decidable (FreesSafely k (.exec p space)))
  | .wait p => inferInstanceAs (Decidable (FreesSafely k (.wait p)))
  | .dispatch _ | .yield _ | .sleep _ _ | .wakeup _ | .kill _ | .growNext _ | .fork _
  | .noKstack _ | .forkCopy _ _ | .forkReturn _ | .clone _ _ | .cloneReturn _ _ | .exit _
  | .join _ _ => .isTrue trivial

variable {k k' : Kernel} {a : Action} {p q np i : Slot} {d sz : ℕ}

/-! ### `growproc` -/

/-- The size that `growproc` arrives at: the new one when the size changes, and otherwise an error
or the old one. -/
theorem grown_cases (oldsz newsz : ℕ) (n : ℤ) (memory : Bool) {sz : ℕ}
    (hsz : sz = if n > 0 then allocuvm oldsz newsz memory
      else if n < 0 then deallocuvm oldsz newsz else oldsz) :
    let resizes :=
      0 < n ∧ oldsz < newsz ∧ newsz ≤ USERTOP ∧ memory ∨ n < 0 ∧ 0 < newsz ∧ newsz < oldsz
    resizes ∧ sz = newsz ∧ 0 < newsz ∨ ¬ resizes ∧ ((n ≠ 0 ∧ sz = 0) ∨ sz = oldsz) := by
  dsimp only
  subst hsz
  rcases lt_trichotomy n 0 with hn | rfl | hn
  · rw [if_neg (not_lt.2 hn.le), if_pos hn, deallocuvm]
    split_ifs <;> omega
  · exact .inr ⟨by omega, .inr rfl⟩
  · rw [if_pos hn, allocuvm]
    split_ifs <;> grind

/-- `growproc` fails, or comes to a new size, or to the old one. -/
theorem growproc_cases (k : Kernel) (p : Slot) (n : ℤ) (memory : Bool) :
    k.Resizes p n memory ∧ k.growproc p n memory = some (uint ((k.ptable p).sz + n)) ∨
      ¬ k.Resizes p n memory ∧
        (k.growproc p n memory = none ∨ k.growproc p n memory = some (k.ptable p).sz) := by
  obtain ⟨sz, hsz⟩ : ∃ sz, sz = if n > 0 then
      allocuvm (k.ptable p).sz (uint ((k.ptable p).sz + n)) memory
    else if n < 0 then deallocuvm (k.ptable p).sz (uint ((k.ptable p).sz + n))
    else (k.ptable p).sz := ⟨_, rfl⟩
  have hgrow : k.growproc p n memory = if n ≠ 0 ∧ sz = 0 then none else some sz := by
    rw [hsz]
    rfl
  rcases grown_cases _ _ n memory hsz with ⟨hres, heq, hpos⟩ | ⟨hres, hfail | heq⟩
  · exact .inl ⟨hres, by rw [hgrow, if_neg fun hfail ↦ hpos.ne' (heq ▸ hfail.2), heq]⟩
  · exact .inr ⟨hres, .inl (by rw [hgrow, if_pos hfail])⟩
  · refine .inr ⟨hres, ?_⟩
    rw [hgrow, heq]
    split_ifs
    · exact .inl rfl
    · exact .inr rfl

/-! ### The invariant -/

/-- Everybody in the address space of `q` has size `sz`, but for children of `q` that `rest` holds
of. -/
def Kernel.Spreads (k : Kernel) (q : Slot) (sz : ℕ) (rest : Slot → Prop) : Prop :=
  ∀ i, i ≠ q → k.Counts i → (k.ptable i).pgdir = (k.ptable q).pgdir →
    (k.ptable i).sz = sz ∨ (k.ptable i).parent = some q ∧ rest i

/-- Sizes agree where nobody is in `growproc`, who is in it is alone and has given its size to those
whom its loop has visited, and the page directories that processes have are allocated. -/
structure Sized (k : Kernel) : Prop extends Orderly k where
  agree : ∀ i j, k.Counts i → k.Counts j → (k.ptable i).pgdir = (k.ptable j).pgdir →
    (∀ q, (k.ptable q).pgdir = (k.ptable i).pgdir → ¬ k.Grows q) → (k.ptable i).sz = (k.ptable j).sz
  held : ∀ i, k.Counts i → (k.ptable i).pgdir ∈ k.pgdirs
  copied : ∀ p np, k.call p = .cloneReturn np → (k.ptable np).pgdir = (k.ptable p).pgdir
  alone : ∀ q r, k.Grows q → k.Grows r → (k.ptable q).pgdir = (k.ptable r).pgdir → q = r
  started : ∀ q sz, k.call q = .growproc sz → k.Spreads q sz fun _ ↦ True
  looping : ∀ q sz rest, k.call q = .growLoop sz rest →
    (k.ptable q).sz = sz ∧ k.Spreads q sz (· ∈ rest)

theorem grows_of_call (hcall : k.call q = .growproc sz ∨ ∃ rest, k.call q = .growLoop sz rest) :
    k.Grows q := by
  rcases hcall with hcall | ⟨rest, hcall⟩ <;> rw [Grows, hcall] <;> trivial

theorem call_of_grows (hq : k.Grows q) :
    ∃ sz, k.call q = .growproc sz ∨ ∃ rest, k.call q = .growLoop sz rest := by
  rw [Grows] at hq
  split at hq
  · rename_i sz hcall
    exact ⟨sz, .inl hcall⟩
  · rename_i sz rest hcall
    exact ⟨sz, .inr ⟨rest, hcall⟩⟩
  · exact hq.elim

theorem grows_congr (hcall : k'.call q = k.call q) : k'.Grows q ↔ k.Grows q := by
  rw [Grows, Grows, hcall]

theorem not_grows_of_user (hcall : k.call q = .user) : ¬ k.Grows q := by
  rw [Grows, hcall]
  exact id

/-- Who is in `growproc` has not exited. -/
theorem Kernel.Orderly.awake_of_grows (h : Orderly k) (hq : k.Grows q) : (k.ptable q).Awake :=
  h.busy q fun huser ↦ not_grows_of_user huser hq

/-- An entry that counts uses its page directory. -/
theorem Kernel.Orderly.uses_of_counts (h : Orderly k) (hi : k.Counts i) : (k.ptable i).Uses := by
  rcases hi with hi | ⟨p, hcall⟩
  · exact .inr hi
  · exact .inl (h.made_embryo p i hcall)

/-- An entry that has only been taken does not count, -/
theorem Kernel.Orderly.not_counts_of_halfMade (h : Orderly k) (hi : (k.ptable i).HalfMade) :
    ¬ k.Counts i := by
  rintro (hawake | ⟨p, hcall⟩)
  · exact hi.not_awake hawake
  · have hparent := h.made_parent p i (.inr hcall)
    rw [hi.2] at hparent
    cases hparent

/-- and neither does that of a ZOMBIE. -/
theorem Kernel.Orderly.not_counts_of_zombie (h : Orderly k) (hi : (k.ptable i).state = .zombie) :
    ¬ k.Counts i := fun hc ↦ by
  rcases h.uses_of_counts hc with hu | hu | hu | hu <;> exact absurd (hi.symm.trans hu) (by decide)

/-- What is read of entry `i` here has not changed. -/
structure Steady (k k' : Kernel) (i : Slot) : Prop where
  counts : (k'.ptable i).Awake → k.Counts i
  pgdir : k.Counts i → (k'.ptable i).pgdir = (k.ptable i).pgdir
  sz : k.Counts i → (k'.ptable i).sz = (k.ptable i).sz
  parent : k.Counts i → ∀ q, k.call q ≠ .user → (k.ptable i).parent = some q →
    (k'.ptable i).parent = some q

theorem Steady.of_placed (hplaced : Placed (k.ptable i) (k'.ptable i))
    (hsz : (k'.ptable i).sz = (k.ptable i).sz) : Steady k k' i :=
  ⟨fun hi ↦ .inl (hplaced.awake.1 hi), fun _ ↦ hplaced.pgdir, fun _ ↦ hsz,
    fun _ _ _ hparent ↦ hplaced.parent.trans hparent⟩

theorem Steady.of_eq (h : k'.ptable i = k.ptable i) : Steady k k' i :=
  .of_placed (h ▸ .refl _) (by rw [h])

/-- The call of `q` is the same, or one that says nothing of sizes. -/
def CallSteady (k k' : Kernel) (q : Slot) : Prop :=
  k'.call q = k.call q ∨ ¬ k.Grows q ∧ ¬ k'.Grows q ∧ ∀ x, k'.call q ≠ .cloneReturn x

theorem CallSteady.grows (h : CallSteady k k' q) : k'.Grows q ↔ k.Grows q := by
  rcases h with hcall | ⟨hold, hnew, -⟩
  · exact grows_congr hcall
  · exact iff_of_false hnew hold

/-- Where all entries and calls are steady no entry starts to count. -/
theorem counts_of_steady (hsteady : Steady k k' i) (hcall : ∀ q, CallSteady k k' q)
    (hi : k'.Counts i) : k.Counts i := by
  rcases hi with hawake | ⟨q, hq⟩
  · exact hsteady.counts hawake
  · rcases hcall q with heq | ⟨-, -, hnot⟩
    · exact .inr ⟨q, heq ▸ hq⟩
    · exact absurd hq (hnot i)

/-- The loop of `growproc` is as far as before. -/
theorem Kernel.Spreads.of_steady {rest : Slot → Prop} (h : k.Spreads q sz rest)
    (hsteady : ∀ i, Steady k k' i) (hcall : ∀ q, CallSteady k k' q) (hq : k.Counts q)
    (huser : k.call q ≠ .user) : k'.Spreads q sz rest := by
  intro i hiq hi hpgdir
  have hold := counts_of_steady (hsteady i) hcall hi
  rw [(hsteady i).pgdir hold, (hsteady q).pgdir hq] at hpgdir
  rw [(hsteady i).sz hold]
  exact (h i hiq hold hpgdir).imp_right fun ⟨hparent, hrest⟩ ↦
    ⟨(hsteady i).parent hold q huser hparent, hrest⟩

/-- A step that changes nothing of this keeps the invariant. -/
theorem Sized.of_steady (h : Sized k) (hk' : Orderly k') (hsteady : ∀ i, Steady k k' i)
    (hcall : ∀ q, CallSteady k k' q)
    (hpgdirs : ∀ i, k'.Counts i → (k.ptable i).pgdir ∈ k.pgdirs → (k.ptable i).pgdir ∈ k'.pgdirs) :
    Sized k' := by
  have hcounts := fun i ↦ counts_of_steady (hsteady i) hcall
  have hgrows : ∀ {q}, k'.Grows q → k.Grows q ∧ k.Counts q := fun hq ↦
    have hold := (hcall _).grows.1 hq
    ⟨hold, .inl (h.awake_of_grows hold)⟩
  have hsame : ∀ {q c}, k'.call q = c → (k'.Grows q ∨ ∃ x, c = .cloneReturn x) → k.call q = c := by
    rintro q c hq hc
    rcases hcall q with heq | ⟨-, hnot, hnot'⟩
    · exact heq.symm.trans hq
    · rcases hc with hgrows | ⟨x, rfl⟩
      · exact absurd hgrows hnot
      · exact absurd hq (hnot' x)
  refine ⟨hk', fun i j hi hj heq hnone ↦ ?_, fun i hi ↦ ?_, fun p x hp ↦ ?_, fun q r hq hr heq ↦ ?_,
    fun q sz hq ↦ ?_, fun q sz rest hq ↦ ?_⟩
  · have hi' := hcounts i hi
    have hj' := hcounts j hj
    rw [(hsteady i).pgdir hi', (hsteady j).pgdir hj'] at heq
    rw [(hsteady i).sz hi', (hsteady j).sz hj']
    refine h.agree i j hi' hj' heq fun q hq hgrow ↦ hnone q ?_ ((hcall q).grows.2 hgrow)
    rw [(hsteady i).pgdir hi', (hsteady q).pgdir (.inl (h.awake_of_grows hgrow)), hq]
  · rw [(hsteady i).pgdir (hcounts i hi)]
    exact hpgdirs i hi (h.held i (hcounts i hi))
  · have hp' := hsame hp (.inr ⟨x, rfl⟩)
    have hawake := h.busy p fun huser ↦ by rw [huser] at hp'; cases hp'
    rw [(hsteady x).pgdir (.inr ⟨p, hp'⟩), (hsteady p).pgdir (.inl hawake)]
    exact h.copied p x hp'
  · obtain ⟨hq, hcq⟩ := hgrows hq
    obtain ⟨hr, hcr⟩ := hgrows hr
    rw [(hsteady q).pgdir hcq, (hsteady r).pgdir hcr] at heq
    exact h.alone q r hq hr heq
  · have hgrow := grows_of_call (.inl hq)
    have hq' := hsame hq (.inl hgrow)
    exact (h.started q sz hq').of_steady hsteady hcall (hgrows hgrow).2 (by rw [hq']; exact nofun)
  · have hgrow := grows_of_call (.inr ⟨rest, hq⟩)
    have hq' := hsame hq (.inl hgrow)
    obtain ⟨hsz, hspreads⟩ := h.looping q sz rest hq'
    refine ⟨((hsteady q).sz (hgrows hgrow).2).trans hsz, ?_⟩
    exact hspreads.of_steady hsteady hcall (hgrows hgrow).2 (by rw [hq']; exact nofun)

/-- An entry that nobody counts is not made awake. -/
theorem Steady.of_not_counts (hold : ¬ k.Counts i) (hnew : ¬ (k'.ptable i).Awake) :
    Steady k k' i :=
  ⟨fun hi ↦ absurd hi hnew, fun hi ↦ absurd hi hold, fun hi ↦ absurd hi hold,
    fun hi ↦ absurd hi hold⟩

theorem callSteady_of_eq (hcall : k'.call = k.call) (q : Slot) : CallSteady k k' q :=
  .inl (congrFun hcall q)

theorem not_grows_setCall {c : Call} (hsz : ∀ sz, c ≠ .growproc sz)
    (hloop : ∀ sz rest, c ≠ .growLoop sz rest) : ¬ (k.setCall p c).Grows p := fun hgrow ↦ by
  obtain ⟨sz, hcall | ⟨rest, hcall⟩⟩ := call_of_grows hgrow <;> rw [setCall_call_self] at hcall
  · exact hsz sz hcall
  · exact hloop sz rest hcall

/-- The call says nothing of sizes. -/
def Call.Sizeless : Call → Prop
  | .growproc _ | .growLoop _ _ | .cloneReturn _ => False
  | .user | .fork _ | .forkReturn _ | .clone _ _ | .wait | .join _ => True

theorem Call.Sizeless.ne {c c' : Call} (hc : c.Sizeless) (hc' : ¬ c'.Sizeless) : c ≠ c' := by
  rintro rfl
  exact hc' hc

/-- A process goes to another call that says nothing of sizes. -/
theorem callSteady_setCall {c : Call} (hcall : k'.call = k.call) (hold : ¬ k.Grows p)
    (hc : c.Sizeless) (q : Slot) : CallSteady k (k'.setCall p c) q := by
  rcases eq_or_ne q p with rfl | hqp
  · refine .inr ⟨hold, not_grows_setCall (fun _ ↦ hc.ne id) fun _ _ ↦ hc.ne id, fun x ↦ ?_⟩
    rw [setCall_call_self]
    exact hc.ne id
  · exact .inl ((setCall_call_of_ne hqp).trans (congrFun hcall q))

/-- A step that moves nobody and changes no size. -/
theorem Sized.of_placed (h : Sized k) (hplaced : ∀ i, Placed (k.ptable i) (k'.ptable i))
    (hsz : ∀ i, (k'.ptable i).sz = (k.ptable i).sz) (hpgdirs : k'.pgdirs = k.pgdirs)
    (hcall : k'.call = k.call) : Sized k' :=
  h.of_steady (h.toOrderly.of_placed hplaced hpgdirs hcall)
    (fun i ↦ .of_placed (hplaced i) (hsz i)) (callSteady_of_eq hcall)
    fun _ _ hmem ↦ hpgdirs ▸ hmem

/-- A change of one entry that does not touch the field. -/
theorem modify_field {β : Type} (π : Proc → β) {f : Proc → Proc}
    (hf : π (f (k.ptable p)) = π (k.ptable p)) (i : Slot) :
    π ((k.modify p f).ptable i) = π (k.ptable i) := by
  rcases eq_or_ne i p with rfl | hi
  · rw [modify_ptable_self, hf]
  · rw [modify_ptable_of_ne hi]

theorem wakeup1_sz {chan : Chan} (i : Slot) :
    ((k.wakeup1 chan).ptable i).sz = (k.ptable i).sz := by
  show Proc.sz (ite _ _ _) = _
  split_ifs <;> rfl

theorem sleep_sz {chan : Chan} (i : Slot) : ((k.sleep p chan).ptable i).sz = (k.ptable i).sz :=
  modify_field (f := fun a ↦ { a with chan := chan, state := .sleeping }) Proc.sz rfl i

theorem kill_sz {pid : ℤ} (i : Slot) : ((k.kill pid).ptable i).sz = (k.ptable i).sz := by
  rw [Kernel.kill]
  split
  · rfl
  · exact modify_field Proc.sz rfl i

/-! ### A new entry -/

/-- A new entry whose page directory is free, or that of somebody of the same size when nobody who
has it is in `growproc`. -/
theorem Sized.of_new (h : Sized k) (np : Slot) (hk' : Orderly k')
    (hsteady : ∀ i, i ≠ np → Steady k k' i)
    (hcall : ∀ q, k'.call q = k.call q ∨ ¬ k.Grows q ∧ ¬ k'.Grows q ∧
      ∀ x, k'.call q = .cloneReturn x → x = np ∧ (k'.ptable np).pgdir = (k'.ptable q).pgdir)
    (hold : ∀ q, k.call q ≠ .cloneReturn np) (huser : k'.call np = .user)
    (hpgdirs : ∀ i, i ≠ np → k.Counts i → (k.ptable i).pgdir ∈ k'.pgdirs)
    (hnew : (k'.ptable np).pgdir ∉ k.pgdirs ∧ (k'.ptable np).pgdir ∈ k'.pgdirs ∨
      ∃ i, i ≠ np ∧ k.Counts i ∧ (k'.ptable np).pgdir = (k.ptable i).pgdir ∧
        (k'.ptable np).sz = (k.ptable i).sz ∧
          ∀ q, (k.ptable q).pgdir = (k.ptable i).pgdir → ¬ k.Grows q) : Sized k' := by
  have hcounts : ∀ {i}, i ≠ np → k'.Counts i → k.Counts i := by
    rintro i hi (hawake | ⟨q, hq⟩)
    · exact (hsteady i hi).counts hawake
    · rcases hcall q with heq | ⟨-, -, hx⟩
      · exact .inr ⟨q, heq ▸ hq⟩
      · exact absurd (hx i hq).1 hi
  have hpgdir : ∀ {i}, i ≠ np → k'.Counts i → (k'.ptable i).pgdir = (k.ptable i).pgdir :=
    fun hi hc ↦ (hsteady _ hi).pgdir (hcounts hi hc)
  have hsz : ∀ {i}, i ≠ np → k'.Counts i → (k'.ptable i).sz = (k.ptable i).sz :=
    fun hi hc ↦ (hsteady _ hi).sz (hcounts hi hc)
  -- who grows is not the new entry, and grew before
  have hgrows : ∀ {q}, k'.Grows q → q ≠ np ∧ k.Grows q := by
    intro q hq
    refine ⟨?_, ?_⟩
    · rintro rfl
      exact not_grows_of_user huser hq
    · rcases hcall q with heq | ⟨-, hnot, -⟩
      · exact (grows_congr heq).1 hq
      · exact absurd hq hnot
  have hgrew : ∀ {q}, k.Grows q → q ≠ np ∧ k'.Grows q ∧ k'.call q = k.call q := by
    intro q hq
    rcases hcall q with heq | ⟨hnot, -⟩
    · refine ⟨?_, (grows_congr heq).2 hq, heq⟩
      rintro rfl
      exact not_grows_of_user (heq.symm.trans huser) hq
    · exact absurd hq hnot
  have hgrowing : ∀ {q}, k.Grows q → (k'.ptable q).pgdir = (k.ptable q).pgdir := fun hq ↦
    (hsteady _ (hgrew hq).1).pgdir (.inl (h.awake_of_grows hq))
  -- nobody who grows has the page directory of the new entry, and who has it agrees
  have hspace : (∀ q, k.Grows q → (k'.ptable np).pgdir ≠ (k.ptable q).pgdir) ∧
      ∀ j, j ≠ np → k'.Counts j → (k'.ptable np).pgdir = (k'.ptable j).pgdir →
        (k'.ptable np).sz = (k'.ptable j).sz := by
    rcases hnew with ⟨hfree, -⟩ | ⟨i, -, hi, hpi, hsi, hnone⟩
    · refine ⟨fun q hq heq ↦ hfree ?_, fun j hj hcj heq ↦ absurd ?_ hfree⟩
      · exact heq ▸ h.held q (.inl (h.awake_of_grows hq))
      · rw [heq, hpgdir hj hcj]
        exact h.held j (hcounts hj hcj)
    · refine ⟨fun q hq heq ↦ hnone q (heq.symm.trans hpi) hq, fun j hj hcj heq ↦ ?_⟩
      rw [hsi, hsz hj hcj]
      rw [hpgdir hj hcj, hpi] at heq
      exact h.agree i j hi (hcounts hj hcj) heq hnone
  have hspreads : ∀ {q sz} {rest : Slot → Prop}, k'.Grows q → k.Spreads q sz rest →
      k'.Spreads q sz rest := by
    intro q sz rest hq hs i hiq hi heq
    obtain ⟨hqn, hq'⟩ := hgrows hq
    rw [hgrowing hq'] at heq
    have hin : i ≠ np := by
      rintro rfl
      exact hspace.1 q hq' heq
    rw [hsz hin hi]
    rw [hpgdir hin hi] at heq
    refine (hs i hiq (hcounts hin hi) heq).imp_right fun ⟨hparent, hrest⟩ ↦ ⟨?_, hrest⟩
    refine (hsteady i hin).parent (hcounts hin hi) q (fun huser' ↦ ?_) hparent
    exact not_grows_of_user huser' hq'
  refine ⟨hk', fun i j hi hj heq hnone ↦ ?_, fun i hi ↦ ?_, fun r x hr ↦ ?_, fun q r hq hr heq ↦ ?_,
    fun q sz hq ↦ ?_, fun q sz rest hq ↦ ?_⟩
  · by_cases hin : i = np
    · by_cases hjn : j = np
      · rw [hin, hjn]
      · rw [hin] at heq ⊢
        exact hspace.2 j hjn hj heq
    · by_cases hjn : j = np
      · rw [hjn] at heq ⊢
        exact (hspace.2 i hin hi heq.symm).symm
      · rw [hpgdir hin hi] at hnone
        rw [hpgdir hin hi, hpgdir hjn hj] at heq
        rw [hsz hin hi, hsz hjn hj]
        refine h.agree i j (hcounts hin hi) (hcounts hjn hj) heq fun q hq hgrow ↦ ?_
        exact hnone q ((hgrowing hgrow).trans hq) (hgrew hgrow).2.1
  · by_cases hin : i = np
    · subst hin
      rcases hnew with ⟨-, hmem⟩ | ⟨j, hj, hcj, hpj, -⟩
      · exact hmem
      · exact hpj ▸ hpgdirs j hj hcj
    · rw [hpgdir hin hi]
      exact hpgdirs i hin (hcounts hin hi)
  · rcases hcall r with heq | ⟨-, -, hx⟩
    · have hr' := heq.symm.trans hr
      have hrn : r ≠ np := by
        rintro rfl
        rw [huser] at hr
        cases hr
      have hxn : x ≠ np := by
        rintro rfl
        exact hold r hr'
      have hawake := h.busy r fun hu ↦ by rw [hu] at hr'; cases hr'
      rw [(hsteady x hxn).pgdir (.inr ⟨r, hr'⟩), (hsteady r hrn).pgdir (.inl hawake)]
      exact h.copied r x hr'
    · obtain ⟨rfl, hpx⟩ := hx x hr
      exact hpx
  · obtain ⟨-, hq'⟩ := hgrows hq
    obtain ⟨-, hr'⟩ := hgrows hr
    rw [hgrowing hq', hgrowing hr'] at heq
    exact h.alone q r hq' hr' heq
  · have hq' := grows_of_call (.inl hq)
    exact hspreads hq' (h.started q sz ((hgrew (hgrows hq').2).2.2.symm.trans hq))
  · have hq' := grows_of_call (.inr ⟨rest, hq⟩)
    obtain ⟨hqn, hgrow⟩ := hgrows hq'
    obtain ⟨hqsz, hs⟩ := h.looping q sz rest ((hgrew hgrow).2.2.symm.trans hq)
    exact ⟨((hsteady q hqn).sz (.inl (h.awake_of_grows hgrow))).trans hqsz, hspreads hq' hs⟩

/-! ### The calls -/

theorem not_grows_of_running (hp : k.InUser p) : ¬ k.Grows p := not_grows_of_user hp.2

/-- The process goes back to user mode from a call that is not `growproc`. -/
theorem callSteady_user (hcall : k'.call = k.call) (hold : ¬ k.Grows p) (q : Slot) :
    CallSteady k (k'.setCall p .user) q :=
  callSteady_setCall (c := .user) hcall hold trivial q

theorem Steady.setCall {c : Call} (h : Steady k k' i) : Steady k (k'.setCall p c) i :=
  ⟨h.counts, h.pgdir, h.sz, h.parent⟩

/-- A process that starts `fork` or `clone` takes an entry that nobody counts. -/
theorem steady_allocEntry (hnp : (k.ptable np).state = .unused) (horder : Orderly k) (i : Slot) :
    Steady k (k.allocEntry np) i := by
  rcases eq_or_ne i np with rfl | hi
  · refine .of_not_counts (fun hc ↦ ?_) ((allocEntry_halfMade horder hnp).not_awake)
    rcases horder.uses_of_counts hc with hu | hu | hu | hu <;>
      exact absurd (hnp.symm.trans hu) (by decide)
  · exact .of_eq (allocEntry_ptable_of_ne hi)

/-- The start of `fork` keeps the sizes, -/
theorem Sized.fork (h : Sized k) (hp : k.InUser p) : Sized (k.fork p) := by
  have hk' := h.toOrderly.fork hp.1
  rw [Kernel.fork] at hk' ⊢
  rcases allocproc_cases k with heq | ⟨np, hnp, heq⟩ <;> rw [heq] at hk' ⊢
  · exact h
  · exact h.of_steady hk' (fun i ↦ (steady_allocEntry hnp h.toOrderly i).setCall)
      (callSteady_setCall rfl (not_grows_of_running hp) trivial) fun _ _ hmem ↦ hmem

/-- and so does that of `clone`. -/
theorem Sized.clone (h : Sized k) (hp : k.InUser p) (stack : ℕ) : Sized (k.clone p stack) := by
  have hk' := h.toOrderly.clone hp.1 stack
  rw [Kernel.clone] at hk' ⊢
  rcases allocproc_cases k with heq | ⟨np, hnp, heq⟩ <;> rw [heq] at hk' ⊢
  · exact h
  · exact h.of_steady hk' (fun i ↦ (steady_allocEntry hnp h.toOrderly i).setCall)
      (callSteady_setCall rfl (not_grows_of_running hp) trivial) fun _ _ hmem ↦ hmem

theorem not_grows_of_fills (hf : k.Fills p np) : ¬ k.Grows p := by
  rcases hf with hcall | ⟨stack, hcall⟩ <;> rw [Grows, hcall] <;> exact id

/-- The entry goes back to UNUSED. -/
theorem Sized.goesBack (h : Sized k) (hp : k.Running p) (hf : k.Fills p np) {f : Proc → Proc}
    (hstate : ∀ a, (f a).state = .unused) (hparent : ∀ a, (f a).parent = a.parent) :
    Sized ((k.modify np f).setCall p .user) := by
  refine h.of_steady (h.toOrderly.goesBack hp hf hstate hparent) (fun i ↦ ?_)
    (callSteady_user rfl (not_grows_of_fills hf)) fun _ _ hmem ↦ hmem
  rcases eq_or_ne i np with rfl | hi
  · refine .of_not_counts (h.not_counts_of_halfMade (h.fills_halfMade p i hf)) fun hawake ↦ ?_
    rw [setCall_ptable, modify_ptable_self] at hawake
    exact (Proc.awake_iff.1 hawake).1 (hstate _)
  · exact .of_eq (modify_ptable_of_ne hi)

/-- The child of `fork` has a page directory of its own. -/
theorem Sized.forkCopy (h : Sized k) (hp : k.Running p) (hf : k.Fills p np) {space : NewSpace}
    (hfresh : space.Fresh k) {r : Kernel × Option ℤ}
    (hr : Unmonitored.forkCopy k p np space = .ok r) :
    Sized (r.1.setCall p (if r.2.isSome then .forkReturn np else .user)) := by
  have hk' := h.toOrderly.forkCopy hp hf hfresh hr
  rcases Unmonitored.forkCopy_cases hfresh hr with rfl | ⟨d, sz, rfl⟩
  · exact h.goesBack (f := fun a ↦ { a with pgdir := 0, state := .unused }) hp hf (fun _ ↦ rfl)
      fun _ ↦ rfl
  · have hhalf := h.fills_halfMade p np hf
    have hne := Fills.ne h.toOrderly hp hf
    rw [← Except.ok.inj hr] at hk' ⊢
    refine h.of_new np hk' (fun i hi ↦ .of_eq ?_) (fun q ↦ ?_)
      (fun q hq ↦ ?_) ?_ (fun i _ hi ↦ Finset.mem_insert_of_mem (h.held i hi)) (.inl ?_)
    · rw [setCall_ptable, modify_ptable_of_ne hi]
      rfl
    · rcases eq_or_ne q p with rfl | hqp
      · refine .inr ⟨not_grows_of_fills hf, not_grows_setCall nofun nofun, fun x hx ↦ ?_⟩
        rw [setCall_call_self] at hx
        cases hx
      · exact .inl (setCall_call_of_ne hqp)
    · exact h.not_counts_of_halfMade hhalf (.inr ⟨q, hq⟩)
    · rw [setCall_call_of_ne hne]
      exact not_not.1 fun hu ↦ hhalf.not_awake (h.busy np hu)
    · rw [setCall_ptable, modify_ptable_self]
      exact ⟨hfresh.2, Finset.mem_insert_self d _⟩

/-- The last step of `fork` changes no size. -/
theorem Sized.forkReturn (h : Sized k) (hp : k.Running p) (hcall : k.call p = .forkReturn np) :
    Sized ((k.forkReturn np).setCall p .user) := by
  have hgrow : ¬ k.Grows p := by
    rw [Grows, hcall]
    exact id
  refine h.of_steady (h.toOrderly.forkReturn hp) (fun i ↦ ?_) (callSteady_user rfl hgrow)
    fun _ _ hmem ↦ hmem
  have hfield : ∀ {β : Type} (π : Proc → β), (∀ a n, π { a with countThread := n } = π a) →
      π ((k.forkReturn np).ptable i) = π (k.ptable i) := fun π hπ ↦ modify_field π (hπ _ _) i
  have hstate := hfield Proc.state fun _ _ ↦ rfl
  refine ⟨fun hi ↦ .inl ?_, fun _ ↦ hfield Proc.pgdir fun _ _ ↦ rfl,
    fun _ ↦ hfield Proc.sz fun _ _ ↦ rfl, fun _ _ _ hparent ↦ ?_⟩
  · rwa [Proc.Awake, ← hstate]
  · exact (hfield Proc.parent fun _ _ ↦ rfl).trans hparent

/-- The thread that `clone` fills in has the size of its caller, and nobody changes it. -/
theorem Sized.cloneCopy (h : Sized k) (hp : k.Running p) {stack : ℕ}
    (hcall : k.call p = .clone np stack) (halone : k.GrowsAlone p) :
    Sized ((k.cloneCopy p np stack).setCall p (.cloneReturn np)) := by
  have hf : k.Fills p np := .inr ⟨stack, hcall⟩
  have hhalf := h.fills_halfMade p np hf
  have hne := Fills.ne h.toOrderly hp hf
  have hself := cloneCopy_ptable_self (k := k) hne stack
  have hparent := cloneCopy_ptable_parent (k := k) hne stack
  have hgrow := not_grows_of_fills hf
  refine h.of_new np (h.toOrderly.cloneCopy hp hf stack) (fun i hi ↦ ?_) (fun q ↦ ?_)
    (fun q hq ↦ ?_) ?_ (fun i _ hi ↦ h.held i hi) (.inr ⟨p, hne.symm, .inl hp.awake, ?_⟩)
  · rcases eq_or_ne i p with rfl | hip
    · refine ⟨fun _ ↦ .inl hp.awake, fun _ ↦ ?_, fun _ ↦ ?_, fun _ q _ hpar ↦ ?_⟩ <;>
        rw [setCall_ptable, hparent]
      exact hpar
    · exact .of_eq (cloneCopy_ptable_of_ne hi hip stack)
  · rcases eq_or_ne q p with rfl | hqp
    · refine .inr ⟨hgrow, not_grows_setCall nofun nofun, fun x hx ↦ ?_⟩
      rw [setCall_call_self] at hx
      obtain rfl := Call.cloneReturn.inj hx
      rw [setCall_ptable, hself, hparent]
      exact ⟨rfl, rfl⟩
    · exact .inl (setCall_call_of_ne hqp)
  · exact h.not_counts_of_halfMade hhalf (.inr ⟨q, hq⟩)
  · rw [setCall_call_of_ne hne]
    exact not_not.1 fun hu ↦ hhalf.not_awake (h.busy np hu)
  · rw [setCall_ptable, hself]
    refine ⟨rfl, rfl, fun q hq hgrow' ↦ ?_⟩
    rcases eq_or_ne q p with rfl | hqp
    · exact hgrow hgrow'
    · exact halone q hqp (h.awake_of_grows hgrow') hq hgrow'

/-- The end of `clone` keeps the sizes: the thread counted before. -/
theorem Sized.cloneReturn (h : Sized k) (hp : k.Running p) (hcall : k.call p = .cloneReturn np)
    (copied : Bool) : Sized ((k.cloneReturn np copied).1.setCall p .user) := by
  have hgrow : ¬ k.Grows p := by
    rw [Grows, hcall]
    exact id
  refine h.of_steady (h.toOrderly.cloneReturn hp hcall copied) (fun i ↦ ?_)
    (callSteady_user (cloneReturn_call copied) hgrow)
    fun _ _ hmem ↦ (cloneReturn_pgdirs copied).symm ▸ hmem
  rcases eq_or_ne i np with rfl | hi
  · refine ⟨fun _ ↦ .inr ⟨p, hcall⟩, fun _ ↦ ?_, fun _ ↦ ?_, fun _ q _ hpar ↦ ?_⟩ <;>
      rw [setCall_ptable, cloneReturn_ptable_self]
    exact hpar
  · exact .of_eq (cloneReturn_ptable_of_ne hi copied)

/-- Whoever exits is in user mode, so that nobody's loop looks for its children. -/
theorem Sized.exit (h : Sized k) (hp : k.InUser p) (hexit : k.exit p = .ok k') : Sized k' := by
  obtain ⟨hroot, -⟩ := exit_eq_ok hexit
  obtain ⟨k₁, hk₁, hpgdirs, hcall, hkept, hzombie, -, -, hparent⟩ := exit_spec (k := k) hroot
  obtain rfl : k₁ = k' := Except.ok.inj (hk₁.symm.trans hexit)
  refine h.of_steady (h.toOrderly.exit hp hexit) (fun i ↦ ⟨fun hi ↦ .inl ?_, fun _ ↦ ?_, fun _ ↦ ?_,
    fun _ q hq hpar ↦ ?_⟩) (callSteady_of_eq hcall) fun _ _ hmem ↦ hpgdirs ▸ hmem
  · have hip : i ≠ p := by
      rintro rfl
      exact (Proc.awake_iff.1 hi).2.2 hzombie
    exact (hkept i hip).awake.1 hi
  · exact exit_field Proc.pgdir (fun _ _ ↦ rfl) (fun _ _ ↦ rfl) hexit i
  · exact exit_field Proc.sz (fun _ _ ↦ rfl) (fun _ _ ↦ rfl) hexit i
  · rw [hparent, hpar]
    refine if_neg fun heq ↦ hq ?_
    rw [Option.some.inj heq]
    exact hp.2

/-- A zombie that is reaped was not counted. -/
theorem steady_reap (h : Sized k) (dirs : Finset ℕ) (hq : (k.ptable q).state = .zombie)
    (i : Slot) :
    Steady k ({ k with pgdirs := dirs }.reap q) i := by
  rcases eq_or_ne i q with rfl | hi
  · refine .of_not_counts (h.not_counts_of_zombie hq) fun hawake ↦ ?_
    rw [Kernel.reap, modify_ptable_self] at hawake
    exact (Proc.awake_iff.1 hawake).1 rfl
  · exact .of_eq (reap_ptable_of_ne hi)

/-- An address space is freed that nobody uses, and nothing else changes. -/
theorem freevm_spec (h : k.freevm d = .ok k') :
    k' = { k with pgdirs := k.pgdirs.erase d } ∧
      ∀ i, (k.ptable i).Uses → (k.ptable i).pgdir ≠ d := by
  rw [Kernel.freevm] at h
  split_ifs at h with hzero huse hmem
  exact ⟨(Except.ok.inj h).symm, fun i hi heq ↦ huse ⟨i, hi, heq⟩⟩

/-- `wait` frees a page directory that nobody has. -/
theorem wait_held {r : Kernel × Option ℤ} (hr : k.wait p = .ok r) {i : Slot}
    (hi : (k.ptable i).Uses) (hmem : (k.ptable i).pgdir ∈ k.pgdirs) :
    (k.ptable i).pgdir ∈ r.1.pgdirs := by
  rw [Kernel.wait] at hr
  split at hr
  · dsimp only at hr
    split_ifs at hr
    · obtain ⟨k₁, hfree, hr⟩ := bind_eq_ok_iff.1 hr
      obtain ⟨rfl, hnone⟩ := freevm_spec hfree
      rw [← Except.ok.inj hr]
      exact Finset.mem_erase.2 ⟨hnone i hi, hmem⟩
    · rw [← Except.ok.inj hr]
      exact hmem
  · split_ifs at hr <;> rw [← Except.ok.inj hr] <;> exact hmem

theorem not_grows_of_wait (hcall : k.call p = .user ∨ k.call p = .wait) : ¬ k.Grows p := by
  rw [Grows]
  rcases hcall with hcall | hcall <;> rw [hcall] <;> exact id

theorem not_grows_of_join {stack : ℕ} (hcall : k.call p = .user ∨ k.call p = .join stack) :
    ¬ k.Grows p := by
  rw [Grows]
  rcases hcall with hcall | hcall <;> rw [hcall] <;> exact id

/-- `wait` keeps the sizes, -/
theorem Sized.wait (h : Sized k) (hp : k.Running p) (hcall : k.call p = .user ∨ k.call p = .wait)
    {r : Kernel × Option ℤ} (hr : k.wait p = .ok r) :
    Sized (r.1.setCall p (if r.2.isSome then .user else .wait)) := by
  have hr' := (Unmonitored.agrees_wait k p).eq_ok hr
  have hsimple := simple_of_user_or hcall
  have hcalls : r.1.call = k.call := by
    rcases Unmonitored.wait_cases hr' with ⟨x, dirs, -, -, rfl⟩ | rfl | rfl <;> rfl
  have hsteady : ∀ i, Steady k (r.1.setCall p (if r.2.isSome then .user else .wait)) i := fun i ↦ by
    refine .setCall ?_
    rcases Unmonitored.wait_cases hr' with ⟨q, dirs, hchild, -, rfl⟩ | rfl | rfl
    · exact steady_reap h _ (zombieChild_eq_some hchild).2 i
    · exact .of_eq rfl
    · exact .of_placed (hp.placed_sleep i) (sleep_sz i)
  obtain ⟨hc, hsizeless⟩ : (if r.2.isSome then Call.user else .wait).Simple ∧
      (if r.2.isSome then Call.user else .wait).Sizeless := by
    split_ifs <;> exact ⟨trivial, trivial⟩
  have hcalls' := callSteady_setCall hcalls (not_grows_of_wait hcall) hsizeless
  have hk' := (h.toOrderly.wait hp hsimple hr').setCall (hp.awake_wait hr') hc
  exact h.of_steady hk' hsteady hcalls'
    fun i hi hmem ↦ wait_held hr
      (h.toOrderly.uses_of_counts (counts_of_steady (hsteady i) hcalls' hi)) hmem

/-- and so does `join`. -/
theorem Sized.join (h : Sized k) (hp : k.Running p) {stack : ℕ}
    (hcall : k.call p = .user ∨ k.call p = .join stack) :
    Sized ((k.join p).1.setCall p (if (k.join p).2.isSome then .user else .join stack)) := by
  have hsimple := simple_of_user_or_join hcall
  have hspec : (k.join p).1.call = k.call ∧ (k.join p).1.pgdirs = k.pgdirs ∧
      ∀ i, Steady k (k.join p).1 i := by
    rw [Kernel.join]
    split
    · rename_i q hthread
      have hzombie := (zombieThread_eq_some hthread).2
      refine ⟨rfl, rfl, fun i ↦ ?_⟩
      have hfield : ∀ {β : Type} (π : Proc → β), (∀ a n, π { a with countThread := n } = π a) →
          π (((k.reap q).modify p fun a ↦ { a with countThread := a.countThread - 1 }).ptable i) =
            π ((k.reap q).ptable i) := fun π hπ ↦ modify_field π (hπ _ _) i
      have hreap := steady_reap h k.pgdirs hzombie i
      have hstate := hfield Proc.state fun _ _ ↦ rfl
      refine ⟨fun hi ↦ hreap.counts ?_, fun hi ↦ ?_, fun hi ↦ ?_, fun hi r hr hpar ↦ ?_⟩
      · rw [Proc.Awake, hstate] at hi
        exact hi
      · exact (hfield Proc.pgdir fun _ _ ↦ rfl).trans (hreap.pgdir hi)
      · exact (hfield Proc.sz fun _ _ ↦ rfl).trans (hreap.sz hi)
      · exact (hfield Proc.parent fun _ _ ↦ rfl).trans (hreap.parent hi r hr hpar)
    · split_ifs
      · exact ⟨rfl, rfl, fun i ↦ .of_eq rfl⟩
      · exact ⟨rfl, rfl, fun i ↦ .of_placed (hp.placed_sleep i) (sleep_sz i)⟩
  obtain ⟨hcalls, hpgdirs, hsteady⟩ := hspec
  obtain ⟨hc, hsizeless⟩ : (if (k.join p).2.isSome then Call.user else .join stack).Simple ∧
      (if (k.join p).2.isSome then Call.user else .join stack).Sizeless := by
    split_ifs <;> exact ⟨trivial, trivial⟩
  exact h.of_steady ((h.toOrderly.join hp hsimple).setCall hp.awake_join hc)
    (fun i ↦ (hsteady i).setCall) (callSteady_setCall hcalls (not_grows_of_join hcall) hsizeless)
    fun _ _ hmem ↦ hpgdirs ▸ hmem

/-- `exec` gets a page directory that nobody has, and frees one that nobody else has. -/
theorem Sized.exec (h : Sized k) (hp : k.InUser p) {space : NewSpace} (hfresh : space.Fresh k)
    {r : Kernel × ℤ} (hr : k.exec p space = .ok r) : Sized r.1 := by
  have hr' := (Unmonitored.agrees_exec k p space).eq_ok hr
  have hk' := h.toOrderly.exec hp.1 hfresh hr'
  rcases Unmonitored.exec_cases hfresh hr' with rfl | ⟨d, sz, rfl⟩
  · exact h
  · obtain ⟨k₁, hfree, hr⟩ := bind_eq_ok_iff.1 hr
    obtain ⟨rfl, hnone⟩ := freevm_spec hfree
    rw [← Except.ok.inj hr] at hk' ⊢
    have hself : ((k.setupkvm d).modify p fun a ↦ { a with pgdir := d, sz := sz }).ptable p =
        { k.ptable p with pgdir := d, sz := sz } := modify_ptable_self
    have hrest : ∀ i, i ≠ p →
        ((k.setupkvm d).modify p fun a ↦ { a with pgdir := d, sz := sz }).ptable i = k.ptable i :=
      fun i hi ↦ modify_ptable_of_ne hi
    have hold : (k.ptable p).pgdir ≠ d := fun heq ↦
      hnone p (hself ▸ .inr hp.1.awake) (hself ▸ heq.symm)
    refine h.of_new p hk' (fun i hi ↦ .of_eq (hrest i hi)) (fun q ↦ .inl rfl)
      (fun q hq ↦ ?_) hp.2 (fun i hi hc ↦ Finset.mem_erase.2 ⟨?_, ?_⟩) (.inl ⟨?_, ?_⟩)
    · exact absurd ((h.made_embryo q p hq).symm.trans hp.1) (by decide)
    · have huses := h.toOrderly.uses_of_counts hc
      rw [← hrest i hi] at huses ⊢
      exact hnone i huses
    · exact Finset.mem_insert_of_mem (h.held i hc)
    · exact (congrArg (· ∉ k.pgdirs) (congrArg Proc.pgdir hself)).mpr hfresh.2
    · exact (congrArg (· ∈ (insert d k.pgdirs).erase _) (congrArg Proc.pgdir hself)).mpr
        (Finset.mem_erase.2 ⟨hold.symm, Finset.mem_insert_self d _⟩)

/-! ### Growing and shrinking -/

/-- The size at which `growproc` of a process that is alone in it arrives spreads from there: who
does not have it is a child. -/
theorem Sized.growproc (h : Sized k) (hp : k.InUser p) {n : ℤ} {memory : Bool}
    (ha : SizeMeets k (.growproc p n memory)) (hsz : k.growproc p n memory = some sz) :
    Sized (k.setCall p (.growproc sz)) := by
  obtain ⟨halone, hbelow⟩ := ha
  have hnone : ∀ q, (k.ptable q).pgdir = (k.ptable p).pgdir → ¬ k.Grows q := by
    intro q heq hgrow
    rcases eq_or_ne q p with rfl | hqp
    · exact not_grows_of_running hp hgrow
    · exact halone q hqp (h.awake_of_grows hgrow) heq hgrow
  have hgrows : ∀ q, q ≠ p → ((k.setCall p (.growproc sz)).Grows q ↔ k.Grows q) := fun q hq ↦
    grows_congr (setCall_call_of_ne hq)
  have hself : (k.setCall p (.growproc sz)).Grows p := grows_of_call (.inl setCall_call_self)
  have hcounts : ∀ i, (k.setCall p (.growproc sz)).Counts i → k.Counts i := by
    rintro i (hi | ⟨q, hq⟩)
    · exact .inl hi
    · rcases eq_or_ne q p with rfl | hqp
      · rw [setCall_call_self] at hq
        cases hq
      · exact .inr ⟨q, (setCall_call_of_ne hqp).symm.trans hq⟩
  -- no size has changed yet, so the loops of the others are as far as before
  have hspreads : ∀ {q m} {rest : Slot → Prop}, k.Spreads q m rest →
      (k.setCall p (.growproc sz)).Spreads q m rest :=
    fun hs i hi hc heq ↦ hs i hi (hcounts i hc) heq
  refine ⟨h.toOrderly.setCall hp.1.awake trivial, fun i j hi hj heq hnone' ↦ ?_,
    fun i hi ↦ h.held i (hcounts i hi), fun r x hr ↦ ?_, fun q r hq hr heq ↦ ?_, fun q m hq ↦ ?_,
    fun q m rest hq ↦ ?_⟩
  · refine h.agree i j (hcounts i hi) (hcounts j hj) heq fun q hq hgrow ↦ ?_
    rcases eq_or_ne q p with rfl | hqp
    · exact not_grows_of_running hp hgrow
    · exact hnone' q hq ((hgrows q hqp).2 hgrow)
  · rcases eq_or_ne r p with rfl | hrp
    · rw [setCall_call_self] at hr
      cases hr
    · exact h.copied r x ((setCall_call_of_ne hrp).symm.trans hr)
  · rcases eq_or_ne q p with rfl | hqp
    · by_contra hrq
      exact hnone r heq.symm ((hgrows r (Ne.symm hrq)).1 hr)
    · rcases eq_or_ne r p with rfl | hrp
      · exact absurd ((hgrows q hqp).1 hq) (hnone q heq)
      · exact h.alone q r ((hgrows q hqp).1 hq) ((hgrows r hrp).1 hr) heq
  · rcases eq_or_ne q p with rfl | hqp
    · rw [setCall_call_self] at hq
      obtain rfl := Call.growproc.inj hq
      intro i hiq hc heq
      rcases growproc_cases k q n memory with ⟨hres, -⟩ | ⟨-, hfail | hsame⟩
      · exact .inr ⟨hbelow hres i hiq (hcounts i hc) heq, trivial⟩
      · rw [hfail] at hsz
        cases hsz
      · rw [hsame] at hsz
        refine .inl ((h.agree i q (hcounts i hc) (.inl hp.1.awake) heq ?_).trans
          (Option.some.inj hsz))
        exact fun r hr ↦ hnone r (hr.trans heq)
    · exact hspreads (h.started q m ((setCall_call_of_ne hqp).symm.trans hq))
  · rcases eq_or_ne q p with rfl | hqp
    · rw [setCall_call_self] at hq
      cases hq
    · obtain ⟨hqsz, hs⟩ := h.looping q m rest ((setCall_call_of_ne hqp).symm.trans hq)
      exact ⟨hqsz, hspreads hs⟩

/-- A process in `growproc` sets a size in its own address space, and goes on. -/
theorem Sized.of_grows (h : Sized k) (hk' : Orderly k') (hp : k.Grows p)
    (hplaced : ∀ i, Placed (k.ptable i) (k'.ptable i))
    (hsz : ∀ i, (k.ptable i).pgdir ≠ (k.ptable p).pgdir → (k'.ptable i).sz = (k.ptable i).sz)
    (hpgdirs : k'.pgdirs = k.pgdirs) (hcall : ∀ q, q ≠ p → k'.call q = k.call q)
    {rest : List Slot} (hself : k'.call p = .growLoop sz rest) (hpsz : (k'.ptable p).sz = sz)
    (hspreads : ∀ i, i ≠ p → k.Counts i → (k.ptable i).pgdir = (k.ptable p).pgdir →
      (k'.ptable i).sz = sz ∨ (k.ptable i).parent = some p ∧ i ∈ rest) : Sized k' := by
  have hpgdir := fun i ↦ (hplaced i).pgdir
  have hgrow : k'.Grows p := grows_of_call (.inr ⟨rest, hself⟩)
  have hcounts : ∀ i, k'.Counts i → k.Counts i := by
    rintro i (hi | ⟨q, hq⟩)
    · exact .inl ((hplaced i).awake.1 hi)
    · rcases eq_or_ne q p with rfl | hqp
      · rw [hself] at hq
        cases hq
      · exact .inr ⟨q, (hcall q hqp).symm.trans hq⟩
  have hgrows : ∀ q, k'.Grows q ↔ k.Grows q := by
    intro q
    rcases eq_or_ne q p with rfl | hqp
    · exact iff_of_true hgrow hp
    · exact grows_congr (hcall q hqp)
  -- what the others in `growproc` have done is in other address spaces
  have hother : ∀ {q m} {rest : Slot → Prop}, q ≠ p → k.Grows q → k.Spreads q m rest →
      k'.Spreads q m rest := by
    intro q m rest hqp hq hs i hiq hc heq
    rw [hpgdir, hpgdir] at heq
    rw [hsz i fun heq' ↦ hqp (h.alone q p hq hp (heq.symm.trans heq')), (hplaced i).parent]
    exact hs i hiq (hcounts i hc) heq
  refine ⟨hk', fun i j hi hj heq hnone ↦ ?_, fun i hi ↦ ?_, fun r x hr ↦ ?_, fun q r hq hr heq ↦ ?_,
    fun q m hq ↦ ?_, fun q m rest' hq ↦ ?_⟩
  · rw [hpgdir, hpgdir] at heq
    have hne : (k.ptable i).pgdir ≠ (k.ptable p).pgdir := fun heq' ↦
      hnone p ((hpgdir p).trans (heq'.symm.trans (hpgdir i).symm)) hgrow
    rw [hsz i hne, hsz j (heq ▸ hne)]
    refine h.agree i j (hcounts i hi) (hcounts j hj) heq fun q hq hgrow' ↦ ?_
    exact hnone q ((hpgdir q).trans (hq.trans (hpgdir i).symm)) ((hgrows q).2 hgrow')
  · rw [hpgdir, hpgdirs]
    exact h.held i (hcounts i hi)
  · rcases eq_or_ne r p with rfl | hrp
    · rw [hself] at hr
      cases hr
    · rw [hpgdir, hpgdir]
      exact h.copied r x ((hcall r hrp).symm.trans hr)
  · rw [hpgdir, hpgdir] at heq
    exact h.alone q r ((hgrows q).1 hq) ((hgrows r).1 hr) heq
  · rcases eq_or_ne q p with rfl | hqp
    · rw [hself] at hq
      cases hq
    · have hq' := (hcall q hqp).symm.trans hq
      exact hother hqp (grows_of_call (.inl hq')) (h.started q m hq')
  · rcases eq_or_ne q p with rfl | hqp
    · rw [hself] at hq
      obtain ⟨rfl, rfl⟩ := Call.growLoop.inj hq
      refine ⟨hpsz, fun i hiq hc heq ↦ ?_⟩
      rw [hpgdir, hpgdir] at heq
      rw [(hplaced i).parent]
      exact hspreads i hiq (hcounts i hc) heq
    · have hq' := (hcall q hqp).symm.trans hq
      have hgrow' := grows_of_call (.inr ⟨rest', hq'⟩)
      obtain ⟨hqsz, hs⟩ := h.looping q m rest' hq'
      exact ⟨(hsz q fun heq ↦ hqp (h.alone q p hgrow' hp heq)).trans hqsz, hother hqp hgrow' hs⟩

/-- The loop of `growproc` is at its end: everybody in the address space has the size. -/
theorem Sized.growDone (h : Sized k) (hp : k.Running p) (hcall : k.call p = .growLoop sz []) :
    Sized (k.setCall p .user) := by
  obtain ⟨hpsz, hspreads⟩ := h.looping p sz [] hcall
  have hall : ∀ i, k.Counts i → (k.ptable i).pgdir = (k.ptable p).pgdir →
      (k.ptable i).sz = sz := by
    intro i hi heq
    rcases eq_or_ne i p with rfl | hip
    · exact hpsz
    · exact (hspreads i hip hi heq).resolve_right fun hrest ↦ List.not_mem_nil hrest.2
  have hsame : ∀ {q c}, (k.setCall p .user).call q = c → c ≠ .user → k.call q = c := by
    intro q c hq hc
    rcases eq_or_ne q p with rfl | hqp
    · exact absurd (hq.symm.trans setCall_call_self) hc
    · exact (setCall_call_of_ne hqp).symm.trans hq
  have hgrows : ∀ {q}, (k.setCall p .user).Grows q → k.Grows q := fun hq ↦ by
    obtain ⟨m, hm | ⟨rest, hm⟩⟩ := call_of_grows hq
    · exact grows_of_call (.inl (hsame hm nofun))
    · exact grows_of_call (.inr ⟨rest, hsame hm nofun⟩)
  have hcounts : ∀ i, (k.setCall p .user).Counts i → k.Counts i := by
    rintro i (hi | ⟨q, hq⟩)
    · exact .inl hi
    · exact .inr ⟨q, hsame hq nofun⟩
  have hspreads' : ∀ {q m} {rest : Slot → Prop}, k.Spreads q m rest →
      (k.setCall p .user).Spreads q m rest := fun hs i hi hc heq ↦ hs i hi (hcounts i hc) heq
  refine ⟨h.toOrderly.setCall hp.awake trivial, fun i j hi hj heq hnone ↦ ?_,
    fun i hi ↦ h.held i (hcounts i hi), fun r x hr ↦ h.copied r x (hsame hr nofun),
    fun q r hq hr heq ↦ h.alone q r (hgrows hq) (hgrows hr) heq,
    fun q m hq ↦ hspreads' (h.started q m (hsame hq nofun)), fun q m rest hq ↦ ?_⟩
  · by_cases hpi : (k.ptable i).pgdir = (k.ptable p).pgdir
    · rw [setCall_ptable, hall i (hcounts i hi) hpi, hall j (hcounts j hj) (heq.symm.trans hpi)]
    · refine h.agree i j (hcounts i hi) (hcounts j hj) heq fun q hq hgrow ↦ ?_
      have hqp : q ≠ p := fun heq' ↦ hpi (heq' ▸ hq).symm
      exact hnone q hq ((grows_congr (setCall_call_of_ne hqp)).2 hgrow)
  · obtain ⟨hqsz, hs⟩ := h.looping q m rest (hsame hq nofun)
    exact ⟨hqsz, hspreads' hs⟩

/-- A turn of the loop gives the new size to a child in the same address space. -/
theorem growChild_sz (i : Slot) : ((k.growChild p sz q).ptable i).sz =
    if i = q ∧ k.Joined p q then sz else (k.ptable i).sz := by
  rw [growChild]
  by_cases hq : k.Joined p q
  · rw [if_pos hq]
    rcases eq_or_ne i q with rfl | hi
    · rw [if_pos ⟨rfl, hq⟩, modify_ptable_self]
    · rw [if_neg fun h ↦ hi h.1, modify_ptable_of_ne hi]
  · rw [if_neg hq, if_neg fun h ↦ hq h.2]

/-- A turn of the loop keeps the sizes: one child less is left. -/
theorem Sized.growNext (h : Sized k) (hp : k.Running p) (hok : k.growNext p = .ok k') :
    Sized k' := by
  have hk' := h.toOrderly.growNext hp hok
  rcases growNext_cases hok with ⟨sz, hcall, rfl⟩ | ⟨sz, q, rest, hcall, rfl⟩ | ⟨sz, hcall, rfl⟩
  · refine h.of_grows hk' (grows_of_call (.inl hcall)) (placed_growSelf sz) (fun i hi ↦ ?_) rfl
      (fun q hq ↦ setCall_call_of_ne hq) setCall_call_self ?_ fun i hip hi heq ↦ ?_
    · have hip : i ≠ p := fun heq ↦ hi (heq ▸ rfl)
      rw [setCall_ptable, growSelf, modify_ptable_of_ne hip]
    · rw [setCall_ptable, growSelf, modify_ptable_self]
    · rw [setCall_ptable, growSelf, modify_ptable_of_ne hip]
      exact (h.started p sz hcall i hip hi heq).imp_right fun hpar ↦
        ⟨hpar.1, List.mem_finRange i⟩
  · obtain ⟨hpsz, hspreads⟩ := h.looping p sz (q :: rest) hcall
    refine h.of_grows hk' (grows_of_call (.inr ⟨_, hcall⟩)) (placed_growChild sz) (fun i hi ↦ ?_)
      growChild_pgdirs (fun r hr ↦ (setCall_call_of_ne hr).trans (congrFun growChild_call r))
      setCall_call_self ?_ fun i hip hi heq ↦ ?_
    · rw [setCall_ptable, growChild_sz, if_neg]
      rintro ⟨rfl, hjoined⟩
      exact hi hjoined.2
    · rw [setCall_ptable, growChild_sz, hpsz, ite_self]
    · rw [setCall_ptable, growChild_sz]
      rcases hspreads i hip hi heq with hisz | ⟨hpar, hmem⟩
      · rw [hisz, ite_self]
        exact .inl rfl
      · rcases List.mem_cons.1 hmem with rfl | hmem
        · exact .inl (if_pos ⟨rfl, hpar, heq⟩)
        · exact .inr ⟨hpar, hmem⟩
  · exact h.growDone hp hcall

/-! ### Every run -/

/-- A step that frees no page directory in use is the same with the monitor. -/
theorem FreesSafely.step_eq_ok {a : Action} (ha : FreesSafely k a)
    (hstep : Unmonitored.step k a = .ok k') : k.step a = .ok k' := by
  rcases Unmonitored.agrees_step k a with heq | heq | heq
  · exact absurd heq ha.1
  · exact absurd heq ha.2
  · exact heq.trans hstep

/-- A step that meets the condition keeps the invariant. -/
theorem Sized.step (h : Sized k) {a : Action} (ha : SizeMeets k a)
    (hstep : Unmonitored.step k a = .ok k') : Sized k' := by
  cases a with
  | dispatch p =>
    obtain ⟨hp, rfl⟩ := Unmonitored.require_ok hstep
    exact h.of_placed (placed_dispatch hp)
      (modify_field (f := fun a ↦ { a with state := .running, chan := .null }) Proc.sz rfl) rfl rfl
  | yield p =>
    obtain ⟨hp, rfl⟩ := Unmonitored.require_ok hstep
    exact h.of_placed hp.placed_yield
      (modify_field (f := fun a ↦ { a with state := .runnable }) Proc.sz rfl) rfl rfl
  | sleep p a =>
    obtain ⟨hp, rfl⟩ := Unmonitored.require_ok hstep
    exact h.of_placed hp.placed_sleep sleep_sz rfl rfl
  | wakeup a =>
    rw [← Except.ok.inj hstep]
    exact h.of_placed placed_wakeup1 wakeup1_sz rfl rfl
  | kill pid =>
    rw [← Except.ok.inj hstep]
    exact h.of_placed placed_kill kill_sz kill_pgdirs kill_call
  | growproc p n memory =>
    obtain ⟨hp, ⟨-, rfl⟩ | ⟨sz, hsz, rfl⟩⟩ := Unmonitored.step_growproc hstep
    · exact h
    · exact h.growproc hp ha hsz
  | growNext p =>
    obtain ⟨hp, hok⟩ := Unmonitored.require_eq_ok hstep
    exact h.growNext hp hok
  | fork p =>
    obtain ⟨hp, rfl⟩ := Unmonitored.require_ok hstep
    exact h.fork hp
  | noKstack p =>
    obtain ⟨np, hf, hp, rfl⟩ := Unmonitored.step_noKstack hstep
    exact h.goesBack (f := fun a ↦ { a with state := .unused }) hp hf (fun _ ↦ rfl) fun _ ↦ rfl
  | forkCopy p space =>
    obtain ⟨np, r, hcall, hp, hfresh, hr, rfl⟩ := Unmonitored.step_forkCopy hstep
    exact h.forkCopy hp (.inl hcall) hfresh hr
  | forkReturn p =>
    obtain ⟨np, hcall, hp, rfl⟩ := Unmonitored.step_forkReturn hstep
    exact h.forkReturn hp hcall
  | clone p stack =>
    obtain ⟨hp, rfl⟩ := Unmonitored.require_ok hstep
    exact h.clone hp stack
  | cloneCopy p =>
    obtain ⟨np, stack, hcall, hp, rfl⟩ := Unmonitored.step_cloneCopy hstep
    exact h.cloneCopy hp hcall ha
  | cloneReturn p copied =>
    obtain ⟨np, hcall, hp, rfl⟩ := Unmonitored.step_cloneReturn hstep
    exact h.cloneReturn hp hcall copied
  | exec p space =>
    obtain ⟨⟨hp, hfresh⟩, hok⟩ := Unmonitored.require_eq_ok (ha.step_eq_ok hstep)
    obtain ⟨r, hr, hok⟩ := bind_eq_ok_iff.1 hok
    rw [← Except.ok.inj hok]
    exact h.exec hp hfresh hr
  | exit p =>
    obtain ⟨hp, hok⟩ := Unmonitored.require_eq_ok hstep
    exact h.exit hp hok
  | wait p =>
    obtain ⟨⟨hp, hcall⟩, hok⟩ := Unmonitored.require_eq_ok (ha.step_eq_ok hstep)
    obtain ⟨r, hr, hok⟩ := bind_eq_ok_iff.1 hok
    rw [← Except.ok.inj hok]
    exact h.wait hp hcall hr
  | join p stack =>
    obtain ⟨hp, hcall, ⟨-, rfl⟩ | ⟨-, rfl⟩⟩ := Unmonitored.step_join hstep
    · exact h
    · exact h.join hp hcall

/-- At boot there is one size. -/
theorem sized_userinit {d : ℕ} (hd : d ≠ 0) : Sized (userinit d) := by
  have huser : ∀ q, (userinit d).call q = .user := fun q ↦ by rw [userinit_call]
  have hgrows : ∀ q, ¬ (userinit d).Grows q := fun q ↦ not_grows_of_user (huser q)
  have hsingle : ∀ i, (userinit d).Counts i → i = initproc := by
    rintro i (hi | ⟨q, hq⟩)
    · by_contra hne
      rw [userinit_ptable_of_ne d hne] at hi
      rcases hi with hi | hi | hi <;> cases hi
    · rw [huser] at hq
      cases hq
  refine ⟨(userinit_inv hd).toOrderly, fun i j hi hj _ _ ↦ ?_, fun i hi ↦ ?_, fun r x hr ↦ ?_,
    fun q _ hq ↦ absurd hq (hgrows q), fun q _ hq ↦ ?_, fun q _ _ hq ↦ ?_⟩
  · rw [hsingle i hi, hsingle j hj]
  · rw [hsingle i hi, userinit_ptable_initproc, userinit_pgdirs]
    exact Finset.mem_singleton_self d
  all_goals
    rw [huser] at *
    contradiction

/-- In every run that meets the condition the sizes are kept. -/
theorem sized_of_reachable (hk : (Unmonitored.system.restrict SizeMeets).Reachable k) :
    Sized k := by
  refine hk.invariant ?_ fun s a t hs ⟨ha, hstep⟩ ↦ hs.step ha hstep
  rintro s ⟨d, hd, rfl⟩
  exact sized_userinit hd

/-- Where nobody is in `growproc` the sizes agree. -/
theorem Sized.oneSize (h : Sized k) : OneSize k := fun i j hi hj heq hnone ↦
  h.agree i j (.inl hi) (.inl hj) heq fun q hq hgrow ↦ hnone q (h.awake_of_grows hgrow) hq hgrow

/-- **In every run in which a process only grows or shrinks when nobody has its address space but
children of its own, and in which nobody starts that or copies a size while somebody else is at it
in the same address space, entries with the same page directory have the same size outside
`growproc`.** -/
theorem oneSize_of_reachable (hk : (Unmonitored.system.restrict SizeMeets).Reachable k) :
    OneSize k :=
  (sized_of_reachable hk).oneSize

/-- The whole of `growproc` of `p`, which grows by a page. -/
def growPage (p : Slot) : List Action :=
  .growproc p PGSIZE true :: List.replicate (NPROC + 2) (.growNext p)

/-- The first process clones a thread and grows by a page. -/
def grownBelow : List Action :=
  let main : Slot := initproc
  [.dispatch main, .clone main 4096, .cloneCopy main, .cloneReturn main true] ++ growPage main

/-- Both have the new size. -/
theorem oneSize_grownBelow : ∃ k, (∀ q, ¬ k.Grows q) ∧
    (k.ptable ⟨1, one_lt_NPROC⟩).Awake ∧ (k.ptable ⟨1, one_lt_NPROC⟩).sz = 2 * PGSIZE ∧
      (k.ptable initproc).sz = 2 * PGSIZE ∧ OneSize k := by
  obtain ⟨k, hreach, hk⟩ := System.Reachable.exists_of_run
    (S := Unmonitored.system.restrict SizeMeets)
    (f := System.checked SizeMeets Unmonitored.step .blocked)
    (p := fun k ↦ decide ((∀ q, ¬ k.Grows q) ∧ (k.ptable ⟨1, one_lt_NPROC⟩).Awake ∧
      (k.ptable ⟨1, one_lt_NPROC⟩).sz = 2 * PGSIZE ∧ (k.ptable initproc).sz = 2 * PGSIZE))
    (l := grownBelow) (System.next_of_checked fun _ _ _ h ↦ h) (.init ⟨1, by decide, rfl⟩)
    (by decide +kernel)
  obtain ⟨hgrows, hawake, hthread, hmain⟩ := of_decide_eq_true hk
  exact ⟨k, hgrows, hawake, hthread, hmain, oneSize_of_reachable hreach⟩

/-! ### A thread that grows -/

/-- The first process clones a thread, which grows by a page. -/
def growingThread : List Action :=
  let main : Slot := initproc
  let thread : Slot := ⟨1, one_lt_NPROC⟩
  [.dispatch main, .clone main 4096, .cloneCopy main, .cloneReturn main true, .dispatch thread] ++
    growPage thread

/-- **The thread has the new size, the process that cloned it the old one.** -/
theorem growingThread_sizes : ¬ ∀ k, Unmonitored.system.Reachable k → OneSize k := by
  intro hall
  obtain ⟨k, hreach, hk⟩ := System.Reachable.exists_of_run (S := Unmonitored.system)
    (f := Unmonitored.step)
    (p := fun k ↦ decide ((∀ q, ¬ k.Grows q) ∧ (k.ptable ⟨1, one_lt_NPROC⟩).Awake ∧
      (k.ptable initproc).Awake ∧
      (k.ptable ⟨1, one_lt_NPROC⟩).pgdir = (k.ptable initproc).pgdir ∧
      (k.ptable ⟨1, one_lt_NPROC⟩).sz ≠ (k.ptable initproc).sz))
    (fun _ _ _ h ↦ h) (l := growingThread)
    (.init ⟨1, by decide, rfl⟩ : Unmonitored.system.Reachable (userinit 1)) (by decide +kernel)
  obtain ⟨hgrows, hthread, hmain, hpgdir, hsz⟩ := of_decide_eq_true hk
  exact hsz (hall k hreach _ _ hthread hmain hpgdir fun q _ _ ↦ hgrows q)

end Threads
