import Cs537OS.Pipes.Stream
import Mathlib.Algebra.BigOperators.Group.Finset.Piecewise
import Mathlib.Algebra.Order.BigOperators.Group.Finset

/-!
# The life of a pipe

A pipe is in use while a descriptor of one of its ends is left. The reference count of an end is the
number of its descriptors, over all processes (`Lives.ref_eq`), so the process that closes the last
one is the only one that clears the flag of the end, and nobody is in a call on that end then. The
process that finds both ends closed frees the page.

`Place.phase` is what this depends on of the place of a process, and `Turn` what a statement
does to it.

* `lifetimeOk_of_reachable` — the page is freed at most once, when nobody has or uses the pipe any
  more; nobody does afterwards; and it is freed if everybody is done.
-/

namespace Pipes

open Finset

/-- What a process is to the life of the pipe. -/
inductive Phase
  | user
  | inCall (writable : Bool)
  /-- About to clear the flag of an end. -/
  | closing (writable : Bool)
  /-- About to test the flags. -/
  | late
  | freeing
  | done
deriving DecidableEq

theorem Phase.inCall_ne_closing {w v : Bool} : Phase.inCall w ≠ .closing v := nofun

theorem Phase.inCall_ne_freeing {w : Bool} : Phase.inCall w ≠ .freeing := nofun

def Place.phase : Place → Phase
  | .user => .user
  | .write _ _ _ _ _ => .inCall true
  | .read _ _ _ => .inCall false
  | .close .acquire w | .close .clear w => .closing w
  | .close .wakeup _ | .close .test _ => .late
  | .close .releaseFree _ | .close .free _ => .freeing
  | .close .release _ => .done

/-- What a statement does: the phases before and after, and the flags of the pipe. -/
inductive Turn (p : Pipe) : Phase → Phase → Pipe → Prop
  | stay (f : Phase) (p' : Pipe) : (∀ w, p'.isOpen w = p.isOpen w) → p'.freed = p.freed →
    Turn p f f p'
  | leave (w : Bool) : Turn p (.inCall w) .user p
  | leaveDone : Turn p .done .user p
  | clear (w : Bool) : Turn p (.closing w) .late (p.clear w)
  | last : p.readopen = false → p.writeopen = false → Turn p .late .freeing p
  | notLast (w : Bool) : p.isOpen w = true → Turn p .late .done p
  | free : Turn p .freeing .user { p with freed := p.freed + 1 }

namespace Pipe

variable {p p' : Pipe} {l l' : Place} {killed : Bool} {op : Monitor.Op Chan} {w v : Bool}

theorem turn_of_next (h : p.next killed l = some (p', l', op)) : Turn p l.phase l'.phase p' := by
  have hstay : ∀ f, Turn p f f p := fun f ↦ .stay f p (fun _ ↦ rfl) rfl
  cases l with
  | user => cases h
  | write l addr n start i =>
    cases l <;> obtain ⟨rfl, rfl, rfl⟩ := Option.some.inj h
    case fail => exact .leave true
    case release => exact .leave true
    case put => exact .stay _ _ (fun w ↦ by cases w <;> rfl) rfl
    all_goals exact hstay _
  | read l n got =>
    cases l <;> obtain ⟨rfl, rfl, rfl⟩ := Option.some.inj h
    case fail => exact .leave false
    case release => exact .leave false
    case get => exact .stay _ _ (fun w ↦ by cases w <;> rfl) rfl
    all_goals exact hstay _
  | close l w =>
    cases l <;> obtain ⟨rfl, rfl, rfl⟩ := Option.some.inj h
    case acquire => exact hstay _
    case clear => exact .clear w
    case wakeup => exact hstay _
    case release => exact .leaveDone
    case releaseFree => exact hstay _
    case free => exact .free
    case test =>
      rcases hread : p.readopen with _ | _
      · rcases hwrite : p.writeopen with _ | _
        · exact .last hread hwrite
        · exact .notLast true hwrite
      · exact .notLast false hread

theorem isOpen_clear : (p.clear w).isOpen v = if v = w then false else p.isOpen v := by
  cases w <;> cases v <;> rfl

end Pipe

/-- A sum in which one term changes. -/
theorem sum_update {τ : Type*} [Fintype τ] [DecidableEq τ] (f : τ → ℕ) (t : τ) (k : ℕ) :
    ∑ u, Function.update f t k u + f t = ∑ u, f u + k := by
  rw [sum_update_of_mem (mem_univ t), ← sum_erase_add univ f (mem_univ t),
    sdiff_singleton_eq_erase]
  omega

/-- The flags of the pipe, the reference counts, the descriptors and the phases fit. -/
structure Lives {τ : Type*} [Fintype τ] (p : Pipe) (ref : Bool → ℕ) (ofile : τ → Bool → ℕ)
    (phase : τ → Phase) : Prop where
  ref_eq : ∀ w, ref w = ∑ t, ofile t w
  held : ∀ t w, phase t = .inCall w → 0 < ofile t w
  isOpen : ∀ w, 0 < ref w → p.isOpen w = true
  closing : ∀ t w, phase t = .closing w → ref w = 0 ∧ p.isOpen w = true
  unique : ∀ t u w, phase t = .closing w → phase u = .closing w → t = u
  exists_closing : ∀ w, p.isOpen w = true → ref w = 0 → ∃ t, phase t = .closing w
  /-- While an end is open nobody frees the page. -/
  unended : ∀ w, p.isOpen w = true → p.freed = 0 ∧ ∀ t, phase t ≠ .freeing
  /-- When both are closed there is one process left, which will, or nobody. -/
  ended : (∀ w, p.isOpen w = false) →
    (p.freed = 0 ∧ ∃ t, (phase t = .late ∨ phase t = .freeing) ∧ ∀ u ≠ t, phase u = .user) ∨
      p.freed = 1 ∧ ∀ t, phase t = .user

namespace Lives

variable {τ : Type*} [Fintype τ] {p p' : Pipe} {ref : Bool → ℕ} {ofile : τ → Bool → ℕ}
  {phase : τ → Phase} {t u : τ} {w : Bool} {f : Phase}

/-- Who has a descriptor has a reference. -/
theorem ref_pos (h : Lives p ref ofile phase) (ht : 0 < ofile t w) : 0 < ref w := by
  rw [h.ref_eq w]
  exact ht.trans_le (single_le_sum (f := fun t ↦ ofile t w) (fun _ _ ↦ Nat.zero_le _) (mem_univ t))

theorem isOpen_of_held (h : Lives p ref ofile phase) (ht : 0 < ofile t w) : p.isOpen w = true :=
  h.isOpen w (h.ref_pos ht)

/-- A closed end is in nobody's hands. -/
theorem ofile_eq_zero (h : Lives p ref ofile phase) (hclosed : p.isOpen w = false) (t : τ) :
    ofile t w = 0 := by
  rcases Nat.eq_zero_or_pos (ofile t w) with hzero | hpos
  · exact hzero
  · rw [h.isOpen_of_held hpos] at hclosed
    cases hclosed

/-- Nobody is in a call on a closed end. -/
theorem not_inCall (h : Lives p ref ofile phase) (hclosed : p.isOpen w = false) (t : τ) :
    phase t ≠ .inCall w := by
  intro ht
  rw [h.isOpen_of_held (h.held t w ht)] at hclosed
  cases hclosed

theorem not_closing (h : Lives p ref ofile phase) (hclosed : p.isOpen w = false) (t : τ) :
    phase t ≠ .closing w := by
  intro ht
  rw [(h.closing t w ht).2] at hclosed
  cases hclosed

/-- With both ends closed, the process that is still there is the only one. -/
theorem alone (h : Lives p ref ofile phase) (hclosed : ∀ w, p.isOpen w = false)
    (ht : phase t ≠ .user) :
    p.freed = 0 ∧ (phase t = .late ∨ phase t = .freeing) ∧ ∀ u ≠ t, phase u = .user := by
  rcases h.ended hclosed with ⟨hfreed, v, hv, hothers⟩ | ⟨-, huser⟩
  · obtain rfl : t = v := by
      by_contra hne
      exact ht (hothers t hne)
    exact ⟨hfreed, hv, hothers⟩
  · exact absurd (huser t) ht

/-- The descriptors and the reference counts change, and no count comes to 0 or from there. -/
theorem of_ref {ref' : Bool → ℕ} {ofile' : τ → Bool → ℕ} (h : Lives p ref ofile phase)
    (href : ∀ w, ref' w = ∑ t, ofile' t w)
    (hheld : ∀ t w, phase t = .inCall w → 0 < ofile' t w) (hzero : ∀ w, ref' w = 0 ↔ ref w = 0) :
    Lives p ref' ofile' phase :=
  ⟨href, hheld, fun w hw ↦ h.isOpen w (Nat.pos_of_ne_zero fun hz ↦ hw.ne' ((hzero w).2 hz)),
    fun t w ht ↦ ⟨(hzero w).2 (h.closing t w ht).1, (h.closing t w ht).2⟩, h.unique,
    fun w hw hz ↦ h.exists_closing w hw ((hzero w).1 hz), h.unended, h.ended⟩

variable [DecidableEq τ]

omit [Fintype τ] in
/-- What an update says about a phase that the new one is not. -/
theorem of_update {g : Phase} (hu : Function.update phase t f u = g) (hg : f ≠ g) :
    u ≠ t ∧ phase u = g := by
  rcases eq_or_ne u t with rfl | hne
  · rw [Function.update_self] at hu
    exact absurd hu hg
  · rw [Function.update_of_ne hne] at hu
    exact ⟨hne, hu⟩

/-- A process whose phase asks for nothing, and which is not the last. -/
theorem move (h : Lives p ref ofile phase) (hf : f = .user ∨ f = .done)
    (ht : ∀ w, phase t ≠ .closing w)
    (hended : (∀ w, p.isOpen w = false) → False) :
    Lives p ref ofile (Function.update phase t f) := by
  have hcall : ∀ w, f ≠ .inCall w := by
    rcases hf with rfl | rfl <;> nofun
  have hclosing : ∀ w, f ≠ .closing w := by
    rcases hf with rfl | rfl <;> nofun
  have hfreeing : f ≠ .freeing := by
    rcases hf with rfl | rfl <;> nofun
  refine ⟨h.ref_eq, fun u w hu ↦ h.held u w (of_update hu (hcall w)).2, h.isOpen,
    fun u w hu ↦ h.closing u w (of_update hu (hclosing w)).2,
    fun u v w hu hv ↦ h.unique u v w (of_update hu (hclosing w)).2 (of_update hv (hclosing w)).2,
    fun w hw hz ↦ ?_, fun w hw ↦ ⟨(h.unended w hw).1, fun u hu ↦ ?_⟩, fun hall ↦ (hended hall).elim⟩
  · obtain ⟨u, hu⟩ := h.exists_closing w hw hz
    have hne : u ≠ t := fun heq ↦ ht w (heq ▸ hu)
    exact ⟨u, (Function.update_of_ne hne ..).trans hu⟩
  · exact (h.unended w hw).2 u (of_update hu hfreeing).2

/-- A process clears the flag of an end. The lock keeps the others out of `pipeclose`. -/
theorem clear (h : Lives p ref ofile phase) (ht : phase t = .closing w)
    (halone : ∀ u ≠ t, phase u ≠ .late ∧ phase u ≠ .done) :
    Lives (p.clear w) ref ofile (Function.update phase t .late) := by
  obtain ⟨href, hopen⟩ := h.closing t w ht
  have hfreed : (p.clear w).freed = p.freed := by cases w <;> rfl
  have hother : ∀ {v}, (p.clear w).isOpen v = true → v ≠ w ∧ p.isOpen v = true := by
    intro v hv
    rw [Pipe.isOpen_clear] at hv
    split_ifs at hv with heq
    exact ⟨heq, hv⟩
  refine ⟨h.ref_eq, fun u v hu ↦ h.held u v (of_update hu nofun).2, fun v hv ↦ ?_,
    fun u v hu ↦ ?_,
    fun u v x hu hv ↦ h.unique u v x (of_update hu nofun).2 (of_update hv nofun).2,
    fun v hv hz ↦ ?_, fun v hv ↦ ?_, fun hall ↦ .inl ⟨?_, t, .inl (Function.update_self ..), ?_⟩⟩
  · have hne : v ≠ w := by
      rintro rfl
      exact hv.ne' href
    rw [Pipe.isOpen_clear, if_neg hne]
    exact h.isOpen v hv
  · obtain ⟨hne, hu⟩ := of_update hu nofun
    have hvw : v ≠ w := by
      rintro rfl
      exact hne (h.unique u t v hu ht)
    rw [Pipe.isOpen_clear, if_neg hvw]
    exact h.closing u v hu
  · obtain ⟨hvw, hv⟩ := hother hv
    obtain ⟨u, hu⟩ := h.exists_closing v hv hz
    have hne : u ≠ t := by
      rintro rfl
      rw [ht] at hu
      exact hvw (Phase.closing.inj hu).symm
    exact ⟨u, (Function.update_of_ne hne ..).trans hu⟩
  · rw [hfreed]
    exact ⟨(h.unended w hopen).1, fun u hu ↦ (h.unended w hopen).2 u (of_update hu nofun).2⟩
  · rw [hfreed]
    exact (h.unended w hopen).1
  · -- with this end and the other one closed nobody else can be anywhere
    intro u hu
    rw [Function.update_of_ne hu]
    have hv : ∀ v ≠ w, p.isOpen v = false := by
      intro v hvw
      have hclosed := hall v
      rwa [Pipe.isOpen_clear, if_neg hvw] at hclosed
    cases hphase : phase u with
    | user => rfl
    | inCall v =>
      rcases eq_or_ne v w with rfl | hvw
      · exact absurd href (h.ref_pos (h.held u v hphase)).ne'
      · exact absurd hphase (h.not_inCall (hv v hvw) u)
    | closing v =>
      rcases eq_or_ne v w with rfl | hvw
      · exact absurd (h.unique u t v hphase ht) hu
      · exact absurd hphase (h.not_closing (hv v hvw) u)
    | late => exact absurd hphase (halone u hu).1
    | freeing => exact absurd hphase ((h.unended w hopen).2 u)
    | done => exact absurd hphase (halone u hu).2

/-- **A statement keeps everything fitting.** -/
theorem turn (h : Lives p ref ofile phase) (hturn : Turn p (phase t) f p')
    (halone : ∀ w, phase t = .closing w → f = .late → ∀ u ≠ t, phase u ≠ .late ∧ phase u ≠ .done) :
    Lives p' ref ofile (Function.update phase t f) := by
  generalize hg : phase t = g at hturn
  cases hturn with
  | stay _ _ hopen hfreed =>
    rw [← hg, Function.update_eq_self]
    refine ⟨h.ref_eq, h.held, ?_, ?_, h.unique, ?_, ?_, ?_⟩ <;> simp only [hopen, hfreed]
    · exact h.isOpen
    · exact h.closing
    · exact h.exists_closing
    · exact h.unended
    · exact h.ended
  | leave w =>
    refine h.move (.inl rfl) (fun v hv ↦ ?_) fun hall ↦ h.not_inCall (hall w) t hg
    rw [hg] at hv
    cases hv
  | leaveDone =>
    refine h.move (.inl rfl) (fun v hv ↦ ?_) fun hall ↦ ?_
    · rw [hg] at hv
      cases hv
    · have hphase := (h.alone hall (by rw [hg]; nofun)).2.1
      rw [hg] at hphase
      rcases hphase with hphase | hphase <;> cases hphase
  | clear w => exact h.clear hg (halone w hg rfl)
  | last hread hwrite =>
    -- both ends are closed, and `t` is the only one left
    have hall : ∀ w, p.isOpen w = false := by
      intro w
      cases w
      · exact hread
      · exact hwrite
    obtain ⟨hfreed, -, hothers⟩ := h.alone hall (t := t) (by rw [hg]; nofun)
    refine ⟨h.ref_eq, fun u w hu ↦ h.held u w (of_update hu nofun).2, h.isOpen,
      fun u w hu ↦ h.closing u w (of_update hu nofun).2,
      fun u v w hu hv ↦ h.unique u v w (of_update hu nofun).2 (of_update hv nofun).2,
      fun w hw ↦ ?_, fun w hw ↦ ?_,
      fun _ ↦ .inl ⟨hfreed, t, .inr (Function.update_self ..), fun u hu ↦ ?_⟩⟩
    · rw [hall w] at hw
      cases hw
    · rw [hall w] at hw
      cases hw
    · exact (Function.update_of_ne hu ..).trans (hothers u hu)
  | notLast w hopen =>
    refine h.move (.inr rfl) (fun v hv ↦ ?_) fun hall ↦ ?_
    · rw [hg] at hv
      cases hv
    · rw [hall w] at hopen
      cases hopen
  | free =>
    have hall : ∀ w, p.isOpen w = false := by
      intro w
      rw [← Bool.not_eq_true]
      exact fun hw ↦ (h.unended w hw).2 t hg
    obtain ⟨hfreed, -, hothers⟩ := h.alone hall (t := t) (by rw [hg]; nofun)
    have huser : ∀ u, Function.update phase t .user u = .user := by
      intro u
      rcases eq_or_ne u t with rfl | hu
      · exact Function.update_self ..
      · exact (Function.update_of_ne hu ..).trans (hothers u hu)
    have hopen : ∀ w, Pipe.isOpen { p with freed := p.freed + 1 } w = false := by
      intro w
      rw [← hall w]
      cases w <;> rfl
    refine ⟨h.ref_eq, fun u w hu ↦ ?_, fun w hw ↦ ?_, fun u w hu ↦ ?_, fun u v w hu ↦ ?_,
      fun w hw ↦ ?_, fun w hw ↦ ?_, fun _ ↦ .inr ⟨?_, huser⟩⟩
    · rw [huser u] at hu
      cases hu
    · have hw := h.isOpen w hw
      rw [hall w] at hw
      cases hw
    · rw [huser u] at hu
      cases hu
    · rw [huser u] at hu
      cases hu
    · rw [hopen w] at hw
      cases hw
    · rw [hopen w] at hw
      cases hw
    · show p.freed + 1 = 1
      rw [hfreed]

end Lives

/-! ### The processes -/

namespace State

variable {τ : Type*} [DecidableEq τ] [Fintype τ] {s s' : State τ} {t u : τ} {a : Act τ} {w : Bool}
  {l : Place} {queue : List UInt8}

def phase (s : State τ) (t : τ) : Phase := (s.place t).phase

omit [Fintype τ] in
theorem phase_update : (fun u ↦ (Function.update s.place t l u).phase) =
    Function.update s.phase t l.phase := by
  funext u
  rcases eq_or_ne u t with rfl | hne
  · rw [Function.update_self, Function.update_self]
  · rw [Function.update_of_ne hne, Function.update_of_ne hne]
    rfl

/-- The files, the pipe and the processes fit. -/
def Alive (s : State τ) : Prop := Lives s.pipe s.ref s.ofile s.phase

theorem Alive.run (h : s.Alive) (hinv : s.Inv queue) (hrun : s.run t = .ok s') : s'.Alive := by
  obtain ⟨pipe, l, op, monitor, hnext, -, rfl⟩ := run_cases hrun
  show Lives pipe s.ref s.ofile (fun u ↦ (Function.update s.place t l u).phase)
  rw [phase_update]
  refine Lives.turn h (Pipe.turn_of_next hnext) fun w ht hlate u hu ↦ ?_
  -- the process that clears the flag has the lock, and so would the other one
  have hin : (s.place t).inside = true := by
    have hclosing : (s.place t).phase = .closing w := ht
    generalize s.place t = l₀ at hclosing hnext
    cases l₀ with
    | close l₀ v =>
      cases l₀ with
      | acquire =>
        obtain ⟨rfl, rfl, rfl⟩ := Option.some.inj hnext
        cases hlate
      | clear => rfl
      | _ => cases hclosing
    | _ => cases hclosing
  have hout : (s.place u).inside = false := by
    rw [← Bool.not_eq_true]
    exact fun hu' ↦ hu (hinv.obeys.unique hu' hin)
  rw [phase]
  generalize s.place u = l₀ at hout
  cases l₀ with
  | close l₀ v =>
    cases l₀ with
    | acquire | free => exact ⟨nofun, nofun⟩
    | _ => cases hout
  | _ => exact ⟨nofun, nofun⟩

theorem sum_setOfile (k : ℕ) (v : Bool) :
    ∑ u, s.setOfile t w k u v + (if v = w then s.ofile t w else 0) =
      ∑ u, s.ofile u v + if v = w then k else 0 := by
  have hterm : ∀ u, s.setOfile t w k u v =
      Function.update (fun u ↦ s.ofile u v) t (if v = w then k else s.ofile t v) u := by
    intro u
    rcases eq_or_ne u t with rfl | hne
    · rw [setOfile, Function.update_self, Function.update_self, Function.update_apply]
    · rw [setOfile, Function.update_of_ne hne, Function.update_of_ne hne]
  have hsum := sum_update (fun u ↦ s.ofile u v) t (if v = w then k else s.ofile t v)
  rw [← sum_congr rfl fun u _ ↦ hterm u] at hsum
  split_ifs at hsum ⊢ with heq
  · subst heq
    exact hsum
  · exact Nat.add_right_cancel hsum

omit [Fintype τ] in
/-- Only `t` has other descriptors than before, and is not in a call. -/
theorem setOfile_pos {k : ℕ} (ht : s.phase t = .user) (hu : s.phase u = .inCall w)
    (hpos : 0 < s.ofile u w) (v : Bool) : 0 < s.setOfile t v k u w := by
  have hne : u ≠ t := by
    rintro rfl
    rw [ht] at hu
    cases hu
  rwa [setOfile, Function.update_of_ne hne]

theorem Alive.dup (h : s.Alive) (hdup : s.dup t w = .ok s') : s'.Alive := by
  rw [State.dup] at hdup
  split_ifs at hdup with hcan
  obtain rfl := Except.ok.inj hdup
  have ht : s.phase t = .user := by rw [phase, Place.eq_user_of_isUser hcan.1]; rfl
  have hpos := Lives.ref_pos h hcan.2
  refine Lives.of_ref h (fun v ↦ ?_) (fun u v hu ↦ setOfile_pos ht hu (h.held u v hu) w)
    fun v ↦ ?_
  · have hsum := sum_setOfile (s := s) (t := t) (w := w) (s.ofile t w + 1) v
    rw [← h.ref_eq v] at hsum
    show Function.update s.ref w (s.ref w + 1) v = ∑ u, s.setOfile t w (s.ofile t w + 1) u v
    rw [Function.update_apply]
    split_ifs at hsum ⊢ with heq
    · subst heq
      omega
    · omega
  · show Function.update s.ref w (s.ref w + 1) v = 0 ↔ s.ref v = 0
    rcases eq_or_ne v w with rfl | hne
    · rw [Function.update_self]
      exact ⟨fun hz ↦ absurd hz (Nat.succ_ne_zero _), fun hz ↦ absurd hz hpos.ne'⟩
    · rw [Function.update_of_ne hne]

theorem Alive.fork (h : s.Alive) {np : τ} (hfork : s.fork t np = .ok s') : s'.Alive := by
  rw [State.fork] at hfork
  split_ifs at hfork with hcan
  obtain rfl := Except.ok.inj hfork
  obtain ⟨-, hnp, -, hempty⟩ := hcan
  have hphase : s.phase np = .user := by rw [phase, Place.eq_user_of_isUser hnp]; rfl
  refine Lives.of_ref h (fun w ↦ ?_) (fun u w hu ↦ ?_) fun w ↦ ?_
  · have hsum := sum_update (fun u ↦ s.ofile u w) np (s.ofile t w)
    have hterm : ∀ u, Function.update s.ofile np (s.ofile t) u w =
        Function.update (fun u ↦ s.ofile u w) np (s.ofile t w) u := by
      intro u
      rw [Function.update_apply, Function.update_apply]
      split_ifs <;> rfl
    show s.ref w + s.ofile t w = ∑ u, Function.update s.ofile np (s.ofile t) u w
    rw [hempty w, Nat.add_zero] at hsum
    rw [sum_congr rfl fun u _ ↦ hterm u, h.ref_eq w]
    exact hsum.symm
  · have hne : u ≠ np := by
      rintro rfl
      cases hphase.symm.trans hu
    show 0 < Function.update s.ofile np (s.ofile t) u w
    rw [Function.update_of_ne hne]
    exact h.held u w hu
  · show s.ref w + s.ofile t w = 0 ↔ s.ref w = 0
    have hle : s.ofile t w ≤ s.ref w := by
      rw [h.ref_eq w]
      exact single_le_sum (f := fun t ↦ s.ofile t w) (fun _ _ ↦ Nat.zero_le _) (mem_univ t)
    constructor
    · exact fun hz ↦ (Nat.add_eq_zero_iff.1 hz).1
    · intro hz
      omega

/-- What `fileclose` does to the counts. -/
theorem Alive.ref_close (h : s.Alive) (ht : 0 < s.ofile t w) (v : Bool) :
    Function.update s.ref w (s.ref w - 1) v = ∑ u, s.setOfile t w (s.ofile t w - 1) u v := by
  have hsum := sum_setOfile (s := s) (t := t) (w := w) (s.ofile t w - 1) v
  have hpos := Lives.ref_pos h ht
  rw [← h.ref_eq v] at hsum
  rw [Function.update_apply]
  split_ifs at hsum ⊢ with heq
  · subst heq
    omega
  · omega

/-- The last `fileclose` of an end. -/
theorem Alive.closeLast (h : s.Alive) (ht : s.phase t = .user) (hheld : 0 < s.ofile t w)
    (hlast : s.ref w - 1 = 0) :
    Lives s.pipe (Function.update s.ref w (s.ref w - 1)) (s.setOfile t w (s.ofile t w - 1))
      (Function.update s.phase t (.closing w)) := by
  have hopen := Lives.isOpen_of_held h hheld
  have hpos := Lives.ref_pos h hheld
  -- two that close, close different ends
  have hother : ∀ {u v}, Function.update s.phase t (.closing w) u = .closing v →
      u = t ∧ v = w ∨ u ≠ t ∧ v ≠ w ∧ s.phase u = .closing v := by
    intro u v hu
    rcases eq_or_ne u t with rfl | hne
    · rw [Function.update_self] at hu
      exact .inl ⟨rfl, (Phase.closing.inj hu).symm⟩
    · rw [Function.update_of_ne hne] at hu
      refine .inr ⟨hne, ?_, hu⟩
      rintro rfl
      exact hpos.ne' (h.closing u v hu).1
  refine ⟨h.ref_close hheld, fun u v hu ↦ ?_, fun v hv ↦ ?_, fun u v hu ↦ ?_, fun u v x hu hv ↦ ?_,
    fun v hv hz ↦ ?_, fun v hv ↦ ?_, fun hall ↦ ?_⟩
  · obtain ⟨hne, hu⟩ := Lives.of_update hu nofun
    exact setOfile_pos ht hu (h.held u v hu) w
  · rcases eq_or_ne v w with rfl | hne
    · exact hopen
    · rw [Function.update_of_ne hne] at hv
      exact h.isOpen v hv
  · rcases hother hu with ⟨-, rfl⟩ | ⟨-, hne, hu⟩
    · rw [Function.update_self]
      exact ⟨hlast, hopen⟩
    · rw [Function.update_of_ne hne]
      exact h.closing u v hu
  · rcases hother hu with ⟨rfl, rfl⟩ | ⟨-, hx, hu⟩
    · rcases hother hv with ⟨rfl, -⟩ | ⟨-, hne, -⟩
      · rfl
      · exact absurd rfl hne
    · rcases hother hv with ⟨-, rfl⟩ | ⟨-, -, hv⟩
      · exact absurd rfl hx
      · exact h.unique u v x hu hv
  · rcases eq_or_ne v w with rfl | hne
    · exact ⟨t, Function.update_self ..⟩
    · rw [Function.update_of_ne hne] at hz
      obtain ⟨u, hu⟩ := h.exists_closing v hv hz
      have hut : u ≠ t := by
        rintro rfl
        rw [ht] at hu
        cases hu
      exact ⟨u, (Function.update_of_ne hut ..).trans hu⟩
  · exact ⟨(h.unended v hv).1, fun u hu ↦ (h.unended v hv).2 u (Lives.of_update hu nofun).2⟩
  · rw [hall w] at hopen
    cases hopen

/-- `fileclose`. -/
theorem Alive.close (h : s.Alive) (hclose : s.close t w = .ok s') : s'.Alive := by
  rw [State.close] at hclose
  split_ifs at hclose with hcan hlast
  · obtain rfl := Except.ok.inj hclose
    have ht : s.phase t = .user := by rw [phase, Place.eq_user_of_isUser hcan.1]; rfl
    refine Lives.of_ref h (h.ref_close hcan.2)
      (fun u v hu ↦ setOfile_pos ht hu (h.held u v hu) w) fun v ↦ ?_
    show Function.update s.ref w (s.ref w - 1) v = 0 ↔ s.ref v = 0
    rw [Function.update_apply]
    split_ifs with heq
    · subst heq
      constructor
      · exact fun hz ↦ absurd hz hlast.ne'
      · intro hz
        omega
    · exact Iff.rfl
  · obtain rfl := Except.ok.inj hclose
    have ht : s.phase t = .user := by rw [phase, Place.eq_user_of_isUser hcan.1]; rfl
    show Lives s.pipe (Function.update s.ref w (s.ref w - 1)) (s.setOfile t w (s.ofile t w - 1))
      (fun u ↦ (Function.update s.place t (.close .acquire w) u).phase)
    rw [phase_update]
    exact h.closeLast ht hcan.2 (by omega)

/-- A call on an end that the process has. -/
theorem Alive.call (h : s.Alive) (hcall : s.call t w l = .ok s') (hl : l.phase = .inCall w) :
    s'.Alive := by
  rw [State.call] at hcall
  split_ifs at hcall with hcan
  obtain rfl := Except.ok.inj hcall
  have ht : s.phase t = .user := by rw [phase, Place.eq_user_of_isUser hcan.1]; rfl
  have hopen := Lives.isOpen_of_held h hcan.2
  show Lives s.pipe s.ref s.ofile (fun u ↦ (Function.update s.place t l u).phase)
  rw [phase_update, hl]
  refine ⟨h.ref_eq, fun u v hu ↦ ?_, h.isOpen,
    fun u v hu ↦ h.closing u v (Lives.of_update hu Phase.inCall_ne_closing).2,
    fun u v x hu hv ↦ h.unique u v x (Lives.of_update hu Phase.inCall_ne_closing).2
      (Lives.of_update hv Phase.inCall_ne_closing).2,
    fun v hv hz ↦ ?_, fun v hv ↦ ⟨(h.unended v hv).1, fun u hu ↦ ?_⟩, fun hall ↦ ?_⟩
  · rcases eq_or_ne u t with rfl | hne
    · rw [Function.update_self] at hu
      obtain rfl := Phase.inCall.inj hu
      exact hcan.2
    · rw [Function.update_of_ne hne] at hu
      exact h.held u v hu
  · obtain ⟨u, hu⟩ := h.exists_closing v hv hz
    have hne : u ≠ t := by
      rintro rfl
      rw [ht] at hu
      cases hu
    exact ⟨u, (Function.update_of_ne hne ..).trans hu⟩
  · exact (h.unended v hv).2 u (Lives.of_update hu Phase.inCall_ne_freeing).2
  · rw [hall w] at hopen
    cases hopen

/-- **Every step keeps the files, the pipe and the processes fitting.** -/
theorem Alive.step (h : s.Alive) (hinv : s.Inv queue) (hstep : s.step a = .ok s') : s'.Alive := by
  cases a with
  | write t addr n => exact h.call hstep rfl
  | read t n => exact h.call hstep rfl
  | dup t w => exact h.dup hstep
  | fork t np => exact h.fork hstep
  | close t w => exact h.close hstep
  | run t => exact h.run hinv hstep
  | kill t =>
    obtain rfl := Except.ok.inj hstep
    exact h

theorem alive_of_starts (h : s.Starts) : s.Alive := by
  obtain ⟨-, -, hread, hwrite, -, -, hfreed, -, hplace, href, t, hofile⟩ := h
  have hopen : ∀ w, s.pipe.isOpen w = true := by
    intro w
    cases w
    · exact hread
    · exact hwrite
  have hphase : ∀ u, s.phase u = .user := by
    intro u
    rw [phase, hplace u]
    rfl
  have hno : ∀ {u f} {P : Prop}, f ≠ .user → s.phase u = f → P :=
    fun hf hu ↦ absurd (hu.symm.trans (hphase _)) hf
  rw [Alive]
  refine ⟨fun w ↦ ?_, fun u w ↦ hno nofun, fun w _ ↦ hopen w, fun u w ↦ hno nofun,
    fun u v w ↦ hno nofun, fun w _ hz ↦ ?_, fun w _ ↦ ⟨hfreed, fun u ↦ hno nofun⟩, fun hall ↦ ?_⟩
  · rw [href w, sum_congr rfl fun u _ ↦ hofile u w, sum_ite_eq' univ t, if_pos (mem_univ t)]
  · rw [href w] at hz
    cases hz
  · cases (hopen true).symm.trans (hall true)

theorem alive_of_reachable (h : (system τ).Reachable s) : s.Alive :=
  (h.invariant (I := fun s ↦ s.Alive ∧ ∃ queue, s.Inv queue)
    (fun _ h ↦ ⟨alive_of_starts h, [], inv_of_starts h⟩)
    fun _ _ _ ⟨h, _, hinv⟩ hstep ↦ ⟨h.step hinv hstep, hinv.step hstep⟩).1

/-! ### What holds of the page -/

/-- The page of the pipe is freed when nobody needs it any more, and not later. -/
structure LifetimeOk (s : State τ) : Prop where
  /-- The page is not freed twice. -/
  once : s.pipe.freed ≤ 1
  /-- Nobody has a descriptor of the freed pipe or is in a call on it. -/
  gone : s.pipe.freed = 1 → ∀ t, s.place t = .user ∧ ∀ w, s.ofile t w = 0
  /-- The flag of an end is cleared only when nobody has a descriptor of it or is in a call on
  it. -/
  closed : ∀ w, s.pipe.isOpen w = false → ∀ t, s.ofile t w = 0 ∧ s.phase t ≠ .inCall w
  /-- When nobody has a descriptor and everybody is done, the page has been freed. -/
  kept : (∀ t, s.place t = .user) → (∀ t w, s.ofile t w = 0) → s.pipe.freed = 1

omit [DecidableEq τ] in
theorem Alive.lifetimeOk (h : s.Alive) : s.LifetimeOk := by
  have huser : ∀ {t}, s.phase t = .user → s.place t = .user := by
    intro t ht
    rw [phase] at ht
    generalize s.place t = l at ht
    cases l with
    | user => rfl
    | close l w => cases l <;> cases ht
    | _ => cases ht
  -- a freed page has both ends closed
  have hclosed : s.pipe.freed ≠ 0 → ∀ w, s.pipe.isOpen w = false := by
    intro hfreed w
    rw [← Bool.not_eq_true]
    exact fun hw ↦ hfreed (h.unended w hw).1
  have hended : s.pipe.freed ≠ 0 → s.pipe.freed = 1 ∧ ∀ t, s.phase t = .user := by
    intro hfreed
    rcases h.ended (hclosed hfreed) with ⟨hzero, -⟩ | hone
    · exact absurd hzero hfreed
    · exact hone
  refine ⟨?_, fun hone t ↦ ?_, fun w hw t ↦ ⟨Lives.ofile_eq_zero h hw t, Lives.not_inCall h hw t⟩,
    fun hplace hofile ↦ ?_⟩
  · by_cases hfreed : s.pipe.freed = 0
    · omega
    · exact (hended hfreed).1.le
  · have hne : s.pipe.freed ≠ 0 := by omega
    exact ⟨huser ((hended hne).2 t), fun w ↦ Lives.ofile_eq_zero h (hclosed hne w) t⟩
  · have hphase : ∀ t, s.phase t = .user := by
      intro t
      rw [phase, hplace t]
      rfl
    have hall : ∀ w, s.pipe.isOpen w = false := by
      intro w
      rw [← Bool.not_eq_true]
      intro hw
      have hzero : s.ref w = 0 := by
        rw [h.ref_eq w]
        exact sum_eq_zero fun t _ ↦ hofile t w
      obtain ⟨t, ht⟩ := h.exists_closing w hw hzero
      cases (hphase t).symm.trans ht
    rcases h.ended hall with ⟨-, t, ht, -⟩ | ⟨hone, -⟩
    · rcases ht with ht | ht <;> cases (hphase t).symm.trans ht
    · exact hone

/-- **A pipe is freed exactly when it is no longer needed**, in every order of steps: not twice, not
under anybody's hands, and not never. -/
theorem lifetimeOk_of_reachable (h : (system τ).Reachable s) : s.LifetimeOk :=
  (alive_of_reachable h).lifetimeOk

/-- Both ends are closed, by two processes at the same time. -/
def closedByBoth : List (Act Bool) :=
  [.fork false true, .close false false, .close true true, .close false true] ++
    List.replicate 3 (.run false) ++ [.close true false] ++ List.replicate 2 (.run false) ++
    List.replicate 6 (.run true)

/-- The pipe after both ends are closed. -/
theorem closedByBoth_lifetimeOk : ∃ s : State Bool, s.pipe.freed = 1 ∧ s.LifetimeOk := by
  obtain ⟨s, hs, hfreed⟩ := System.Reachable.exists_of_run (S := system Bool)
    (f := State.step) (fun _ _ _ h ↦ h) (l := closedByBoth)
    (p := fun s ↦ decide (s.pipe.freed = 1)) (.init fresh_starts) (by decide)
  exact ⟨s, of_decide_eq_true hfreed, lifetimeOk_of_reachable hs⟩

end State

end Pipes
