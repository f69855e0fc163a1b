import Cs537OS.SharedMemory.Client
import Mathlib.Data.Set.Subsingleton
import Mathlib.Tactic.SplitIfs

/-!
# Who owns a slot

A client owns the slots that carry its process id. A step of a client changes a `pid` field only by
claiming a free slot or by freeing one of its own (`PidStep`), and live clients have different ids,
so the set of slots of a client is changed by its own steps alone (`PidStep.owned_eq`). That is why
the update needs no mutex: what it has found out about its slot stays true.

What a client knows is of two kinds:

* about the slots it owns (`Place.Own`), which nobody else can make false;
* about the free slots (`Place.Free`), which is true only as long as it has the mutex.

`Inv` puts them together with the mutex, `inv_of_reachable` says that they hold in every reachable
state.
-/

namespace SharedMemory

namespace Place

/-- What a client knows of the slots it owns. -/
def Own (owned : Set ℕ) : Place → Prop
  | lock | scan _ | take _ | fail | hsec _ | hmsec _ | hbirth _ | hname _ | hunlock | hexit =>
    owned = ∅
  | name i | born i | sec i | msec i | hpid i => owned = {i}
  | unlock | sigint | sigterm | idle => ∃ i, owned = {i}
  | update k => 1 ≤ k ∧ ∃ i, owned = {i}
  | hlock | stuck => owned.Subsingleton
  | hscan k => 1 ≤ k ∧ owned.Subsingleton ∧ ∀ i ∈ owned, k ≤ i
  | absent | gone => True

/-- What a client knows of the free slots. -/
def Free (free : Set ℕ) : Place → Prop
  | scan k => 1 ≤ k ∧ ∀ i ∈ free, k ≤ i
  | take k | hsec k | hmsec k | hbirth k | hname k => k ∈ free
  | fail => free = ∅
  | _ => True

variable {l : Place} {owned free : Set ℕ}

theorem free_of_not_inside (h : l.inside = false) : l.Free free := by
  cases l <;> trivial

theorem exists_of_own (hown : l.Own owned) (h : l.claimed = true) : ∃ i, owned = {i} := by
  cases l <;> first | exact ⟨_, hown⟩ | exact hown | exact hown.2 | cases h

theorem live_of_claimed (h : l.claimed = true) : l.live = true := by
  cases l with
  | name | born | unlock | sigint | sigterm | idle | update | sec | msec => rfl
  | _ => cases h

/-- A client never owns more than one slot. -/
theorem subsingleton_of_own (hown : l.Own owned) (h : l.live = true) : owned.Subsingleton := by
  rcases hclaimed : l.claimed with _ | _
  · cases l with
    | lock | scan | take | fail | hsec | hmsec | hbirth | hname | hunlock | hexit =>
      have hown : owned = ∅ := hown
      rw [hown]
      exact Set.subsingleton_empty
    | hpid k =>
      have hown : owned = {k} := hown
      rw [hown]
      exact Set.subsingleton_singleton
    | hlock | stuck => exact hown
    | hscan k => exact hown.2.1
    | absent | gone => cases h
    | name | born | unlock | sigint | sigterm | idle | update | sec | msec => cases hclaimed
  · obtain ⟨i, rfl⟩ := exists_of_own hown hclaimed
    exact Set.subsingleton_singleton

theorem own_of_not_live (h : l.live = false) : l.Own owned := by
  cases l with
  | absent | gone => trivial
  | _ => cases h

/-- The handler is entered with or without the mutex. -/
theorem handled_cases {l' : Place} (h : l.handled = some l') :
    l.live = true ∧ l'.inside = l.inside ∧ (l' = hlock ∨ l' = stuck) := by
  cases l with
  | sigterm | idle | update | sec | msec | hlock | hexit =>
    obtain rfl : hlock = l' := Option.some.inj h
    exact ⟨rfl, rfl, .inl rfl⟩
  | hscan | hpid | hsec | hmsec | hbirth | hname | hunlock | stuck =>
    obtain rfl : stuck = l' := Option.some.inj h
    exact ⟨rfl, rfl, .inr rfl⟩
  | _ => cases h

end Place

namespace Clients

variable {κ : Type*} {s t : Clients κ} {pagesize : ℕ} {c d : κ} {i k : ℕ} {l₀ l : Place}

/-- The slots of the page. -/
def slots (pagesize : ℕ) : Set ℕ := {i | 1 ≤ i ∧ i ≤ maxClient pagesize}

/-- The slots with the process id of the client. -/
def owned (s : Clients κ) (pagesize : ℕ) (c : κ) : Set ℕ :=
  {i | i ∈ slots pagesize ∧ pidAt s.mem i = s.pid c}

/-- The slots that nobody has. -/
def free (s : Clients κ) (pagesize : ℕ) : Set ℕ := {i | i ∈ slots pagesize ∧ pidAt s.mem i = -1}

/-- The clients and the page fit together. -/
structure Inv (s : Clients κ) (pagesize : ℕ) : Prop where
  obeys : Obeys Place.inside (fun _ ↦ none) s.place s.mutex
  distinct : ∀ c d, (s.place c).live = true → (s.place d).live = true → s.pid c = s.pid d → c = d
  pid_pos : ∀ c, (s.place c).live = true → 0 < s.pid c
  pid_lt : ∀ c, (s.place c).live = true → s.pid c < 2 ^ 31
  /-- The string fits into its field, with the NUL that closes it. -/
  name_le : ∀ c, (s.place c).live = true → (s.name c).length ≤ 9
  /-- A slot is free or has an owner. -/
  held : ∀ i ∈ slots pagesize,
    pidAt s.mem i = -1 ∨ ∃ c, (s.place c).live = true ∧ pidAt s.mem i = s.pid c
  own : ∀ c, (s.place c).Own (s.owned pagesize c)
  free : ∀ c, (s.place c).Free (s.free pagesize)

theorem Inv.subsingleton (h : s.Inv pagesize) (hc : (s.place c).live = true) :
    (s.owned pagesize c).Subsingleton :=
  Place.subsingleton_of_own (h.own c) hc

/-- What a step of `c` may do to the `pid` fields. -/
def PidStep (s t : Clients κ) (pagesize : ℕ) (c : κ) : Prop :=
  ∀ i ∈ slots pagesize, pidAt t.mem i = pidAt s.mem i ∨
    (pidAt s.mem i = -1 ∧ pidAt t.mem i = s.pid c) ∨
    (pidAt s.mem i = s.pid c ∧ pidAt t.mem i = -1)

/-- **Ownership is stable**: the step of one client does not change what another one owns. -/
theorem PidStep.owned_eq (h : PidStep s t pagesize c) (hpid : t.pid d = s.pid d)
    (hne : s.pid d ≠ s.pid c) (hpos : 0 < s.pid d) : t.owned pagesize d = s.owned pagesize d := by
  refine Set.ext fun i ↦ and_congr_right fun hi ↦ ?_
  rw [hpid]
  rcases h i hi with heq | ⟨hs, ht⟩ | ⟨hs, ht⟩
  · rw [heq]
  · rw [hs, ht]
    exact ⟨fun h ↦ absurd h.symm hne, fun h ↦ by omega⟩
  · rw [hs, ht]
    exact ⟨fun h ↦ by omega, fun h ↦ absurd h.symm hne⟩

/-- What the client knows where it stands. -/
theorem Inv.own_at (h : s.Inv pagesize) (hl : s.place c = l₀) : l₀.Own (s.owned pagesize c) :=
  hl ▸ h.own c

theorem Inv.free_at (h : s.Inv pagesize) (hl : s.place c = l₀) : l₀.Free (s.free pagesize) :=
  hl ▸ h.free c

section Step

variable [DecidableEq κ]

/-- A step of a live client, from what it does to the page and to the mutex. -/
theorem Inv.move (h : s.Inv pagesize) (hl : s.place c = l₀) (hc : l₀.live = true)
    (hplace : t.place = Function.update s.place c l) (hpid : t.pid = s.pid)
    (hname : t.name = s.name)
    (hobeys : Obeys Place.inside (fun _ ↦ none) (Function.update s.place c l) t.mutex)
    (hstep : PidStep s t pagesize c)
    (halone : l₀.inside = true ∨ ∀ i ∈ slots pagesize, pidAt t.mem i = pidAt s.mem i)
    (hlive : l.live = true ∨ t.owned pagesize c = ∅) (hown : l.Own (t.owned pagesize c))
    (hfree : l.Free (t.free pagesize)) : t.Inv pagesize := by
  have hc : (s.place c).live = true := hl ▸ hc
  have hlive_of : ∀ d, (t.place d).live = true → (s.place d).live = true := by
    intro d hd
    rcases eq_or_ne d c with rfl | hne
    · exact hc
    · rwa [hplace, Function.update_of_ne hne] at hd
  refine ⟨hplace ▸ hobeys, fun d e hd he heq ↦ ?_, fun d hd ↦ ?_, fun d hd ↦ ?_, fun d hd ↦ ?_,
    fun i hi ↦ ?_, fun d ↦ ?_, fun d ↦ ?_⟩
  · rw [hpid] at heq
    exact h.distinct d e (hlive_of d hd) (hlive_of e he) heq
  · rw [hpid]
    exact h.pid_pos d (hlive_of d hd)
  · rw [hpid]
    exact h.pid_lt d (hlive_of d hd)
  · rw [hname]
    exact h.name_le d (hlive_of d hd)
  · -- the owner of a slot is still there, since a client that leaves owns none
    have hstill : ∀ d, (s.place d).live = true → pidAt t.mem i = s.pid d →
        pidAt t.mem i = -1 ∨ ∃ d, (t.place d).live = true ∧ pidAt t.mem i = t.pid d := by
      intro d hd hi'
      rcases eq_or_ne d c with rfl | hne
      · rcases hlive with hl | hnone
        · refine .inr ⟨d, ?_, by rw [hpid, hi']⟩
          rw [hplace, Function.update_self]
          exact hl
        · have hmem : i ∈ t.owned pagesize d := ⟨hi, by rw [hpid, hi']⟩
          rw [hnone] at hmem
          exact absurd hmem (Set.notMem_empty i)
      · refine .inr ⟨d, ?_, by rw [hpid, hi']⟩
        rw [hplace, Function.update_of_ne hne]
        exact hd
    rcases hstep i hi with heq | ⟨-, ht⟩ | ⟨-, ht⟩
    · rcases h.held i hi with hnone | ⟨d, hd, hi'⟩
      · exact .inl (heq.trans hnone)
      · exact hstill d hd (heq.trans hi')
    · exact hstill c hc ht
    · exact .inl ht
  · rcases eq_or_ne d c with rfl | hne
    · rw [hplace, Function.update_self]
      exact hown
    · rw [hplace, Function.update_of_ne hne]
      rcases hd : (s.place d).live with _ | _
      · exact Place.own_of_not_live hd
      · rw [hstep.owned_eq (by rw [hpid]) (fun heq ↦ hne (h.distinct d c hd hc heq))
          (h.pid_pos d hd)]
        exact h.own d
  · rcases eq_or_ne d c with rfl | hne
    · rw [hplace, Function.update_self]
      exact hfree
    · rw [hplace, Function.update_of_ne hne]
      rcases halone with hin | hsame
      · -- only one client has the mutex
        refine Place.free_of_not_inside ?_
        rw [← Bool.not_eq_true]
        exact fun hd ↦ hne (h.obeys.unique hd (hl ▸ hin))
      · have heq : t.free pagesize = s.free pagesize :=
          Set.ext fun i ↦ and_congr_right fun hi ↦ by rw [hsame i hi]
        rw [heq]
        exact h.free d

/-- A step that leaves the `pid` fields alone. -/
theorem Inv.quiet (h : s.Inv pagesize) (hl : s.place c = l₀) (hc : l₀.live = true)
    (hplace : t.place = Function.update s.place c l) (hpid : t.pid = s.pid)
    (hname : t.name = s.name)
    (hobeys : Obeys Place.inside (fun _ ↦ none) (Function.update s.place c l) t.mutex)
    (hsame : ∀ i, pidAt t.mem i = pidAt s.mem i)
    (hlive : l.live = true ∨ s.owned pagesize c = ∅) (hown : l.Own (s.owned pagesize c))
    (hfree : l.Free (s.free pagesize)) : t.Inv pagesize := by
  have howned : t.owned pagesize c = s.owned pagesize c :=
    Set.ext fun i ↦ and_congr_right fun _ ↦ by rw [hsame, hpid]
  have hfree_eq : t.free pagesize = s.free pagesize :=
    Set.ext fun i ↦ and_congr_right fun _ ↦ by rw [hsame]
  exact h.move hl hc hplace hpid hname hobeys (fun i _ ↦ .inl (hsame i))
    (.inr fun i _ ↦ hsame i) (howned.symm ▸ hlive) (howned.symm ▸ hown) (hfree_eq.symm ▸ hfree)

/-- The client goes on between places of the same kind. -/
theorem Inv.goto (h : s.Inv pagesize) (hl : s.place c = l₀) (hc : l₀.live = true)
    (hin : l.inside = l₀.inside) (hlive : l.live = true ∨ s.owned pagesize c = ∅)
    (hown : l.Own (s.owned pagesize c)) (hfree : l.Free (s.free pagesize)) :
    (s.goto c l).Inv pagesize :=
  h.quiet hl hc rfl rfl rfl (h.obeys.stay (hl.symm ▸ hin) (h.obeys.awake rfl)) (fun _ ↦ rfl) hlive
    hown hfree

/-- The client assigns to a field other than `pid` and goes on. -/
theorem Inv.assign {f : Field} {vals : List UInt8} (h : s.Inv pagesize) (hl : s.place c = l₀)
    (hc : l₀.live = true) (hf : f ≠ .pid) (hlen : vals.length ≤ f.size)
    (hin : l.inside = l₀.inside) (hlive : l.live = true) (hown : l.Own (s.owned pagesize c))
    (hfree : l.Free (s.free pagesize)) : (s.assign c l (store k f vals)).Inv pagesize :=
  h.quiet hl hc rfl rfl rfl (h.obeys.stay (hl.symm ▸ hin) (h.obeys.awake rfl))
    (fun _ ↦ pidAt_store_of_ne hf hlen) (.inl hlive) hown hfree

theorem Inv.acquire (h : s.Inv pagesize) (hl : s.place c = l₀) (hc : l₀.live = true)
    (ht : s.acquire c l = .ok t) (hin : l.inside = true) (hlive : l.live = true)
    (hown : l.Own (s.owned pagesize c)) (hfree : l.Free (s.free pagesize)) : t.Inv pagesize := by
  rw [Clients.acquire] at ht
  split_ifs at ht with hcan
  obtain rfl := Except.ok.inj ht
  exact h.quiet hl hc rfl rfl rfl (h.obeys.lock hcan hin) (fun _ ↦ rfl) (.inl hlive) hown hfree

theorem Inv.release (h : s.Inv pagesize) (hl : s.place c = l₀) (hc : l₀.live = true)
    (hin : l₀.inside = true) (hout : l.inside = false)
    (hlive : l.live = true ∨ s.owned pagesize c = ∅) (hown : l.Own (s.owned pagesize c))
    (hfree : l.Free (s.free pagesize)) : (s.release c l).Inv pagesize :=
  h.quiet hl hc rfl rfl rfl (h.obeys.unlock (hl.symm ▸ hin) (h.obeys.awake rfl) hout)
    (fun _ ↦ rfl) hlive hown hfree

/-- The client assigns to the `pid` field of slot `k`, which was free or its own, and goes on. -/
theorem Inv.assignPid {v : ℤ} (h : s.Inv pagesize) (hl : s.place c = l₀) (hc : l₀.live = true)
    (hinside : l₀.inside = true) (hin : l.inside = true) (hlive : l.live = true)
    (hlow : -2 ^ 31 ≤ v) (hhigh : v < 2 ^ 31)
    (hk : pidAt s.mem k = -1 ∧ v = s.pid c ∨ pidAt s.mem k = s.pid c ∧ v = -1)
    (hown : ∀ t : Clients κ, t.pid = s.pid → pidAt t.mem k = v →
      (∀ i, i ≠ k → pidAt t.mem i = pidAt s.mem i) →
      l.Own (t.owned pagesize c) ∧ l.Free (t.free pagesize)) :
    (s.assign c l (store k .pid (intBytes v))).Inv pagesize := by
  have hself : pidAt (s.assign c l (store k .pid (intBytes v))).mem k = v :=
    pidAt_store_self hlow hhigh
  have hother : ∀ i, i ≠ k →
      pidAt (s.assign c l (store k .pid (intBytes v))).mem i = pidAt s.mem i :=
    fun i hne ↦ pidAt_store_of_slot_ne (Nat.le_refl _) hne
  obtain ⟨hown, hfree⟩ := hown (s.assign c l (store k .pid (intBytes v))) rfl hself hother
  refine h.move hl hc rfl rfl rfl
    (h.obeys.stay (hin.trans (hl.symm ▸ hinside.symm)) (h.obeys.awake rfl)) (fun i _ ↦ ?_)
    (.inl hinside) (.inl hlive) hown hfree
  rcases eq_or_ne i k with rfl | hne
  · rw [hself]
    rcases hk with ⟨hs, rfl⟩ | ⟨hs, rfl⟩
    · exact .inr (.inl ⟨hs, rfl⟩)
    · exact .inr (.inr ⟨hs, rfl⟩)
  · exact .inl (hother i hne)

/-! ### The statements -/

/-- `pid=getpid()` in the claim loop. -/
theorem Inv.take (h : s.Inv pagesize) (hl : s.place c = .take k) :
    (s.assign c (.name k) (store k .pid (intBytes (s.pid c)))).Inv pagesize := by
  have hc : (s.place c).live = true := by rw [hl]; rfl
  have hown : s.owned pagesize c = ∅ := h.own_at hl
  obtain ⟨hk, hnone⟩ : k ∈ s.free pagesize := h.free_at hl
  have hpos := h.pid_pos c hc
  refine h.assignPid hl rfl rfl rfl rfl (by omega) (h.pid_lt c hc) (.inl ⟨hnone, rfl⟩)
    fun t hpid hself hother ↦ ⟨Set.ext fun i ↦ ⟨fun ⟨hi, hmine⟩ ↦ ?_, fun hi ↦ ?_⟩, trivial⟩
  · by_contra hne
    rw [hother i hne, hpid] at hmine
    have hmem : i ∈ s.owned pagesize c := ⟨hi, hmine⟩
    rw [hown] at hmem
    exact hmem
  · obtain rfl : i = k := hi
    exact ⟨hk, by rw [hself, hpid]⟩

/-- `pid=-1` in `exit_handler`. -/
theorem Inv.giveBack (h : s.Inv pagesize) (hl : s.place c = .hpid k) :
    (s.assign c (.hsec k) (store k .pid (intBytes (-1)))).Inv pagesize := by
  have hown : s.owned pagesize c = {k} := h.own_at hl
  obtain ⟨hk, hmine⟩ : k ∈ s.owned pagesize c := by rw [hown]; rfl
  have hpos := h.pid_pos c (by rw [hl]; rfl)
  refine h.assignPid hl rfl rfl rfl rfl (by decide) (by decide) (.inr ⟨hmine, rfl⟩)
    fun t hpid hself hother ↦ ⟨Set.eq_empty_of_forall_notMem fun i ⟨hi, hmem⟩ ↦ ?_, hk, hself⟩
  rw [hpid] at hmem
  rcases eq_or_ne i k with rfl | hne
  · omega
  · rw [hother i hne] at hmem
    have hmem : i ∈ s.owned pagesize c := ⟨hi, hmem⟩
    rw [hown] at hmem
    exact hne hmem

/-- The claim loop. -/
theorem Inv.scan (h : s.Inv pagesize) (hl : s.place c = .scan k)
    (ht : s.runStep pagesize c = .ok t) : t.Inv pagesize := by
  have hown : s.owned pagesize c = ∅ := h.own_at hl
  obtain ⟨hk, hge⟩ : 1 ≤ k ∧ ∀ i ∈ s.free pagesize, k ≤ i := h.free_at hl
  simp only [Clients.runStep, hl] at ht
  split_ifs at ht with hmax hnone <;> obtain rfl := Except.ok.inj ht
  · -- all slots have been looked at
    refine h.goto hl rfl rfl (.inl rfl) hown (Set.eq_empty_of_forall_notMem fun i hi ↦ ?_)
    have hki := hge i hi
    exact absurd hi.1.2 (by omega)
  · exact h.goto hl rfl rfl (.inl rfl) hown ⟨⟨hk, Nat.le_of_not_lt hmax⟩, hnone⟩
  · refine h.goto hl rfl rfl (.inl rfl) hown ⟨Nat.le_succ_of_le hk, fun i hi ↦ ?_⟩
    refine Nat.lt_of_le_of_ne (hge i hi) fun heq ↦ hnone ?_
    rw [heq]
    exact hi.2

/-- The update loop, which runs without the mutex. -/
theorem Inv.update (h : s.Inv pagesize) (hl : s.place c = .update k)
    (ht : s.runStep pagesize c = .ok t) : t.Inv pagesize := by
  obtain ⟨hk, i, hi⟩ : 1 ≤ k ∧ ∃ i, s.owned pagesize c = {i} := h.own_at hl
  simp only [Clients.runStep, hl] at ht
  split_ifs at ht with hmax hmine <;> obtain rfl := Except.ok.inj ht
  · exact h.goto hl rfl rfl (.inl rfl) ⟨i, hi⟩ trivial
  · have hmem : k ∈ s.owned pagesize c := ⟨⟨hk, Nat.le_of_not_lt hmax⟩, hmine⟩
    have hown : s.owned pagesize c = {k} :=
      (h.subsingleton (by rw [hl]; rfl)).eq_singleton_of_mem hmem
    exact h.goto hl rfl rfl (.inl rfl) hown trivial
  · exact h.goto hl rfl rfl (.inl rfl) ⟨Nat.le_succ_of_le hk, i, hi⟩ trivial

/-- The loop of `exit_handler`. -/
theorem Inv.hscan (h : s.Inv pagesize) (hl : s.place c = .hscan k)
    (ht : s.runStep pagesize c = .ok t) : t.Inv pagesize := by
  obtain ⟨hk, hsub, hge⟩ : 1 ≤ k ∧ (s.owned pagesize c).Subsingleton ∧
    ∀ i ∈ s.owned pagesize c, k ≤ i := h.own_at hl
  simp only [Clients.runStep, hl] at ht
  split_ifs at ht with hmax hmine <;> obtain rfl := Except.ok.inj ht
  · refine h.goto hl rfl rfl (.inl rfl) (Set.eq_empty_of_forall_notMem fun i hi ↦ ?_) trivial
    have hki := hge i hi
    exact absurd hi.1.2 (by omega)
  · exact h.goto hl rfl rfl (.inl rfl)
      (hsub.eq_singleton_of_mem ⟨⟨hk, Nat.le_of_not_lt hmax⟩, hmine⟩) trivial
  · refine h.goto hl rfl rfl (.inl rfl) ⟨Nat.le_succ_of_le hk, hsub, fun i hi ↦ ?_⟩ trivial
    refine Nat.lt_of_le_of_ne (hge i hi) fun heq ↦ hmine ?_
    rw [heq]
    exact hi.2

/-- A statement of a client. -/
theorem Inv.runStep (h : s.Inv pagesize) (ht : s.runStep pagesize c = .ok t) :
    t.Inv pagesize := by
  cases hl : s.place c with
  | scan k => exact h.scan hl ht
  | update k => exact h.update hl ht
  | hscan k => exact h.hscan hl ht
  | lock =>
    simp only [Clients.runStep, hl] at ht
    have hown := h.own_at hl
    exact h.acquire hl rfl ht rfl rfl hown ⟨Nat.le_refl _, fun i hi ↦ hi.1.1⟩
  | hlock =>
    simp only [Clients.runStep, hl] at ht
    have hown := h.own_at hl
    exact h.acquire hl rfl ht rfl rfl ⟨Nat.le_refl _, hown, fun i hi ↦ hi.1.1⟩ trivial
  | absent | born | sec | msec | stuck | gone =>
    simp only [Clients.runStep, hl] at ht
    cases ht
  | take k =>
    simp only [Clients.runStep, hl] at ht
    obtain rfl := Except.ok.inj ht
    exact h.take hl
  | hpid k =>
    simp only [Clients.runStep, hl] at ht
    obtain rfl := Except.ok.inj ht
    exact h.giveBack hl
  | name k =>
    simp only [Clients.runStep, hl] at ht
    obtain rfl := Except.ok.inj ht
    have hname := h.name_le c (by rw [hl]; rfl)
    have hown := h.own_at hl
    refine h.assign hl rfl nofun ?_ rfl rfl hown trivial
    rw [List.length_append]
    exact Nat.succ_le_succ hname
  | hsec | hmsec | hbirth =>
    simp only [Clients.runStep, hl] at ht
    obtain rfl := Except.ok.inj ht
    have hown := h.own_at hl
    have hfree := h.free_at hl
    exact h.assign hl rfl nofun (Nat.le_refl _) rfl rfl hown hfree
  | hname =>
    simp only [Clients.runStep, hl] at ht
    obtain rfl := Except.ok.inj ht
    have hown := h.own_at hl
    exact h.assign hl rfl nofun (Nat.le_refl _) rfl rfl hown trivial
  | unlock | hunlock =>
    simp only [Clients.runStep, hl] at ht
    obtain rfl := Except.ok.inj ht
    have hown := h.own_at hl
    exact h.release hl rfl rfl rfl (.inl rfl) hown trivial
  | fail =>
    simp only [Clients.runStep, hl] at ht
    obtain rfl := Except.ok.inj ht
    have hown := h.own_at hl
    exact h.release hl rfl rfl rfl (.inr hown) trivial trivial
  | sigint | sigterm =>
    simp only [Clients.runStep, hl] at ht
    obtain rfl := Except.ok.inj ht
    have hown := h.own_at hl
    exact h.goto hl rfl rfl (.inl rfl) hown trivial
  | idle =>
    simp only [Clients.runStep, hl] at ht
    obtain rfl := Except.ok.inj ht
    have hown := h.own_at hl
    exact h.goto hl rfl rfl (.inl rfl) ⟨Nat.le_refl _, hown⟩ trivial
  | hexit =>
    simp only [Clients.runStep, hl] at ht
    obtain rfl := Except.ok.inj ht
    have hown := h.own_at hl
    exact h.goto hl rfl rfl (.inr hown) trivial trivial

/-- A statement that stores a time. -/
theorem Inv.stampStep {time : List UInt8} (h : s.Inv pagesize)
    (ht : s.stampStep c time = .ok t) : t.Inv pagesize := by
  rw [Clients.stampStep] at ht
  split at ht
  next k hl =>
    split_ifs at ht with hlen
    obtain rfl := Except.ok.inj ht
    have hown := h.own_at hl
    exact h.assign hl rfl nofun hlen rfl rfl ⟨k, hown⟩ trivial
  next k hl =>
    split_ifs at ht with hlen
    obtain rfl := Except.ok.inj ht
    have hown := h.own_at hl
    exact h.assign hl rfl nofun (Nat.le_of_eq hlen) rfl rfl hown trivial
  next k hl =>
    split_ifs at ht with hlen
    obtain rfl := Except.ok.inj ht
    have hown := h.own_at hl
    exact h.assign hl rfl nofun (Nat.le_of_eq hlen) rfl rfl
      ⟨Nat.succ_pos k, k, hown⟩ trivial
  next => cases ht

/-- A signal. -/
theorem Inv.signal (h : s.Inv pagesize) (hl : (s.place c).handled = some l) :
    (s.goto c l).Inv pagesize := by
  obtain ⟨hlive, hin, hcase⟩ := Place.handled_cases hl
  have hsub := h.subsingleton hlive
  rcases hcase with rfl | rfl
  · exact h.goto rfl hlive hin (.inl rfl) hsub trivial
  · exact h.goto rfl hlive hin (.inl rfl) hsub trivial

/-- A new process, which owns nothing yet. -/
theorem Inv.create {pid : ℤ} (h : s.Inv pagesize) (hc : s.place c = .absent) (hpos : 0 < pid)
    (hlt : pid < 2 ^ 31) (hnew : ∀ d, (s.place d).live = true → s.pid d ≠ pid)
    (hmem : t.mem = s.mem) (hmutex : t.mutex = s.mutex)
    (hpid : t.pid = Function.update s.pid c pid) (hplace : t.place = Function.update s.place c l)
    (hl : l = .gone ∨ l = .lock) (hname : ∀ d, (t.place d).live = true → (t.name d).length ≤ 9) :
    t.Inv pagesize := by
  have hself : t.pid c = pid := by rw [hpid, Function.update_self]
  have hother : ∀ d, d ≠ c → t.pid d = s.pid d ∧ t.place d = s.place d := fun d hne ↦
    ⟨by rw [hpid, Function.update_of_ne hne], by rw [hplace, Function.update_of_ne hne]⟩
  have hold : ∀ d, (s.place d).live = true → d ≠ c := by
    rintro d hd rfl
    rw [hc] at hd
    cases hd
  have hnone : t.owned pagesize c = ∅ := by
    refine Set.eq_empty_of_forall_notMem fun i ⟨hi, hi'⟩ ↦ ?_
    rw [hmem, hself] at hi'
    rcases h.held i hi with hfree | ⟨d, hd, hown⟩
    · omega
    · exact hnew d hd (hown.symm.trans hi')
  -- a client that is there now is the new one or was there before
  have hcases : ∀ d, (t.place d).live = true → d = c ∨ d ≠ c ∧ (s.place d).live = true := by
    intro d hd
    rcases eq_or_ne d c with rfl | hne
    · exact .inl rfl
    · exact .inr ⟨hne, (hother d hne).2 ▸ hd⟩
  refine ⟨?_, fun d e hd he heq ↦ ?_, fun d hd ↦ ?_, fun d hd ↦ ?_, hname, fun i hi ↦ ?_,
    fun d ↦ ?_, fun d ↦ ?_⟩
  · rw [hplace, hmutex]
    refine h.obeys.stay ?_ (h.obeys.awake rfl)
    rw [hc]
    rcases hl with rfl | rfl <;> rfl
  · rcases hcases d hd with rfl | ⟨hdne, hd⟩ <;> rcases hcases e he with rfl | ⟨hene, he⟩
    · rfl
    · rw [hself, (hother e hene).1] at heq
      exact absurd heq.symm (hnew e he)
    · rw [hself, (hother d hdne).1] at heq
      exact absurd heq (hnew d hd)
    · rw [(hother d hdne).1, (hother e hene).1] at heq
      exact h.distinct d e hd he heq
  · rcases hcases d hd with rfl | ⟨hne, hd⟩
    · rwa [hself]
    · rw [(hother d hne).1]
      exact h.pid_pos d hd
  · rcases hcases d hd with rfl | ⟨hne, hd⟩
    · rwa [hself]
    · rw [(hother d hne).1]
      exact h.pid_lt d hd
  · rw [hmem]
    refine (h.held i hi).imp id fun ⟨d, hd, hown⟩ ↦ ⟨d, ?_⟩
    obtain ⟨hpid, hplace⟩ := hother d (hold d hd)
    rw [hpid, hplace]
    exact ⟨hd, hown⟩
  · rcases eq_or_ne d c with rfl | hne
    · rw [hplace, Function.update_self]
      rcases hl with rfl | rfl
      · trivial
      · exact hnone
    · obtain ⟨hpid, hplace⟩ := hother d hne
      rw [hplace, owned, hmem, hpid]
      exact h.own d
  · rcases eq_or_ne d c with rfl | hne
    · rw [hplace, Function.update_self]
      rcases hl with rfl | rfl <;> trivial
    · rw [(hother d hne).2, Clients.free, hmem]
      exact h.free d

theorem startStep_cases (s : Clients κ) (c : κ) (args : List (List UInt8)) (fdShm : ℤ) :
    s.startStep c args fdShm = s.goto c .gone ∨ ∃ arg : List UInt8, arg.length ≤ 9 ∧
      s.startStep c args fdShm =
        { s.goto c .lock with name := Function.update s.name c arg } := by
  unfold startStep
  split
  next arg =>
    split_ifs with hlen hfd
    · exact .inl rfl
    · exact .inl rfl
    · exact .inr ⟨arg, by omega, rfl⟩
  next => exact .inl rfl

/-- A client starts. -/
theorem Inv.start {pid : ℤ} {args : List (List UInt8)} {fdShm : ℤ} (h : s.Inv pagesize)
    (hc : s.place c = .absent) (hpos : 0 < pid) (hlt : pid < 2 ^ 31)
    (hnew : ∀ d, (s.place d).live = true → s.pid d ≠ pid) :
    (startStep { s with pid := Function.update s.pid c pid } c args fdShm).Inv pagesize := by
  rcases startStep_cases { s with pid := Function.update s.pid c pid } c args fdShm with
    heq | ⟨arg, hlen, heq⟩
  · rw [heq]
    refine h.create hc hpos hlt hnew rfl rfl rfl rfl (.inl rfl) fun d hd ↦ ?_
    have hd : (Function.update s.place c .gone d).live = true := hd
    rcases eq_or_ne d c with rfl | hne
    · rw [Function.update_self] at hd
      cases hd
    · rw [Function.update_of_ne hne] at hd
      exact h.name_le d hd
  · rw [heq]
    refine h.create hc hpos hlt hnew rfl rfl rfl rfl (.inr rfl) fun d hd ↦ ?_
    show (Function.update s.name c arg d).length ≤ 9
    rcases eq_or_ne d c with rfl | hne
    · rw [Function.update_self]
      exact hlen
    · have hd : (Function.update s.place c .lock d).live = true := hd
      rw [Function.update_of_ne hne] at hd ⊢
      exact h.name_le d hd

theorem Inv.step {a : Act κ} (h : s.Inv pagesize) (ha : s.DistinctPids a)
    (ht : s.step pagesize a = .ok t) : t.Inv pagesize := by
  cases a with
  | start c pid args fdShm =>
    rw [Clients.step] at ht
    split_ifs at ht with hc
    obtain rfl := Except.ok.inj ht
    obtain ⟨hpos, hlt, hnew⟩ := ha
    exact h.start hc hpos hlt hnew
  | run c => exact h.runStep ht
  | stamp c time => exact h.stampStep ht
  | signal c =>
    rw [Clients.step] at ht
    split at ht
    next l hl =>
      obtain rfl := Except.ok.inj ht
      exact h.signal hl
    next => cases ht

omit [DecidableEq κ] in
theorem inv_of_starts (h : s.Starts pagesize) : s.Inv pagesize := by
  obtain ⟨⟨mem, hmem⟩, hmutex, habsent⟩ := h
  have hdead : ∀ c, (s.place c).live ≠ true := by
    intro c
    rw [habsent c]
    exact nofun
  refine ⟨hmutex ▸ obeys_idle fun c ↦ by rw [habsent c]; rfl, fun c _ hc ↦ absurd hc (hdead c),
    fun c hc ↦ absurd hc (hdead c), fun c hc ↦ absurd hc (hdead c),
    fun c hc ↦ absurd hc (hdead c), fun i hi ↦ .inl ?_, fun c ↦ ?_, fun c ↦ ?_⟩
  · rw [hmem]
    exact pidAt_initSlots hi.1 hi.2
  · rw [habsent c]
    trivial
  · rw [habsent c]
    trivial

/-- The clients and the page fit together in every order of steps. -/
theorem inv_of_reachable (h : ((system κ pagesize).restrict DistinctPids).Reachable s) :
    s.Inv pagesize :=
  h.invariant (fun _ ↦ inv_of_starts) fun _ _ _ hinv hstep ↦ hinv.step hstep.1 hstep.2

end Step

end Clients

end SharedMemory
