import Cs537OS.SharedMemory.Ownership

/-!
# The slots are allotted correctly

What follows from the invariant about the slots in every order of steps (`slotsOk_of_reachable`): a
client has exactly one slot between its claim and its handler, no slot has two owners, a claim fails
only if every slot has an owner, and nobody writes into the slot of somebody else.

The last of these is about bytes. A statement writes into the slot that its place names
(`Place.target`), at most as many bytes as the field has (`Inv.writes_step`), and that slot is free
or its own (`Place.mem_of_target`).
-/

namespace SharedMemory

namespace Place

/-- The slot into which the next statement of the client writes. -/
def target : Place → Option ℕ
  | take i | name i | born i | sec i | msec i => some i
  | hpid i | hsec i | hmsec i | hbirth i | hname i => some i
  | _ => none

/-- It is free, or owned by the client. -/
theorem mem_of_target {l : Place} {owned free : Set ℕ} {i : ℕ} (h : l.target = some i)
    (hown : l.Own owned) (hfree : l.Free free) : i ∈ owned ∨ i ∈ free := by
  cases l with
  | take k | hsec k | hmsec k | hbirth k | hname k =>
    obtain rfl : k = i := Option.some.inj h
    exact .inr hfree
  | name k | born k | sec k | msec k | hpid k =>
    obtain rfl : k = i := Option.some.inj h
    have hown : owned = {k} := hown
    rw [hown]
    exact .inl rfl
  | _ => cases h

end Place

namespace Clients

variable {κ : Type*} [DecidableEq κ] {s t : Clients κ} {pagesize : ℕ} {c d : κ} {i : ℕ}

/-- The slot is in the page and carries the id of the client, which is there. -/
def Owns (s : Clients κ) (pagesize : ℕ) (c : κ) (i : ℕ) : Prop :=
  (s.place c).live = true ∧ i ∈ s.owned pagesize c

/-- The slots are allotted correctly. -/
structure SlotsOk (s : Clients κ) (pagesize : ℕ) : Prop where
  /-- A client has exactly one slot from its claim until its handler runs. -/
  claimed : ∀ c, (s.place c).claimed = true → ∃! i, s.Owns pagesize c i
  /-- No slot has two owners. -/
  disjoint : ∀ c d i, s.Owns pagesize c i → s.Owns pagesize d i → c = d
  /-- When a claim fails, every slot has an owner. -/
  full : ∀ c, s.place c = .fail → ∀ i ∈ slots pagesize, ∃ d, s.Owns pagesize d i
  /-- A step of a client changes no byte of a slot of another one. -/
  kept : ∀ a t, s.step pagesize a = .ok t → ∀ d i, d ≠ a.client → s.Owns pagesize d i →
    ∀ b < 64, t.mem (64 * i + b) = s.mem (64 * i + b)

/-- The page after a statement: written into at the target, if at all. -/
def Writes (s t : Clients κ) (c : κ) : Prop :=
  t.mem = s.mem ∨ ∃ i f vals, (s.place c).target = some i ∧ vals.length ≤ Field.size f ∧
    t.mem = (store i f vals).write s.mem

omit [DecidableEq κ] in
theorem Writes.kept (h : Writes s t c) (hne : (s.place c).target ≠ some i) {b : ℕ} (hb : b < 64) :
    t.mem (64 * i + b) = s.mem (64 * i + b) := by
  rcases h with heq | ⟨k, f, vals, hk, hlen, heq⟩
  · rw [heq]
  · rw [heq]
    exact store_of_slot_ne hlen (fun hik ↦ hne (hik ▸ hk)) hb

/-- An assignment of the statement at which the client stands. -/
theorem writes_assign {l₀ l : Place} {f : Field} {vals : List UInt8} (hl : s.place c = l₀)
    (ht : l₀.target = some i) (hlen : vals.length ≤ f.size) :
    Writes s (s.assign c l (store i f vals)) c :=
  .inr ⟨i, f, vals, hl.symm ▸ ht, hlen, rfl⟩

theorem mem_of_acquire {l : Place} (h : s.acquire c l = .ok t) : t.mem = s.mem := by
  rw [acquire] at h
  split_ifs at h
  obtain rfl := Except.ok.inj h
  rfl

theorem Inv.writes_runStep (h : s.Inv pagesize) (ht : s.runStep pagesize c = .ok t) :
    Writes s t c := by
  cases hl : s.place c with
  | lock | hlock =>
    simp only [Clients.runStep, hl] at ht
    exact .inl (mem_of_acquire ht)
  | scan k | update k | hscan k =>
    simp only [Clients.runStep, hl] at ht
    split_ifs at ht <;> (obtain rfl := Except.ok.inj ht; exact .inl rfl)
  | fail | unlock | hunlock | sigint | sigterm | idle | hexit =>
    simp only [Clients.runStep, hl] at ht
    obtain rfl := Except.ok.inj ht
    exact .inl rfl
  | name k =>
    simp only [Clients.runStep, hl] at ht
    obtain rfl := Except.ok.inj ht
    have hname := h.name_le c (by rw [hl]; rfl)
    refine writes_assign hl rfl ?_
    rw [List.length_append]
    exact Nat.succ_le_succ hname
  | take k | hpid k | hsec k | hmsec k | hbirth k | hname k =>
    simp only [Clients.runStep, hl] at ht
    obtain rfl := Except.ok.inj ht
    exact writes_assign hl rfl (Nat.le_refl _)
  | absent | born | sec | msec | stuck | gone =>
    simp only [Clients.runStep, hl] at ht
    cases ht

theorem writes_stampStep {time : List UInt8} (ht : s.stampStep c time = .ok t) : Writes s t c := by
  rw [stampStep] at ht
  split at ht
  next k hl =>
    split_ifs at ht with hlen
    obtain rfl := Except.ok.inj ht
    exact writes_assign hl rfl hlen
  next k hl =>
    split_ifs at ht with hlen
    obtain rfl := Except.ok.inj ht
    exact writes_assign hl rfl (Nat.le_of_eq hlen)
  next k hl =>
    split_ifs at ht with hlen
    obtain rfl := Except.ok.inj ht
    exact writes_assign hl rfl (Nat.le_of_eq hlen)
  next => cases ht

/-- **What a step may write.** -/
theorem Inv.writes_step {a : Act κ} (h : s.Inv pagesize) (ht : s.step pagesize a = .ok t) :
    Writes s t a.client := by
  cases a with
  | start c pid args fdShm =>
    rw [Clients.step] at ht
    split_ifs at ht
    obtain rfl := Except.ok.inj ht
    refine .inl ?_
    rcases startStep_cases { s with pid := Function.update s.pid c pid } c args fdShm with
      heq | ⟨arg, -, heq⟩ <;> rw [heq] <;> rfl
  | run c => exact h.writes_runStep ht
  | stamp c time => exact writes_stampStep ht
  | signal c =>
    rw [Clients.step] at ht
    split at ht
    next =>
      obtain rfl := Except.ok.inj ht
      exact .inl rfl
    next => cases ht

omit [DecidableEq κ] in
/-- A client does not write into the slot of another one. -/
theorem Inv.target_ne (h : s.Inv pagesize) (hne : d ≠ c) (hd : s.Owns pagesize d i) :
    (s.place c).target ≠ some i := by
  intro htarget
  obtain ⟨hlive, -, hpid⟩ := hd
  have hpos := h.pid_pos d hlive
  have hc : (s.place c).live = true := by
    cases hl : s.place c with
    | absent | gone =>
      rw [hl] at htarget
      cases htarget
    | _ => rfl
  rcases Place.mem_of_target htarget (h.own c) (h.free c) with ⟨-, hown⟩ | ⟨-, hfree⟩
  · exact hne (h.distinct d c hlive hc (hpid.symm.trans hown))
  · omega

theorem Inv.slotsOk (h : s.Inv pagesize) : s.SlotsOk pagesize := by
  refine ⟨fun c hc ↦ ?_, fun c d i hc hd ↦ ?_, fun c hc i hi ↦ ?_, fun a t ht d i hne hd b hb ↦ ?_⟩
  · have hlive := Place.live_of_claimed hc
    obtain ⟨i, hi⟩ := Place.exists_of_own (h.own c) hc
    refine ⟨i, ⟨hlive, by rw [hi]; rfl⟩, fun j ⟨_, hj⟩ ↦ ?_⟩
    rw [hi] at hj
    exact hj
  · exact h.distinct c d hc.1 hd.1 (hc.2.2.symm.trans hd.2.2)
  · have hnone : s.free pagesize = ∅ := h.free_at hc
    rcases h.held i hi with hfree | ⟨d, hd, hpid⟩
    · have hmem : i ∈ s.free pagesize := ⟨hi, hfree⟩
      rw [hnone] at hmem
      exact absurd hmem (Set.notMem_empty i)
    · exact ⟨d, hd, hi, hpid⟩
  · exact (h.writes_step ht).kept (h.target_ne hne hd) hb

/-- **Slot ownership**, with any number of clients and in every order of their steps. -/
theorem slotsOk_of_reachable (h : ((system κ pagesize).restrict DistinctPids).Reachable s) :
    s.SlotsOk pagesize :=
  (inv_of_reachable h).slotsOk

/-- Two clients, and a page with one slot. -/
def onePage : Clients (Fin 2) where
  mem := initSlots 128 fun _ ↦ 0
  mutex := .idle
  place _ := .absent
  pid _ := 0
  name _ := []

theorem onePage_starts : onePage.Starts 128 := ⟨⟨_, rfl⟩, rfl, fun _ ↦ rfl⟩

/-- The first client claims the slot and updates it, the claim of the second one fails. -/
def secondFails : List (Act (Fin 2)) :=
  [.start 0 500 [[97]] 3, .start 1 501 [[98, 98]] 3, .run 0, .run 0, .run 0, .run 0,
    .stamp 0 [84, 104, 117, 0], .run 0, .run 1, .run 0, .run 0, .run 1, .run 0, .run 0,
    .stamp 0 [1, 0, 0, 0], .run 1, .stamp 0 [0, 0, 0, 0, 0, 0, 0, 0]]

/-- The slots when the claim of the second client has failed. -/
theorem secondFails_slotsOk : ∃ s : Clients (Fin 2), s.place 0 = .update 2 ∧ s.place 1 = .fail ∧
    s.SlotsOk 128 := by
  obtain ⟨s, hs, hplace⟩ := System.Reachable.exists_of_run
    (S := (system (Fin 2) 128).restrict DistinctPids)
    (f := System.checked DistinctPids (Clients.step 128) ())
    (System.next_of_checked fun _ _ _ h ↦ h) (l := secondFails)
    (p := fun s ↦ decide (s.place 0 = .update 2 ∧ s.place 1 = .fail)) (.init onePage_starts)
    (by decide +kernel)
  obtain ⟨h₀, h₁⟩ := of_decide_eq_true hplace
  exact ⟨s, h₀, h₁, slotsOk_of_reachable hs⟩

end Clients

end SharedMemory
