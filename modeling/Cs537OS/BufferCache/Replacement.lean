import Cs537OS.BufferCache.Coherence
import Cs537OS.Foundation.Recency

/-!
# Which buffer `bget` takes

`brelse` moves the buffer to the front of the ring, and nothing else moves one. So `bget`, which
goes through the ring from the end, first takes the buffers that were never used, and then the free
one whose last release was the longest time ago.

* `ring_of_trace` — the ring is the order of the last releases;
* `bget_of_trace` — what `bget` does, in terms of what was released.
-/

namespace BufferCache

variable {τ : Type}

/-- The buffer that a step releases. -/
def released : State τ → Act τ → State τ → Option ℕ
  | _, .brelse _ b, _ => some b
  | _, _, _ => none

/-- The order in which `bget` looks for a buffer to recycle, after the releases `bs`. -/
def oldestFirst (bs : List ℕ) : List ℕ := ((List.range NBUF).filter fun b ↦ b ∉ bs) ++ bs.dedup

namespace State

variable [DecidableEq τ] {s s' s₀ : State τ} {t : τ} {b dev sector : ℕ} {bs : List ℕ}

theorem links_request (s : State τ) (t : τ) (b : ℕ) : (s.request t b).links = s.links := by
  rcases request_cases s t b with heq | heq <;> rw [heq] <;> rfl

theorem links_bget (hstep : s.bget t dev sector = .ok s') : s'.links = s.links := by
  rw [bget] at hstep
  split at hstep
  · split_ifs at hstep <;> exact Except.ok.inj hstep ▸ rfl
  · split at hstep
    · exact Except.ok.inj hstep ▸ rfl
    · cases hstep

theorem links_iderw (hstep : s.iderw t b = .ok s') : s'.links = s.links := by
  obtain ⟨command, rfl⟩ := iderw_cases hstep
  exact links_request _ t b

/-- **Only `brelse` moves a buffer.** -/
theorem links_step {a : Act τ} (hstep : s.step a = .ok s') :
    s'.links = match released s a s' with
      | some b => (s.links.unlink b).pushFront HEAD b
      | none => s.links := by
  cases a with
  | bread t dev sector => exact Except.ok.inj hstep ▸ rfl
  | modify t b data => exact Except.ok.inj hstep ▸ rfl
  | kill t => exact Except.ok.inj hstep ▸ rfl
  | ideintr failed => exact Except.ok.inj hstep ▸ (s.ideintr_frame failed).1
  | bwrite t b =>
    rw [step, bwrite] at hstep
    split_ifs at hstep
    exact Except.ok.inj hstep ▸ rfl
  | brelse t b =>
    rw [step, brelse] at hstep
    split_ifs at hstep
    exact Except.ok.inj hstep ▸ rfl
  | run t =>
    change s'.links = s.links
    rw [step, State.run] at hstep
    cases hl : s.place t with
    | out =>
      rw [hl] at hstep
      exact Except.ok.inj hstep ▸ rfl
    | bget dev sector =>
      rw [hl] at hstep
      exact links_bget hstep
    | bread b =>
      rw [hl] at hstep
      exact Except.ok.inj hstep ▸ rfl
    | iderw b =>
      rw [hl] at hstep
      exact links_iderw hstep
    | request b =>
      rw [hl] at hstep
      exact Except.ok.inj hstep ▸ links_request s t b

/-- **The ring is the order of the last releases.** -/
theorem ring_of_trace (hs : s₀.Starts) (h : (system τ).Trace released s₀ bs s) :
    s.Inv ∧ (∀ b ∈ bs, b < NBUF) ∧
      s.links.IsRing HEAD (recency (List.range NBUF).reverse bs) := by
  have hrange : (List.range NBUF).reverse.Nodup := List.nodup_reverse.2 List.nodup_range
  induction h with
  | nil =>
    obtain ⟨r, hlinks⟩ := hs.1
    rw [recency_nil, hlinks]
    exact ⟨Starts.inv hs, fun b hb ↦ absurd hb List.not_mem_nil, isRing_binit r⟩
  | @step bs s s' a _ hnext ih =>
    obtain ⟨hinv, hlt, hring⟩ := ih
    refine ⟨hinv.next hnext, ?_⟩
    have hlinks := links_step hnext.2
    cases hb : released s a s' with
    | none =>
      rw [hb] at hlinks
      rw [hlinks, Option.toList_none, List.append_nil]
      exact ⟨hlt, hring⟩
    | some b =>
      rw [hb] at hlinks
      have hltb : b < NBUF := by
        cases a with
        | brelse t c =>
          obtain rfl : c = b := Option.some.inj hb
          exact hnext.1.1.2.1
        | bread _ _ _ => cases hb
        | modify _ _ _ => cases hb
        | bwrite _ _ => cases hb
        | run _ => cases hb
        | ideintr _ => cases hb
        | kill _ => cases hb
      rw [hlinks, Option.toList_some, recency_concat hrange]
      refine ⟨fun c hc ↦ ?_, hring.moveFront ?_⟩
      · rcases List.mem_append.1 hc with hc | hc
        · exact hlt c hc
        · exact List.mem_singleton.1 hc ▸ hltb
      · exact mem_recency.2 (.inr (List.mem_reverse.2 (List.mem_range.2 hltb)))

/-- What `bget` should do after the releases `bs`: take the buffer of the sector or wait for it, and
recycle the oldest free one if there is none. -/
def bgetOldest (s : State τ) (bs : List ℕ) (t : τ) (dev sector : ℕ) : Except String (State τ) :=
  match (List.range NBUF).find? fun b ↦ (s.buf b).IsFor dev sector with
  | some b =>
    if (s.buf b).busy = none then
      .ok ((s.setBuf b { s.buf b with busy := some t }).goto t (.bread b))
    else .ok (s.sleep t b)
  | none =>
    match (oldestFirst bs).find? fun b ↦ (s.buf b).busy = none with
    | some b =>
      let e := { s.buf b with
        dev := dev, sector := sector, busy := some t, valid := false, dirty := false }
      .ok ((s.setBuf b e).goto t (.bread b))
    | none => .error "bget: no buffers"

/-- **Which buffer is taken**, in every run. -/
theorem bget_of_trace (hs : s₀.Starts) (h : (system τ).Trace released s₀ bs s)
    (hl : s.place t = .bget dev sector) : s.step (.run t) = s.bgetOldest bs t dev sector := by
  obtain ⟨hinv, hlt, hring⟩ := ring_of_trace hs h
  have hperm : (recency (List.range NBUF).reverse bs).Perm (List.range NBUF) :=
    (perm_recency (List.nodup_reverse.2 List.nodup_range) fun b hb ↦
      List.mem_reverse.2 (List.mem_range.2 (hlt b hb))).trans (List.reverse_perm _)
  have hfuel : (recency (List.range NBUF).reverse bs).length < NBUF + 1 := by
    rw [hperm.length_eq, List.length_range]
    exact Nat.lt_succ_self NBUF
  have hpresent : s.Present dev sector := by
    have hknows := hinv.knows t
    rwa [hl] at hknows
  -- A sector has one buffer, so the order in which it is looked for does not matter.
  have hfind := find?_eq_of_perm (p := fun b ↦ decide ((s.buf b).IsFor dev sector)) hperm
    fun b hb c hc hbfor hcfor ↦ by
      obtain ⟨hdev, hsector⟩ := of_decide_eq_true hbfor
      by_contra hne
      refine hinv.unique b (List.mem_range.1 (hperm.mem_iff.1 hb)) c
        (List.mem_range.1 (hperm.mem_iff.1 hc)) hne ?_ ?_
      · rw [hdev, hsector]
        exact hpresent
      · rw [hdev, hsector]
        exact of_decide_eq_true hcfor
  have holdest : (recency (List.range NBUF).reverse bs).reverse = oldestFirst bs := by
    rw [reverse_recency, List.reverse_reverse, oldestFirst]
  rw [step, State.run, hl]
  change s.bget t dev sector = _
  rw [bget, hring.search_next hfuel, hring.search_prev hfuel, hfind, holdest]
  rfl

/-- The buffer that was released twice is the last one that is recycled. -/
theorem writtenOnce_oldest : oldestFirst [0, 0] = [1, 2, 3, 4, 5, 6, 7, 8, 9, 0] ∧
    ∃ s : State Bool, s.place true = .bget 1 6 ∧
      s.step (.run true) = s.bgetOldest [0, 0] true 1 6 := by
  obtain ⟨bs, s, htrace, rfl, hl⟩ := exists_of_play released
    (writtenOnce ++ [.brelse true 0, .bread true 1 6])
    (P := fun bs s ↦ bs = [0, 0] ∧ s.place true = .bget 1 6) (by decide +kernel)
  exact ⟨by decide, s, hl, bget_of_trace freshState_starts htrace.of_restrict hl⟩

end State

end BufferCache
