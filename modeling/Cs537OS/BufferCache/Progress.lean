import Cs537OS.BufferCache.Replacement
import Mathlib.Data.Finset.Lattice.Fold

/-!
# Nobody waits in vain

A process sleeps because another one has the buffer of the sector it wants, or because the disk has
not come to its buffer yet. As long as the processes ask for sectors in an order (`InOrder`), one
who sleeps is not part of a circle: somebody can go on, or the disk is at work.

* `place_step`, `busy_step` — when a process comes to ask for a sector, and when it gets one;
* `awaited_of_reachable` — who sleeps is waiting for somebody who can go on;
* `error_iff_full` — the only panic.
-/

namespace BufferCache

variable {τ : Type} [DecidableEq τ]

namespace State

/-- A process asks for a sector that comes behind those that it has. -/
def InOrder (s : State τ) (rank : ℕ × ℕ → ℕ) : Act τ → Prop
  | .bread t dev sector =>
    ∀ b < NBUF, (s.buf b).busy = some t → rank (s.buf b).address < rank (address dev sector)
  | _ => True

instance (s : State τ) (rank : ℕ × ℕ → ℕ) : ∀ a, Decidable (s.InOrder rank a)
  | .bread t dev sector => inferInstanceAs (Decidable (∀ b < NBUF, (s.buf b).busy = some t →
    rank (s.buf b).address < rank (address dev sector)))
  | .modify _ _ _ => isTrue trivial
  | .bwrite _ _ => isTrue trivial
  | .brelse _ _ => isTrue trivial
  | .run _ => isTrue trivial
  | .ideintr _ => isTrue trivial
  | .kill _ => isTrue trivial

/-- Somebody can go on, or the disk is at work. -/
def Moves (s : State τ) : Prop :=
  (∃ u, s.place u ≠ .out ∧ s.asleep u = none) ∨ (∃ u b, s.Uses u b) ∨ s.command ≠ none

variable {s s' : State τ} {t u : τ} {b dev sector : ℕ} {a : ℕ × ℕ} {rank : ℕ × ℕ → ℕ}

theorem bread_ne_bget (b dev sector : ℕ) : Place.bread b ≠ .bget dev sector := nofun

theorem iderw_ne_bget (b dev sector : ℕ) : Place.iderw b ≠ .bget dev sector := nofun

theorem request_ne_bget (b dev sector : ℕ) : Place.request b ≠ .bget dev sector := nofun

theorem out_ne_bget (dev sector : ℕ) : Place.out ≠ .bget dev sector := nofun

/-- A process that has moved to a place outside of `bget`. -/
theorem place_goto {l : Place} (h : (s.goto t l).place u = .bget dev sector)
    (hl : ∀ dev sector, l ≠ .bget dev sector) : s.place u = .bget dev sector := by
  rcases eq_or_ne u t with rfl | hne
  · rw [goto_place_self] at h
    exact absurd h (hl dev sector)
  · rwa [goto_place_of_ne s hne] at h

theorem buf_request (s : State τ) (t : τ) (b : ℕ) : (s.request t b).buf = s.buf := by
  rcases request_cases s t b with heq | heq <;> rw [heq] <;> rfl

theorem place_request (h : (s.request t b).place u = .bget dev sector) :
    s.place u = .bget dev sector := by
  rcases request_cases s t b with heq | heq
  · rw [heq] at h
    exact place_goto h out_ne_bget
  · rw [heq] at h
    exact h

/-- **Who is in `bget`** was there, or has called `bread`. -/
theorem place_step (h : s.Inv) {act : Act τ} (hmay : s.May act) (hstep : s.step act = .ok s')
    (hl : s'.place u = .bget dev sector) :
    s.place u = .bget dev sector ∨ act = .bread u dev sector := by
  cases act with
  | bread t d k =>
    obtain rfl := Except.ok.inj hstep
    rcases eq_or_ne u t with rfl | hne
    · rw [goto_place_self] at hl
      obtain ⟨rfl, rfl⟩ := Place.bget.inj hl
      exact .inr rfl
    · rw [goto_place_of_ne s hne] at hl
      exact .inl hl
  | modify t b data =>
    obtain rfl := Except.ok.inj hstep
    exact .inl hl
  | kill t =>
    obtain rfl := Except.ok.inj hstep
    exact .inl hl
  | ideintr failed =>
    obtain rfl := Except.ok.inj hstep
    rw [(s.ideintr_frame failed).2] at hl
    exact .inl hl
  | bwrite t b =>
    rw [step, bwrite] at hstep
    split_ifs at hstep
    obtain rfl := Except.ok.inj hstep
    exact .inl (place_goto hl (iderw_ne_bget b))
  | brelse t b =>
    rw [step, brelse] at hstep
    split_ifs at hstep
    obtain rfl := Except.ok.inj hstep
    exact .inl hl
  | run t =>
    refine .inl ?_
    rw [step, State.run] at hstep
    cases hlt : s.place t with
    | out => exact absurd hlt hmay.1
    | bget d k =>
      rw [hlt] at hstep
      rcases h.bget_cases t d k with ⟨b, -, -, -, heq⟩ | ⟨b, -, -, -, heq⟩ | ⟨b, -, -, -, heq⟩ |
        ⟨heq, -⟩
      · obtain rfl := Except.ok.inj (hstep.symm.trans heq)
        exact place_goto (s := s.setBuf b _) hl (bread_ne_bget b)
      · obtain rfl := Except.ok.inj (hstep.symm.trans heq)
        exact hl
      · obtain rfl := Except.ok.inj (hstep.symm.trans heq)
        exact place_goto (s := s.setBuf b _) hl (bread_ne_bget b)
      · cases hstep.symm.trans heq
    | bread b =>
      rw [hlt] at hstep
      obtain rfl := Except.ok.inj hstep
      refine place_goto hl fun dev sector ↦ ?_
      split_ifs
      · exact out_ne_bget dev sector
      · exact iderw_ne_bget b dev sector
    | iderw b =>
      rw [hlt] at hstep
      obtain ⟨command, rfl⟩ := iderw_cases hstep
      have hbefore := place_goto (place_request hl) (request_ne_bget b)
      exact hbefore
    | request b =>
      rw [hlt] at hstep
      obtain rfl := Except.ok.inj hstep
      exact place_request hl

/-- A step that leaves the buffers with the processes that have them, and for the same sectors. -/
def KeepsBusy (s s' : State τ) : Prop :=
  ∀ b, (s'.buf b).busy = (s.buf b).busy ∧ (s'.buf b).address = (s.buf b).address

omit [DecidableEq τ] in
theorem KeepsBusy.of_buf (hbuf : s'.buf = s.buf) : s.KeepsBusy s' := fun b ↦ by
  rw [hbuf]
  exact ⟨rfl, rfl⟩

omit [DecidableEq τ] in
/-- One buffer is changed. -/
theorem KeepsBusy.of_update {e : Buf τ} (hbuf : s'.buf = Function.update s.buf b e)
    (hbusy : e.busy = (s.buf b).busy) (haddress : e.address = (s.buf b).address) :
    s.KeepsBusy s' := fun c ↦ by
  rw [hbuf]
  rcases eq_or_ne c b with rfl | hne
  · rw [Function.update_self]
    exact ⟨hbusy, haddress⟩
  · rw [Function.update_of_ne hne]
    exact ⟨rfl, rfl⟩

/-- Who has a buffer had it, for the same sector, or comes out of `bget`. -/
def GetsBusy (s s' : State τ) : Prop :=
  ∀ b u, (s'.buf b).busy = some u →
    (s.buf b).busy = some u ∧ (s'.buf b).address = (s.buf b).address ∨ s'.place u = .bread b

omit [DecidableEq τ] in
theorem KeepsBusy.getsBusy (h : s.KeepsBusy s') : s.GetsBusy s' := fun b _ hbusy ↦
  .inl ⟨(h b).1.symm.trans hbusy, (h b).2⟩

/-- `bget` gives the buffer to `t`. -/
theorem getsBusy_taken {e : Buf τ} (hbusy : e.busy = some t) :
    s.GetsBusy ((s.setBuf b e).goto t (.bread b)) := fun c u hu ↦ by
  change (Function.update s.buf b e c).busy = some u at hu
  rcases eq_or_ne c b with rfl | hne
  · rw [Function.update_self] at hu
    obtain rfl := Option.some.inj (hbusy.symm.trans hu)
    exact .inr (goto_place_self _ _ _)
  · rw [Function.update_of_ne hne] at hu
    refine .inl ⟨hu, ?_⟩
    change (Function.update s.buf b e c).address = _
    rw [Function.update_of_ne hne]

/-- **Who gets a sector** comes out of `bget`. -/
theorem busy_step (h : s.Inv) {act : Act τ} (hstep : s.step act = .ok s') : s.GetsBusy s' := by
  cases act with
  | bread t dev sector => exact (KeepsBusy.of_buf (Except.ok.inj hstep ▸ rfl)).getsBusy
  | kill t => exact (KeepsBusy.of_buf (Except.ok.inj hstep ▸ rfl)).getsBusy
  | modify t b data =>
    obtain rfl := Except.ok.inj hstep
    exact (KeepsBusy.of_update (b := b) (e := { s.buf b with data := data, changed := true })
      rfl rfl rfl).getsBusy
  | bwrite t b =>
    rw [step, bwrite] at hstep
    split_ifs at hstep
    obtain rfl := Except.ok.inj hstep
    exact (KeepsBusy.of_update (b := b) (e := { s.buf b with dirty := true, changed := false })
      rfl rfl rfl).getsBusy
  | brelse t b =>
    rw [step, brelse] at hstep
    split_ifs at hstep
    obtain rfl := Except.ok.inj hstep
    intro c u hu
    change (Function.update s.buf b _ c).busy = some u at hu
    rcases eq_or_ne c b with rfl | hne
    · rw [Function.update_self] at hu
      cases hu
    · rw [Function.update_of_ne hne] at hu
      refine .inl ⟨hu, ?_⟩
      change (Function.update s.buf b _ c).address = _
      rw [Function.update_of_ne hne]
  | ideintr failed =>
    obtain rfl := Except.ok.inj hstep
    cases hq : s.idequeue with
    | nil => exact (KeepsBusy.of_buf (by rw [State.ideintr, hq])).getsBusy
    | cons b rest =>
      rw [h.ideintr_eq hq]
      exact (KeepsBusy.of_update (b := b) (e := s.handled b failed) rfl rfl rfl).getsBusy
  | run t =>
    rw [step, State.run] at hstep
    cases hlt : s.place t with
    | out =>
      rw [hlt] at hstep
      exact (KeepsBusy.of_buf (Except.ok.inj hstep ▸ rfl)).getsBusy
    | bget dev sector =>
      rw [hlt] at hstep
      rcases h.bget_cases t dev sector with ⟨b, -, -, -, heq⟩ | ⟨b, -, -, -, heq⟩ |
        ⟨b, -, -, -, heq⟩ | ⟨heq, -⟩
      · obtain rfl := Except.ok.inj (hstep.symm.trans heq)
        exact getsBusy_taken rfl
      · obtain rfl := Except.ok.inj (hstep.symm.trans heq)
        exact (KeepsBusy.of_buf rfl).getsBusy
      · obtain rfl := Except.ok.inj (hstep.symm.trans heq)
        exact getsBusy_taken rfl
      · cases hstep.symm.trans heq
    | bread b =>
      rw [hlt] at hstep
      exact (KeepsBusy.of_buf (Except.ok.inj hstep ▸ rfl)).getsBusy
    | iderw b =>
      rw [hlt] at hstep
      obtain ⟨command, rfl⟩ := iderw_cases hstep
      exact (KeepsBusy.of_buf (buf_request _ t b)).getsBusy
    | request b =>
      rw [hlt] at hstep
      exact (KeepsBusy.of_buf (Except.ok.inj hstep ▸ buf_request s t b)).getsBusy

/-- A process that asks for a sector has only sectors before it. -/
def Ordered (rank : ℕ × ℕ → ℕ) (s : State τ) : Prop :=
  ∀ t dev sector, s.place t = .bget dev sector →
    ∀ b < NBUF, (s.buf b).busy = some t → rank (s.buf b).address < rank (address dev sector)

theorem ordered_of_reachable (h : ((system τ).restrict (InOrder · rank)).Reachable s) :
    s.Inv ∧ s.Ordered rank := by
  refine h.invariant (I := fun s ↦ s.Inv ∧ s.Ordered rank)
    (fun s hs ↦ ⟨Starts.inv hs, fun t dev sector hl ↦ ?_⟩) fun s act s' ⟨hinv, hordered⟩ hnext ↦ ?_
  · cases (hs.2.2.2.2.1 t).1.symm.trans hl
  · obtain ⟨horder, hmay, hstep⟩ := hnext
    refine ⟨hinv.next ⟨hmay, hstep⟩, fun t dev sector hl b hlt hbusy ↦ ?_⟩
    have hbefore : (s.buf b).busy = some t ∧ (s'.buf b).address = (s.buf b).address := by
      refine (busy_step hinv hstep b t hbusy).resolve_right fun hb ↦ ?_
      cases hl.symm.trans hb
    rw [hbefore.2]
    rcases place_step hinv hmay hstep hl with hl | rfl
    · exact hordered t dev sector hl b hlt hbefore.1
    · exact horder b hlt hbefore.1

/-- **Who sleeps waits for somebody who can go on**, or for the disk. -/
theorem awaited_of_reachable (h : ((system τ).restrict (InOrder · rank)).Reachable s)
    (hasleep : s.asleep t = some b) : s.Waits t b ∧ s.Moves := by
  obtain ⟨hinv, hordered⟩ := ordered_of_reachable h
  refine ⟨hinv.asleep t b hasleep, ?_⟩
  have hrank : ∀ c < NBUF, rank (s.buf c).address ≤
      (Finset.range NBUF).sup fun c ↦ rank (s.buf c).address := fun c hc ↦
    Finset.le_sup (f := fun c ↦ rank (s.buf c).address) (Finset.mem_range.2 hc)
  generalize (Finset.range NBUF).sup (fun c ↦ rank (s.buf c).address) = m at hrank
  -- The longer the chain of those who wait for one another, the higher the sector at its end.
  induction hn : m - rank (s.buf b).address using Nat.strong_induction_on generalizing t b with
  | _ n ih =>
    subst hn
    have hworks : ∀ {c}, c ∈ s.idequeue → s.Moves := fun hmem ↦ by
      refine .inr (.inr ?_)
      rw [hinv.command]
      cases hq : s.idequeue with
      | nil => exact absurd (hq ▸ hmem) List.not_mem_nil
      | cons c rest => exact nofun
    rcases hinv.asleep t b hasleep with ⟨dev, sector, hl, hlt, -, hbusy⟩ | ⟨-, hmem⟩
    · obtain ⟨u, hu⟩ := Option.ne_none_iff_exists'.1 hbusy
      cases hsleeps : s.asleep u with
      | none =>
        by_cases hout : s.place u = .out
        · exact .inr (.inl ⟨u, b, hout, hlt, hu⟩)
        · exact .inl ⟨u, hout, hsleeps⟩
      | some c =>
        rcases hinv.asleep u c hsleeps with ⟨dev', sector', hl', hltc, hisfor, -⟩ | ⟨-, hmem⟩
        · have hless := hordered u dev' sector' hl' b hlt hu
          rw [← address_of_isFor hisfor] at hless
          exact ih _ (Nat.sub_lt_sub_left (hless.trans_le (hrank c hltc)) hless) hsleeps rfl
        · exact hworks hmem
    · exact hworks hmem

/-- The second process waits for the first one, who waits for the disk. -/
theorem writtenOnce_awaited : ∃ s : State Bool, s.asleep true = some 0 ∧ s.asleep false = some 0 ∧
    s.Waits true 0 ∧ s.Moves := by
  obtain ⟨s, hs, hasleep⟩ := System.Reachable.exists_of_run
    (S := (system Bool).restrict (InOrder · Prod.snd))
    (l := writtenOnce.take 10 ++ [.run false])
    (p := fun s ↦ s.asleep true = some 0 ∧ s.asleep false = some 0)
    (System.next_of_checked (e := "not in order") (fun s a t hstep ↦ by
      rw [System.checked] at hstep
      split_ifs at hstep with hmay
      exact ⟨hmay, hstep⟩)) (.init freshState_starts)
    (f := System.checked (InOrder · Prod.snd)
      (System.checked State.May (fun s a ↦ s.step a) "not allowed") "not in order")
    (by decide +kernel)
  obtain ⟨htrue, hfalse⟩ := of_decide_eq_true hasleep
  exact ⟨s, htrue, hfalse, awaited_of_reachable hs htrue⟩

/-- **The only panic**: `bget` finds that all buffers are in use, for other sectors. -/
theorem error_iff_full (h : (system τ).Reachable s) {act : Act τ} (hmay : s.May act)
    {msg : String} : s.step act = .error msg ↔ msg = "bget: no buffers" ∧
      ∃ t dev sector, act = .run t ∧ s.place t = .bget dev sector ∧ s.Full dev sector := by
  have hinv := inv_of_reachable h
  constructor
  · intro hstep
    rcases hinv.step_spec hmay with ⟨s', hok, -⟩ | ⟨herr, hfull⟩
    · cases hok.symm.trans hstep
    · exact ⟨Except.error.inj (hstep.symm.trans herr), hfull⟩
  · rintro ⟨rfl, t, dev, sector, rfl, hl, hfull⟩
    rw [step, State.run, hl]
    change s.bget t dev sector = _
    rcases hinv.bget_cases t dev sector with ⟨b, hlt, hisfor, -⟩ | ⟨b, hlt, hisfor, -⟩ |
      ⟨b, hlt, -, hfree, -⟩ | ⟨heq, -⟩
    · exact absurd hisfor (hfull b hlt).2
    · exact absurd hisfor (hfull b hlt).2
    · exact absurd hfree (hfull b hlt).1
    · exact heq

/-- One process has all ten buffers and asks for one more sector. -/
theorem allTaken_error : ∃ s : State Bool, s.Full 1 10 ∧
    s.step (.run true) = .error "bget: no buffers" := by
  obtain ⟨_, s, htrace, hmay, hl, hfull⟩ := exists_of_play released
    ((List.range 10).flatMap (fun k ↦ [.bread false 1 k, .run false, .run false, .run false,
      .ideintr false, .run false]) ++ [.bread true 1 10])
    (P := fun _ s ↦ s.May (.run true) ∧ s.place true = .bget 1 10 ∧ s.Full 1 10) (by decide +kernel)
  exact ⟨s, hfull, (error_iff_full (htrace.of_restrict.reachable freshState_starts) hmay).2
    ⟨rfl, true, 1, 10, rfl, hl, hfull⟩⟩

end State

end BufferCache
