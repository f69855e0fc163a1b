import Cs537OS.BufferCache.Invariant

/-!
# The steps of the buffer cache

Each step keeps the invariant, and the only panic is that of `bget` when all buffers are in use.

* `bget_cases` — what `bget` does;
* `Inv.ideintr` — the interrupt;
* `step_spec`, `inv_of_reachable` — one step, and any number of them.
-/

namespace BufferCache

open FileSys (Block)

namespace State

variable {τ : Type} {s s' : State τ} {t u : τ} {b c dev sector : ℕ} {l : Place}

namespace Inv

/-- Who has a buffer outside of `iderw` has not queued it. -/
theorem not_queued (h : s.Inv) (hbusy : (s.buf b).busy = some t)
    (hplace : s.place t ≠ .request b) : b ∉ s.idequeue := fun hmem ↦ by
  obtain ⟨u, hu⟩ := h.queue b hmem
  have hknows := h.knows u
  rw [hu] at hknows
  obtain rfl : t = u := Option.some.inj (hbusy.symm.trans hknows.2.1)
  exact hplace hu

theorem lt_of_asleep (h : s.Inv) (hasleep : s.asleep t = some b) : b < NBUF := by
  rcases h.asleep t b hasleep with ⟨_, _, -, hlt, -⟩ | ⟨hplace, -⟩
  · exact hlt
  · have hknows := h.knows t
    rw [hplace] at hknows
    exact hknows.1

theorem lt_of_queue (h : s.Inv) (hmem : b ∈ s.idequeue) : b < NBUF := by
  obtain ⟨t, ht⟩ := h.queue b hmem
  have hknows := h.knows t
  rw [ht] at hknows
  exact hknows.1

/-- A process that sleeps is in a function. -/
theorem awake_of_out (h : s.Inv) (hout : s.place t = .out) : s.asleep t = none := by
  cases hasleep : s.asleep t with
  | none => rfl
  | some b =>
    rcases h.asleep t b hasleep with ⟨_, _, hplace, -⟩ | ⟨hplace, -⟩
    · cases hout.symm.trans hplace
    · cases hout.symm.trans hplace

/-- Nobody sleeps on a buffer that nobody has. -/
theorem not_asleep_of_free (h : s.Inv) (hfree : (s.buf b).busy = none) (u : τ) :
    s.asleep u ≠ some b := fun hasleep ↦ by
  rcases h.asleep u b hasleep with ⟨_, _, -, -, -, hbusy⟩ | ⟨hplace, -⟩
  · exact hbusy hfree
  · have hknows := h.knows u
    rw [hplace] at hknows
    cases hfree.symm.trans hknows.2.1

/-- The processes that sleep go on sleeping, on a buffer that somebody still has. -/
theorem keeps_asleep (h : s.Inv) (hc : Change s s' t b) (hawake : s.asleep t = none)
    (hfor : ∀ dev sector, (s.buf b).IsFor dev sector → (s'.buf b).IsFor dev sector)
    (hbusy : (s'.buf b).busy ≠ none) (hqueue : b ∈ s.idequeue → b ∈ s'.idequeue)
    (hasleep : s.asleep u = some c) :
    s.asleep u = some c ∧ u ≠ t ∧ c ≠ b ∨ s'.Waits u c := by
  have hut : u ≠ t := by
    rintro rfl
    cases hawake.symm.trans hasleep
  rcases eq_or_ne c b with rfl | hne
  · refine .inr ?_
    rw [Waits, hc.place u hut]
    rcases h.asleep u c hasleep with ⟨d, k, hplace, hlt, hisfor, -⟩ | ⟨hplace, hmem⟩
    · exact .inl ⟨d, k, hplace, hlt, hfor d k hisfor, hbusy⟩
    · exact .inr ⟨hplace, hqueue hmem⟩
  · exact .inl ⟨hasleep, hut, hne⟩

/-- The command stays that of the first buffer of the queue. -/
theorem command_of_not_mem (h : s.Inv) (hqueue : s'.idequeue = s.idequeue)
    (hcommand : s'.command = s.command) (hbuf : ∀ c ∈ s.idequeue, s'.buf c = s.buf c) :
    s'.command = s'.idequeue.head?.map fun b ↦ (s'.buf b).command := by
  rw [hcommand, h.command, hqueue]
  cases hq : s.idequeue with
  | nil => rfl
  | cons c rest =>
    rw [hq] at hbuf
    rw [List.head?_cons, Option.map_some, Option.map_some, hbuf c List.mem_cons_self]

end Inv

/-- Nothing changes but a buffer, the ring, the places and who sleeps. -/
theorem Change.of_buf (hbuf : ∀ c, c ≠ b → s'.buf c = s.buf c)
    (hplace : ∀ u, u ≠ t → s'.place u = s.place u) (hqueue : s'.idequeue = s.idequeue)
    (hdisk : s'.sectors = s.sectors) (hunits : s'.havedisk1 = s.havedisk1)
    (herred : s'.erred = s.erred)
    (howner : b < NBUF → ∀ u, (s.buf b).busy = some u → u = t)
    (habout : s'.place t = s.place t ∨ ∀ c, (s.place t).About c → c = b) : Change s s' t b :=
  ⟨hbuf, hplace, fun _ _ ↦ by rw [hqueue], hunits, herred ▸ id, fun _ _ _ _ ↦ by rw [hdisk],
    howner, habout⟩

/-- A process outside is about no buffer. -/
theorem not_about_out (hl : l = .out) (c : ℕ) (h : l.About c) : c = b := by
  subst hl
  rcases h with h | h | h <;> cases h

theorem not_about_bget (hl : l = .bget dev sector) (c : ℕ) (h : l.About c) : c = b := by
  subst hl
  rcases h with h | h | h <;> cases h

namespace Inv

/-- Who uses a buffer finds it done. -/
theorem done_of_uses (h : s.Inv) (huse : s.Uses t b) : (s.buf b).Done := by
  obtain ⟨hout, hlt, hbusy⟩ := huse
  refine ((h.buf b hlt).held t hbusy).resolve_right fun habout ↦ ?_
  rw [hout] at habout
  rcases habout with h | h | h <;> cases h

/-- **A buffer that is not queued** is changed by process `t`, which has it before or after. -/
theorem setBuf (h : s.Inv) (hlt : b < NBUF) (hqueue : b ∉ s.idequeue) {e : Buf τ} {links : Links ℕ}
    {place : τ → Place} {asleep : τ → Option ℕ}
    (hring : ∃ l, links.IsRing HEAD l ∧ l.Perm (List.range NBUF))
    (howner : ∀ u, (s.buf b).busy = some u → u = t) (howner' : ∀ u, e.busy = some u → u = t)
    (hplace : ∀ u, u ≠ t → place u = s.place u)
    (habout : place t = s.place t ∨ ∀ c, (s.place t).About c → c = b)
    (hkey : (e.dev = (s.buf b).dev ∧ e.sector = (s.buf b).sector) ∨
      ∀ c < NBUF, c ≠ b → ¬ (s.buf c).IsFor e.dev e.sector)
    (hpresent : e.busy ≠ none → s.Present e.dev e.sector) (hspare : e.busy = none → s.Spare e)
    (hheld : e.Done ∨ (place t).About b)
    (hdata : s.erred = false → e.Done → e.changed = false →
      e.data = s.sectors (address e.dev e.sector))
    (hknows : place t = .out ∨ e.busy = some t ∧ e.changed = false ∧
      (place t = .bread b ∧ e.dirty = false ∨ place t = .iderw b ∧ ¬ e.Done))
    (hasleep : ∀ u c, asleep u = some c → s.asleep u = some c ∧ u ≠ t ∧
      (c = b → e.busy ≠ none ∧ e.dev = (s.buf b).dev ∧ e.sector = (s.buf b).sector)) :
    State.Inv { s with
      buf := Function.update s.buf b e, links := links, place := place, asleep := asleep } := by
  generalize hs' : ({ s with
    buf := Function.update s.buf b e, links := links, place := place, asleep := asleep } :
      State τ) = s'
  have hself : s'.buf b = e := by rw [← hs']; exact Function.update_self ..
  have hplace' : s'.place = place := by rw [← hs']
  have hsame : s'.idequeue = s.idequeue ∧ s'.sectors = s.sectors ∧ s'.havedisk1 = s.havedisk1 ∧
      s'.command = s.command ∧ s'.links = links ∧ s'.asleep = asleep ∧ s'.erred = s.erred := by
    rw [← hs']
    exact ⟨rfl, rfl, rfl, rfl, rfl, rfl, rfl⟩
  have hother : ∀ c, c ≠ b → s'.buf c = s.buf c := fun c hne ↦ by
    rw [← hs']
    exact Function.update_of_ne hne ..
  obtain ⟨hqueue', hdisk, hunits, hcommand, hlinks, hasleep', herred⟩ := hsame
  have hc : Change s s' t b := by
    refine .of_buf hother ?_ hqueue' hdisk hunits herred (fun _ ↦ howner) ?_
    · rwa [hplace']
    · rwa [hplace']
  refine h.change hc (by rwa [hlinks]) (by rwa [hself]) (fun _ ↦ ?_) ?_
    (by rw [hqueue']; exact h.nodup)
    (fun hmem ↦ absurd (hqueue' ▸ hmem) hqueue) ?_ fun u c hu ↦ ?_
  · refine ⟨?_, ?_, fun u hu ↦ ?_, ?_⟩
    · rw [hself, hc.present_iff]
      exact hpresent
    · rw [hself, hc.spare_iff]
      exact hspare
    · rw [hself] at hu ⊢
      rw [howner' u hu, hplace']
      exact hheld
    · rw [hself, hdisk, herred]
      exact hdata
  · rw [hplace']
    rcases hknows with hout | ⟨hbusy, hchanged, ⟨hl, hdirty⟩ | ⟨hl, hdone⟩⟩
    · rw [hout]
      exact trivial
    · rw [hl, Knows, hself, hqueue']
      exact ⟨hlt, hbusy, hdirty, hchanged, hqueue⟩
    · rw [hl, Knows, hself, hqueue']
      exact ⟨hlt, hbusy, hdone, hchanged, hqueue⟩
  · refine h.command_of_not_mem hqueue' hcommand fun c hmem ↦ hother c ?_
    rintro rfl
    exact hqueue hmem
  · rw [hasleep'] at hu
    obtain ⟨hold, hut, hkeep⟩ := hasleep u c hu
    rcases eq_or_ne c b with rfl | hne
    · refine .inr ?_
      obtain ⟨hbusy, hdev, hsector⟩ := hkeep rfl
      rw [Waits, hc.place u hut, hself, hqueue']
      refine (h.asleep u c hold).imp_left ?_
      rintro ⟨d, k, hl, hlt, ⟨hd, hk⟩, -⟩
      exact ⟨d, k, hl, hlt, ⟨hdev.trans hd, hsector.trans hk⟩, hbusy⟩
    · exact .inl ⟨hold, hut, hne⟩

end Inv

variable [DecidableEq τ]

theorem goto_place_self (s : State τ) (t : τ) (l : Place) : (s.goto t l).place t = l :=
  Function.update_self ..

theorem goto_place_of_ne (s : State τ) {t u : τ} (h : u ≠ t) (l : Place) :
    (s.goto t l).place u = s.place u := Function.update_of_ne h ..

theorem request_cases (s : State τ) (t : τ) (b : ℕ) :
    s.request t b = s.goto t .out ∨ s.request t b = s.sleep t b := by
  rw [request]
  split_ifs
  · exact .inl rfl
  · exact .inr rfl

/-- `iderw` only puts the buffer into the queue. -/
theorem iderw_cases (hstep : s.iderw t b = .ok s') : ∃ command, s' =
    (({ s with idequeue := s.idequeue ++ [b], command := command } : State τ).goto t
      (.request b)).request t b := by
  rw [iderw] at hstep
  split_ifs at hstep
  · exact ⟨_, (Except.ok.inj hstep).symm⟩
  · exact ⟨_, (Except.ok.inj hstep).symm⟩

omit [DecidableEq τ] in
/-- The interrupt moves neither a buffer nor a process. -/
theorem ideintr_frame (s : State τ) (failed : Bool) :
    (s.ideintr failed).links = s.links ∧ (s.ideintr failed).place = s.place := by
  have hcomplete : (s.complete failed).links = s.links ∧ (s.complete failed).place = s.place := by
    rw [complete.eq_def]
    split <;> exact ⟨rfl, rfl⟩
  rw [State.ideintr.eq_def]
  cases s.idequeue with
  | nil => exact ⟨rfl, rfl⟩
  | cons b rest => cases rest <;> exact hcomplete

theorem not_head_lt : ¬ HEAD < NBUF := lt_irrefl NBUF

namespace Inv

/-- A call of `bread`. -/
theorem bread (h : s.Inv) (hout : s.place t = .out) (hpresent : s.Present dev sector) :
    (s.goto t (.bget dev sector)).Inv := by
  have hc : Change s (s.goto t (.bget dev sector)) t HEAD :=
    .of_buf (fun _ _ ↦ rfl) (fun u hu ↦ goto_place_of_ne s hu _) rfl rfl rfl rfl
      (fun hlt ↦ absurd hlt not_head_lt) (.inr (not_about_out hout))
  refine h.change hc h.ring (.inl ⟨rfl, rfl⟩) (fun hlt ↦ absurd hlt not_head_lt) ?_ h.nodup
    (fun hmem ↦ absurd (h.lt_of_queue hmem) not_head_lt) ?_ fun u c hu ↦ .inl ⟨hu, ?_, ?_⟩
  · rw [goto_place_self]
    exact hpresent
  · exact h.command_of_not_mem rfl rfl fun _ _ ↦ rfl
  · rintro rfl
    cases (h.awake_of_out hout).symm.trans hu
  · rintro rfl
    exact not_head_lt (h.lt_of_asleep hu)

/-- A process is killed, and so woken. -/
theorem kill (h : s.Inv) (t : τ) :
    State.Inv { s with asleep := Function.update s.asleep t none } := by
  have hc : Change s { s with asleep := Function.update s.asleep t none } t HEAD :=
    .of_buf (fun _ _ ↦ rfl) (fun _ _ ↦ rfl) rfl rfl rfl rfl (fun hlt ↦ absurd hlt not_head_lt)
      (.inl rfl)
  refine h.change hc h.ring (.inl ⟨rfl, rfl⟩) (fun hlt ↦ absurd hlt not_head_lt) (h.knows t) h.nodup
    (fun hmem ↦ absurd (h.lt_of_queue hmem) not_head_lt) ?_ fun u c hu ↦ ?_
  · exact h.command_of_not_mem rfl rfl fun _ _ ↦ rfl
  · change Function.update s.asleep t none u = some c at hu
    rcases eq_or_ne u t with rfl | hne
    · rw [Function.update_self] at hu
      cases hu
    · rw [Function.update_of_ne hne] at hu
      refine .inl ⟨hu, hne, ?_⟩
      rintro rfl
      exact not_head_lt (h.lt_of_asleep hu)

omit [DecidableEq τ] in
/-- The data of a buffer is changed. -/
theorem modify (h : s.Inv) (huse : s.Uses t b) (data : Block) :
    (s.setBuf b { s.buf b with data := data, changed := true }).Inv := by
  have hdone := h.done_of_uses huse
  obtain ⟨hout, hlt, hbusy⟩ := huse
  have howner : ∀ u, (s.buf b).busy = some u → u = t := fun u hu ↦
    Option.some.inj (hu.symm.trans hbusy)
  refine h.setBuf (t := t) hlt (h.not_queued hbusy (by rw [hout]; exact nofun)) h.ring howner howner
    (fun _ _ ↦ rfl) (.inl rfl) (.inl ⟨rfl, rfl⟩) (h.buf b hlt).present
    (fun hfree ↦ absurd (hfree.symm.trans hbusy) nofun) (.inl hdone) nofun (.inl hout)
    fun u c hu ↦ ⟨hu, ?_, fun _ ↦ ⟨?_, rfl, rfl⟩⟩
  · rintro rfl
    cases (h.awake_of_out hout).symm.trans hu
  · rw [hbusy]
    exact nofun

/-- **`bwrite`** is called. -/
theorem bwrite (h : s.Inv) (huse : s.Uses t b) :
    ∃ s', s.bwrite t b = .ok s' ∧ s'.Inv := by
  obtain ⟨hout, hlt, hbusy⟩ := huse
  have howner : ∀ u, (s.buf b).busy = some u → u = t := fun u hu ↦
    Option.some.inj (hu.symm.trans hbusy)
  have hused : (s.buf b).busy ≠ none := by
    rw [hbusy]
    exact nofun
  refine ⟨_, if_neg hused, h.setBuf (t := t) hlt
    (h.not_queued hbusy (by rw [hout]; exact nofun)) h.ring
    howner howner (fun u hu ↦ Function.update_of_ne hu ..) (.inr (not_about_out hout))
    (.inl ⟨rfl, rfl⟩) (h.buf b hlt).present (fun hfree ↦ absurd hfree hused) (.inr ?_) ?_
    (.inr ⟨hbusy, rfl, .inr ⟨Function.update_self .., ?_⟩⟩)
    fun u c hu ↦ ⟨hu, ?_, fun _ ↦ ⟨hused, rfl, rfl⟩⟩⟩
  · exact .inr (.inl (Function.update_self ..))
  · rintro - ⟨-, hdirty⟩
    cases hdirty
  · rintro ⟨-, hdirty⟩
    cases hdirty
  · rintro rfl
    cases (h.awake_of_out hout).symm.trans hu

omit [DecidableEq τ] in
/-- **`brelse`** of a buffer that is as it is on the disk. -/
theorem brelse (h : s.Inv) (huse : s.Uses t b) (hchanged : (s.buf b).changed = false) :
    ∃ s', s.brelse b = .ok s' ∧ s'.Inv := by
  have hdone := h.done_of_uses huse
  obtain ⟨hout, hlt, hbusy⟩ := huse
  have howner : ∀ u, (s.buf b).busy = some u → u = t := fun u hu ↦
    Option.some.inj (hu.symm.trans hbusy)
  have hused : (s.buf b).busy ≠ none := by
    rw [hbusy]
    exact nofun
  obtain ⟨l, hl, hperm⟩ := h.ring
  have hmem : b ∈ l := hperm.mem_iff.2 (List.mem_range.2 hlt)
  refine ⟨_, if_neg hused, h.setBuf (t := t) hlt (h.not_queued hbusy (by rw [hout]; exact nofun))
    ⟨b :: l.erase b, hl.moveFront hmem, (List.perm_cons_erase hmem).symm.trans hperm⟩
    howner nofun (fun _ _ ↦ rfl) (.inl rfl) (.inl ⟨rfl, rfl⟩) (fun hno ↦ absurd rfl hno)
    (fun _ ↦ ⟨.inr ⟨(h.buf b hlt).present hused, hdone⟩, hdone.2, hchanged⟩) (.inl hdone)
    (h.buf b hlt).data (.inl hout) fun u c hu ↦ ?_⟩
  change (if s.asleep u = some b then none else s.asleep u) = some c at hu
  split_ifs at hu with hb
  refine ⟨hu, ?_, ?_⟩
  · rintro rfl
    cases (h.awake_of_out hout).symm.trans hu
  · rintro rfl
    exact absurd hu hb

/-- **What `bget` does**: it takes the buffer of the sector, or waits for it, or recycles one that
nobody has, or panics because there is none. -/
theorem bget_cases (h : s.Inv) (t : τ) (dev sector : ℕ) :
    (∃ b < NBUF, (s.buf b).IsFor dev sector ∧ (s.buf b).busy = none ∧ s.bget t dev sector =
      .ok ((s.setBuf b { s.buf b with busy := some t }).goto t (.bread b))) ∨
    (∃ b < NBUF, (s.buf b).IsFor dev sector ∧ (s.buf b).busy ≠ none ∧
      s.bget t dev sector = .ok (s.sleep t b)) ∨
    (∃ b < NBUF, (∀ c < NBUF, ¬ (s.buf c).IsFor dev sector) ∧ (s.buf b).busy = none ∧
      s.bget t dev sector = .ok ((s.setBuf b { s.buf b with
        dev := dev, sector := sector, busy := some t, valid := false, dirty := false }).goto t
          (.bread b))) ∨
    s.bget t dev sector = .error "bget: no buffers" ∧ s.Full dev sector := by
  obtain ⟨l, hl, hperm⟩ := h.ring
  have hmem : ∀ b, b ∈ l ↔ b < NBUF := fun b ↦ hperm.mem_iff.trans List.mem_range
  have hfuel : l.length < NBUF + 1 := by
    rw [hperm.length_eq, List.length_range]
    exact Nat.lt_succ_self NBUF
  rw [bget, hl.search_next hfuel, hl.search_prev hfuel]
  cases hfind : l.find? fun b ↦ decide ((s.buf b).IsFor dev sector) with
  | some b =>
    have hb := (hmem b).1 (List.mem_of_find?_eq_some hfind)
    have hfor : (s.buf b).IsFor dev sector := of_decide_eq_true (List.find?_some
      (p := fun b ↦ decide ((s.buf b).IsFor dev sector)) hfind)
    by_cases hbusy : (s.buf b).busy = none
    · exact .inl ⟨b, hb, hfor, hbusy, if_pos hbusy⟩
    · exact .inr (.inl ⟨b, hb, hfor, hbusy, if_neg hbusy⟩)
  | none =>
    have hnone : ∀ c < NBUF, ¬ (s.buf c).IsFor dev sector := fun c hc hfor ↦
      List.find?_eq_none.1 hfind c ((hmem c).2 hc) (decide_eq_true hfor)
    simp only
    cases hfree : l.reverse.find? fun b ↦ decide ((s.buf b).busy = none) with
    | some b =>
      have hb := (hmem b).1 (List.mem_reverse.1 (List.mem_of_find?_eq_some hfree))
      have hbusy : (s.buf b).busy = none := of_decide_eq_true (List.find?_some
        (p := fun b ↦ decide ((s.buf b).busy = none)) hfree)
      exact .inr (.inr (.inl ⟨b, hb, hnone, hbusy, rfl⟩))
    | none =>
      refine .inr (.inr (.inr ⟨rfl, fun b hb ↦ ⟨fun hbusy ↦ ?_, hnone b hb⟩⟩))
      exact List.find?_eq_none.1 hfree b (List.mem_reverse.2 ((hmem b).2 hb))
        (decide_eq_true hbusy)

/-- A process that finds a reason to wait goes to sleep. -/
theorem sleep (h : s.Inv) (hwaits : s.Waits t b) : (s.sleep t b).Inv := by
  have hc : Change s (s.sleep t b) t HEAD :=
    .of_buf (fun _ _ ↦ rfl) (fun _ _ ↦ rfl) rfl rfl rfl rfl (fun hlt ↦ absurd hlt not_head_lt)
      (.inl rfl)
  refine h.change hc h.ring (.inl ⟨rfl, rfl⟩) (fun hlt ↦ absurd hlt not_head_lt) (h.knows t) h.nodup
    (fun hmem ↦ absurd (h.lt_of_queue hmem) not_head_lt) ?_ fun u c hu ↦ ?_
  · exact h.command_of_not_mem rfl rfl fun _ _ ↦ rfl
  · change Function.update s.asleep t (some b) u = some c at hu
    rcases eq_or_ne u t with rfl | hne
    · rw [Function.update_self] at hu
      obtain rfl := Option.some.inj hu
      exact .inr hwaits
    · rw [Function.update_of_ne hne] at hu
      refine .inl ⟨hu, hne, ?_⟩
      rintro rfl
      exact not_head_lt (h.lt_of_asleep hu)

/-- **`bget`** goes on. -/
theorem bget (h : s.Inv) (hl : s.place t = .bget dev sector) (hawake : s.asleep t = none) :
    (∃ s', s.bget t dev sector = .ok s' ∧ s'.Inv) ∨
      s.bget t dev sector = .error "bget: no buffers" ∧ s.Full dev sector := by
  have hpresent : s.Present dev sector := by
    have hknows := h.knows t
    rwa [hl] at hknows
  have hnotqueued : ∀ {b}, (s.buf b).busy = none → b ∉ s.idequeue := fun hbusy hmem ↦ by
    obtain ⟨u, hu⟩ := h.queue _ hmem
    have hknows := h.knows u
    rw [hu] at hknows
    cases hbusy.symm.trans hknows.2.1
  have hplace : ∀ b, ∀ u, u ≠ t → Function.update s.place t (.bread b) u = s.place u :=
    fun b u hu ↦ Function.update_of_ne hu ..
  rcases h.bget_cases t dev sector with ⟨b, hlt, ⟨hdev, hsector⟩, hbusy, heq⟩ |
    ⟨b, hlt, hfor, hbusy, heq⟩ | ⟨b, hlt, hnone, hbusy, heq⟩ | ⟨heq, hall⟩
  · obtain ⟨-, hdirty, hchanged⟩ := (h.buf b hlt).spare hbusy
    refine .inl ⟨_, heq, h.setBuf (t := t) hlt (hnotqueued hbusy) h.ring
      (fun u hu ↦ by cases hbusy.symm.trans hu) (fun u hu ↦ (Option.some.inj hu).symm) (hplace b)
      (.inr (not_about_bget hl)) (.inl ⟨rfl, rfl⟩) (fun _ ↦ ?_) nofun
      (.inr (.inl (Function.update_self ..))) (h.buf b hlt).data
      (.inr ⟨rfl, hchanged, .inl ⟨Function.update_self .., hdirty⟩⟩) fun u c hu ↦ ⟨hu, ?_, ?_⟩⟩
    · show s.Present (s.buf b).dev (s.buf b).sector
      rwa [hdev, hsector]
    · rintro rfl
      cases hawake.symm.trans hu
    · rintro rfl
      exact absurd hu (h.not_asleep_of_free hbusy u)
  · refine .inl ⟨_, heq, h.sleep (.inl ⟨dev, sector, hl, hlt, hfor, hbusy⟩)⟩
  · obtain ⟨-, -, hchanged⟩ := (h.buf b hlt).spare hbusy
    refine .inl ⟨_, heq, h.setBuf (t := t) hlt (hnotqueued hbusy) h.ring
      (fun u hu ↦ by cases hbusy.symm.trans hu) (fun u hu ↦ (Option.some.inj hu).symm) (hplace b)
      (.inr (not_about_bget hl)) (.inr fun c hc _ ↦ hnone c hc) (fun _ ↦ hpresent) nofun
      (.inr (.inl (Function.update_self ..))) ?_
      (.inr ⟨rfl, hchanged, .inl ⟨Function.update_self .., rfl⟩⟩) fun u c hu ↦ ⟨hu, ?_, ?_⟩⟩
    · rintro - ⟨hvalid, -⟩
      cases hvalid
    · rintro rfl
      cases hawake.symm.trans hu
    · rintro rfl
      exact absurd hu (h.not_asleep_of_free hbusy u)
  · exact .inr ⟨heq, hall⟩

/-- A process that is about a buffer goes on, and leaves the buffer as it is. -/
theorem goto (h : s.Inv) (habout : (s.place t).About b) (hawake : s.asleep t = none)
    (hqueue : b ∉ s.idequeue) (hl : l = .out ∧ (s.buf b).Done ∨ l = .iderw b ∧ ¬ (s.buf b).Done)
    (hchanged : (s.buf b).changed = false) : (s.goto t l).Inv := by
  obtain ⟨hlt, hbusy⟩ := (h.knows t).busy habout
  have howner : ∀ u, (s.buf b).busy = some u → u = t := fun u hu ↦
    Option.some.inj (hu.symm.trans hbusy)
  have honly : ∀ c, (s.place t).About c → c = b := by
    intro c hc
    rcases habout with hl | hl | hl <;> rcases hc with hl' | hl' | hl' <;>
      cases hl.symm.trans hl' <;> rfl
  have hused : (s.buf b).busy ≠ none := by
    rw [hbusy]
    exact nofun
  have hself : Function.update s.place t l t = l := Function.update_self ..
  have hgoto := h.setBuf (t := t) (e := s.buf b) hlt hqueue h.ring howner howner
    (fun u hu ↦ Function.update_of_ne (v := l) hu s.place) (.inr honly) (.inl ⟨rfl, rfl⟩)
    (h.buf b hlt).present (fun hfree ↦ absurd hfree hused) ?_ (h.buf b hlt).data ?_
    fun u c (hu : s.asleep u = some c) ↦ ⟨hu, ?_, fun _ ↦ ⟨hused, rfl, rfl⟩⟩
  · rwa [Function.update_eq_self] at hgoto
  · rw [hself]
    exact hl.imp And.right fun hl ↦ .inr (.inl hl.1)
  · rw [hself]
    exact hl.imp And.left fun hl ↦ ⟨hbusy, hchanged, .inr hl⟩
  · rintro rfl
    cases hawake.symm.trans hu

/-- **`bread`** returns a buffer that is valid, and calls `iderw` for another one. -/
theorem breadReturn (h : s.Inv) (hl : s.place t = .bread b) (hawake : s.asleep t = none) :
    (s.goto t (if (s.buf b).valid then .out else .iderw b)).Inv := by
  have hknows := h.knows t
  rw [hl] at hknows
  obtain ⟨-, -, hdirty, hchanged, hqueue⟩ := hknows
  refine h.goto (.inl hl) hawake hqueue ?_ hchanged
  split_ifs with hvalid
  · exact .inl ⟨rfl, hvalid, hdirty⟩
  · exact .inr ⟨rfl, fun hdone ↦ hvalid hdone.1⟩

/-- **The loop** at the end of `iderw`. -/
theorem request (h : s.Inv) (hl : s.place t = .request b) (hawake : s.asleep t = none) :
    (s.request t b).Inv := by
  have hknows := h.knows t
  rw [hl] at hknows
  obtain ⟨-, -, hchanged, hqueue⟩ := hknows
  rw [State.request]
  split_ifs with hdone
  · exact h.goto (.inr (.inr hl)) hawake (fun hmem ↦ hqueue.1 hmem hdone) (.inl ⟨rfl, hdone⟩)
      hchanged
  · exact h.sleep (.inr ⟨hl, hqueue.2 hdone⟩)

/-- **`iderw`** puts the buffer at the end of the queue, and does not panic. -/
theorem iderw (h : s.Inv) (hl : s.place t = .iderw b) (hawake : s.asleep t = none) :
    ∃ s', s.iderw t b = .ok s' ∧ s'.Inv := by
  have hknows := h.knows t
  rw [hl] at hknows
  obtain ⟨hlt, hbusy, hdone, hchanged, hqueue⟩ := hknows
  have hused : (s.buf b).busy ≠ none := by
    rw [hbusy]
    exact nofun
  have hunit : ¬ ((s.buf b).dev ≠ 0 ∧ s.havedisk1 = false) := by
    rintro ⟨hdev, hno⟩
    rcases ((h.buf b hlt).present hused).1 with hzero | ⟨-, hyes⟩
    · exact hdev hzero
    · cases hno.symm.trans hyes
  have hok : s.iderw t b = .ok { s with
      idequeue := s.idequeue ++ [b]
      command := if s.idequeue = [] then some (s.buf b).command else s.command
      place := Function.update s.place t (.request b)
      asleep := Function.update s.asleep t (some b) } := by
    rw [State.iderw, if_neg hused, if_neg hdone, if_neg hunit]
    by_cases hq : s.idequeue = []
    · simp only [if_pos hq]
      exact congrArg Except.ok (if_neg hdone)
    · simp only [if_neg hq]
      exact congrArg Except.ok (if_neg hdone)
  refine ⟨_, hok, ?_⟩
  clear hok
  have hself : Function.update s.place t (.request b) t = .request b := Function.update_self ..
  have hmem : b ∈ s.idequeue ++ [b] := List.mem_append_right _ List.mem_cons_self
  generalize hs' : ({ s with
      idequeue := s.idequeue ++ [b]
      command := if s.idequeue = [] then some (s.buf b).command else s.command
      place := Function.update s.place t (.request b)
      asleep := Function.update s.asleep t (some b) } : State τ) = s'
  have hc : Change s s' t b := by
    refine ⟨fun c _ ↦ ?_, fun u hu ↦ ?_, fun c hc ↦ ?_, ?_, ?_, fun _ _ _ _ ↦ ?_, fun _ u hu ↦ ?_,
      .inr fun c hc ↦ ?_⟩
    · rw [← hs']
    · rw [← hs']
      exact Function.update_of_ne hu ..
    · rw [← hs']
      simp [hc]
    · rw [← hs']
    · rw [← hs']
      exact id
    · rw [← hs']
    · exact Option.some.inj (hu.symm.trans hbusy)
    · rw [hl] at hc
      rcases hc with hc | hc | hc <;> cases hc
      rfl
  have hbuf' : s'.buf = s.buf := by rw [← hs']
  have hplace' : s'.place t = .request b := by
    rw [← hs']
    exact hself
  have hqueue' : s'.idequeue = s.idequeue ++ [b] := by rw [← hs']
  refine h.change hc (by rw [← hs']; exact h.ring) (.inl (by rw [hbuf']; exact ⟨rfl, rfl⟩))
    (fun _ ↦ ?_) ?_ ?_ (fun _ ↦ hplace') ?_ fun u c hu ↦ ?_
  · refine ⟨?_, fun hfree ↦ absurd (hbuf' ▸ hfree) hused, fun u hu ↦ ?_, fun _ hyes ↦ ?_⟩
    · rw [hbuf', hc.present_iff]
      exact (h.buf b hlt).present
    · rw [hbuf', hbusy] at hu
      obtain rfl := Option.some.inj hu
      exact .inr (.inr (.inr hplace'))
    · exact absurd (hbuf' ▸ hyes) hdone
  · rw [hplace', Knows, hbuf', hqueue']
    exact ⟨hlt, hbusy, hchanged, iff_of_true hmem hdone⟩
  · rw [hqueue', ← List.concat_eq_append]
    exact h.nodup.concat hqueue
  · rw [hqueue', hbuf', ← hs']
    cases hq : s.idequeue with
    | nil => rfl
    | cons c rest =>
      rw [if_neg (List.cons_ne_nil c rest), h.command, hq]
      rfl
  · rw [← hs'] at hu
    change Function.update s.asleep t (some b) u = some c at hu
    rcases eq_or_ne u t with rfl | hne
    · rw [Function.update_self] at hu
      obtain rfl := Option.some.inj hu
      exact .inr (.inr ⟨hplace', by rw [hqueue']; exact hmem⟩)
    · rw [Function.update_of_ne hne] at hu
      refine h.keeps_asleep hc hawake (fun d k hfor ↦ by rwa [hbuf']) (by rwa [hbuf'])
        (fun hno ↦ absurd hno hqueue) hu

end Inv

/-- The first buffer of the queue as the interrupt leaves it. -/
def handled (s : State τ) (b : ℕ) (failed : Bool) : Buf τ := { s.buf b with
  valid := true
  dirty := false
  data := if (s.buf b).dirty = false ∧ failed = false then
      s.sectors (address (s.buf b).dev (s.buf b).sector)
    else (s.buf b).data }

/-- The disks after the command for `b`. -/
def written (s : State τ) (b : ℕ) (failed : Bool) : ℕ × ℕ → Block :=
  if (s.buf b).dirty = true ∧ failed = false then
    Function.update s.sectors (address (s.buf b).dev (s.buf b).sector) (s.buf b).data
  else s.sectors

namespace Inv

omit [DecidableEq τ] in
/-- What the interrupt does. -/
theorem ideintr_eq (h : s.Inv) {rest : List ℕ} (hq : s.idequeue = b :: rest) (failed : Bool) :
    s.ideintr failed = { s with
      buf := Function.update s.buf b (s.handled b failed)
      idequeue := rest
      command := rest.head?.map fun c ↦ (s.buf c).command
      sectors := s.written b failed
      asleep := fun t ↦ if s.asleep t = some b then none else s.asleep t
      erred := s.erred || failed } := by
  have hcommand := h.command
  rw [hq, List.head?_cons, Option.map_some, Buf.command] at hcommand
  have hnodup := h.nodup
  rw [hq] at hnodup
  have hnext : ∀ (c : ℕ) (rest' : List ℕ) (e : Buf τ), rest = c :: rest' →
      Function.update s.buf b e c = s.buf c := fun c rest' e hrest ↦ by
    refine Function.update_of_ne ?_ ..
    rintro rfl
    exact (List.nodup_cons.1 hnodup).1 (hrest ▸ List.mem_cons_self)
  rw [State.ideintr, hq]
  cases hdirty : (s.buf b).dirty <;> cases rest <;> cases failed <;>
    simp [complete, input, idewait, handled, written, hcommand, hdirty, State.setBuf, wakeup,
      idestart, hnext]

omit [DecidableEq τ] in
/-- A buffer that is done holds a sector that is there. -/
theorem present_of_done (h : s.Inv) (hlt : b < NBUF) (hdone : (s.buf b).Done) :
    s.Present (s.buf b).dev (s.buf b).sector := by
  by_cases hbusy : (s.buf b).busy = none
  · rcases ((h.buf b hlt).spare hbusy).1 with ⟨-, hvalid⟩ | ⟨hpresent, -⟩
    · cases hvalid.symm.trans hdone.1
    · exact hpresent
  · exact (h.buf b hlt).present hbusy

omit [DecidableEq τ] in
/-- Sectors that are there have different addresses. -/
theorem address_ne (h : s.Inv) (hlt : b < NBUF) (hlt' : c < NBUF) (hne : c ≠ b)
    (hb : s.Present (s.buf b).dev (s.buf b).sector)
    (hc : s.Present (s.buf c).dev (s.buf c).sector) :
    address (s.buf c).dev (s.buf c).sector ≠ address (s.buf b).dev (s.buf b).sector := by
  intro heq
  obtain ⟨hunit, hsector⟩ := Prod.mk.inj heq
  rw [Nat.mod_eq_of_lt hb.2, Nat.mod_eq_of_lt hc.2] at hsector
  refine h.unique b hlt c hlt' hne.symm hb ⟨?_, hsector⟩
  rcases hb.1 with hb | ⟨hb, -⟩ <;> rcases hc.1 with hc | ⟨hc, -⟩ <;> rw [hb, hc] at hunit ⊢ <;>
    cases hunit

omit [DecidableEq τ] in
/-- **The interrupt**, whether the disk has failed or not. -/
theorem ideintr (h : s.Inv) (failed : Bool) : (s.ideintr failed).Inv := by
  cases hq : s.idequeue with
  | nil =>
    rw [State.ideintr, hq]
    exact h
  | cons b rest =>
    obtain ⟨t, hl⟩ := h.queue b (hq ▸ List.mem_cons_self)
    have hknows := h.knows t
    rw [hl] at hknows
    obtain ⟨hlt, hbusy, hchanged, hqueue⟩ := hknows
    have hused : (s.buf b).busy ≠ none := by
      rw [hbusy]
      exact nofun
    have hpresent := (h.buf b hlt).present hused
    have hnodup := h.nodup
    rw [hq] at hnodup
    obtain ⟨hrest, hnodup⟩ := List.nodup_cons.1 hnodup
    rw [h.ideintr_eq hq]
    generalize hs' : ({ s with
      buf := Function.update s.buf b (s.handled b failed)
      idequeue := rest
      command := rest.head?.map fun c ↦ (s.buf c).command
      sectors := s.written b failed
      asleep := fun t ↦ if s.asleep t = some b then none else s.asleep t
      erred := s.erred || failed } : State τ) = s'
    have hself : s'.buf b = s.handled b failed := by
      rw [← hs']
      exact Function.update_self ..
    have hplace' : s'.place = s.place := by rw [← hs']
    have hqueue' : s'.idequeue = rest := by rw [← hs']
    have herred : s'.erred = (s.erred || failed) := by rw [← hs']
    have hother : ∀ c, c ≠ b → s'.buf c = s.buf c := fun c hne ↦ by
      rw [← hs']
      exact Function.update_of_ne hne ..
    have hdisk : ∀ a, s'.sectors a = if ((s.buf b).dirty = true ∧ failed = false) ∧
        a = address (s.buf b).dev (s.buf b).sector then (s.buf b).data else s.sectors a := by
      intro a
      rw [← hs']
      change s.written b failed a = _
      rw [written]
      by_cases hwrite : (s.buf b).dirty = true ∧ failed = false
      · simp only [hwrite, and_self, true_and, if_true]
        exact Function.update_apply ..
      · rw [if_neg hwrite, if_neg fun hno ↦ hwrite hno.1]
    have hc : Change s s' t b := by
      refine ⟨hother, fun _ _ ↦ by rw [hplace'], fun c hne ↦ ?_, by rw [← hs'], fun hno ↦ ?_,
        fun c hlt' hne hdone ↦ ?_,
        fun _ u hu ↦ Option.some.inj (hu.symm.trans hbusy), .inl (by rw [hplace'])⟩
      · rw [hqueue', hq, List.mem_cons, or_iff_right hne]
      · rw [herred, Bool.or_eq_false_iff] at hno
        exact hno.1
      · rw [hdisk, if_neg]
        rintro ⟨-, heq⟩
        exact h.address_ne hlt hlt' hne hpresent (h.present_of_done hlt' hdone) heq
    refine h.change hc (by rw [← hs']; exact h.ring) (.inl (by rw [hself]; exact ⟨rfl, rfl⟩))
      (fun _ ↦ ?_) ?_ (by rwa [hqueue']) (fun _ ↦ by rwa [hplace']) ?_ fun u c hu ↦ ?_
    · refine ⟨?_, fun hfree ↦ ?_, fun _ _ ↦ .inl ?_, fun hno _ _ ↦ ?_⟩
      · rw [hself, hc.present_iff]
        exact fun _ ↦ hpresent
      · rw [hself] at hfree
        exact absurd hfree hused
      · rw [hself]
        exact ⟨rfl, rfl⟩
      · -- What was read is in the buffer, what was written is on the disk.
        rw [herred, Bool.or_eq_false_iff] at hno
        rw [hself, hdisk]
        simp only [handled, hno.2, and_true]
        cases (s.buf b).dirty <;> rfl
    · rw [hplace', hl, Knows, hself, hqueue']
      exact ⟨hlt, hbusy, hchanged, iff_of_false hrest (not_not.2 ⟨rfl, rfl⟩)⟩
    · rw [hqueue']
      cases rest with
      | nil => rw [← hs']; rfl
      | cons c rest =>
        rw [List.head?_cons, Option.map_some, hother c, ← hs']
        · rfl
        · rintro rfl
          exact hrest List.mem_cons_self
    · rw [← hs'] at hu
      change (if s.asleep u = some b then none else s.asleep u) = some c at hu
      split_ifs at hu with hwoken
      have hcb : c ≠ b := by
        rintro rfl
        exact hwoken hu
      refine .inl ⟨hu, ?_, hcb⟩
      rintro rfl
      rcases h.asleep u c hu with ⟨_, _, hl', -⟩ | ⟨hl', -⟩
      · cases hl.symm.trans hl'
      · exact hcb (Place.request.inj (hl'.symm.trans hl))

/-- **One step** keeps the invariant, or `bget` finds no buffer. -/
theorem step_spec (h : s.Inv) {a : Act τ} (hmay : s.May a) :
    (∃ s', s.step a = .ok s' ∧ s'.Inv) ∨
      s.step a = .error "bget: no buffers" ∧
        ∃ t dev sector, a = .run t ∧ s.place t = .bget dev sector ∧ s.Full dev sector := by
  cases a with
  | bread t dev sector => exact .inl ⟨_, rfl, h.bread hmay.1 hmay.2⟩
  | modify t b data => exact .inl ⟨_, rfl, h.modify hmay data⟩
  | bwrite t b => exact .inl (h.bwrite hmay)
  | brelse t b => exact .inl (h.brelse hmay.1 hmay.2)
  | ideintr failed => exact .inl ⟨_, rfl, h.ideintr failed⟩
  | kill t => exact .inl ⟨_, rfl, h.kill t⟩
  | run t =>
    obtain ⟨hin, hawake⟩ := hmay
    rw [step, State.run]
    cases hl : s.place t with
    | out => exact absurd hl hin
    | bget dev sector =>
      exact (h.bget hl hawake).imp id fun herr ↦ ⟨herr.1, t, dev, sector, rfl, hl, herr.2⟩
    | bread b => exact .inl ⟨_, rfl, h.breadReturn hl hawake⟩
    | iderw b => exact .inl (h.iderw hl hawake)
    | request b => exact .inl ⟨_, rfl, h.request hl hawake⟩

end Inv

/-! ### Any order of steps -/

/-- After `binit` all buffers are in the ring, the last one in front. -/
theorem isRing_binit (r : Links ℕ) : (binit r).IsRing HEAD (List.range NBUF).reverse := by
  have hring : ((r.setPrev HEAD HEAD).setNext HEAD HEAD).IsRing HEAD [] := .self
  have h : (binit r).IsRing HEAD ((List.range NBUF).reverse ++ []) :=
    hring.foldl_pushFront (by decide)
  rwa [List.append_nil] at h

omit [DecidableEq τ] in
theorem Starts.inv (h : s.Starts) : s.Inv := by
  obtain ⟨⟨r, hlinks⟩, hbufs, hqueue, hcommand, hout, -⟩ := h
  have hempty : ∀ b, b ∉ s.idequeue := fun b hmem ↦ by
    rw [hqueue] at hmem
    cases hmem
  refine ⟨⟨_, by rw [hlinks]; exact isRing_binit r, List.reverse_perm _⟩,
    fun b _ c _ _ hpresent ↦ ?_, fun b _ ↦ ?_, fun t ↦ by rw [(hout t).1]; exact trivial,
    by rw [hqueue]; exact List.nodup_nil, fun b hmem ↦ absurd hmem (hempty b),
    by rw [hcommand, hqueue]; rfl, fun t b hasleep ↦ ?_⟩
  · -- No sector is on a device of that number.
    rw [(hbufs b).1] at hpresent
    rcases hpresent.1 with h | ⟨h, -⟩ <;> cases h
  · obtain ⟨hdev, hbusy, hvalid, hdirty, hchanged⟩ := hbufs b
    refine ⟨fun hused ↦ absurd hbusy hused, fun _ ↦ ⟨.inl ⟨hdev, hvalid⟩, hdirty, hchanged⟩,
      fun t ht ↦ ?_, fun _ hdone ↦ ?_⟩
    · cases hbusy.symm.trans ht
    · cases hvalid.symm.trans hdone.1
  · cases (hout t).2.symm.trans hasleep

theorem Inv.next (h : s.Inv) {a : Act τ} (hnext : (system τ).next s a s') : s'.Inv := by
  obtain ⟨hmay, hstep⟩ := hnext
  rcases h.step_spec hmay with ⟨t, hok, ht⟩ | ⟨herr, -⟩
  · obtain rfl : t = s' := Except.ok.inj (hok.symm.trans hstep)
    exact ht
  · cases herr.symm.trans hstep

theorem inv_of_reachable (h : (system τ).Reachable s) : s.Inv :=
  h.invariant (I := State.Inv) (fun _ hs ↦ Starts.inv hs) fun _ _ _ hinv hnext ↦ hinv.next hnext

end State

end BufferCache
