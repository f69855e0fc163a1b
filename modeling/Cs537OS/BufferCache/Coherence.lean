import Cs537OS.BufferCache.Steps
import Cs537OS.Foundation.OwnedCells

/-!
# What the buffer cache is for

Seen from outside the sectors are cells with an owner (`State.cells`): who has the buffer of a
sector owns the sector, and in it is what is in the buffer if that is still to be written and what
is on the disk otherwise. `bget`, `bwrite` and `brelse` acquire, write and release the sector, and
who comes back from `bread` or `bwrite` finds in the buffer what is in the sector (`State.label`).
Nothing else can be seen: which buffer it is, what is in the queue, when the disk works and when an
old buffer is given to another sector.

* `owner_iff`, `content_of_dirty`, `content_of_clean` — the owner and the contents of a sector;
* `refines` — the cache and the driver refine the cells;
* `coherent_of_trace` — every run of the cache.
-/

namespace BufferCache

open FileSys (Block)

variable {τ : Type}

/-- Where the buffer's sector is on the disk. -/
def Buf.address (e : Buf τ) : ℕ × ℕ := BufferCache.address e.dev e.sector

namespace State

/-- Who has the buffer of a sector. -/
def owner (s : State τ) (a : ℕ × ℕ) : Option τ :=
  (List.range NBUF).findSome? fun b ↦ if (s.buf b).address = a then (s.buf b).busy else none

/-- The contents of a sector, with what is still to be written. -/
def content (s : State τ) (a : ℕ × ℕ) : Block :=
  match (List.range NBUF).find? fun b ↦ (s.buf b).address = a ∧ (s.buf b).dirty with
  | some b => (s.buf b).data
  | none => s.sectors a

/-- The sectors as cells. -/
def cells (s : State τ) : Cells τ (ℕ × ℕ) Block := ⟨s.owner, s.content⟩

/-- What can be seen of a step. -/
def label (s : State τ) (a : Act τ) (s' : State τ) : Option (CellEvent τ (ℕ × ℕ) Block) :=
  match a with
  | .bwrite t b => some (.write t (s.buf b).address (s.buf b).data)
  | .brelse t b => some (.release t (s.buf b).address)
  | .run t =>
    match s.place t, s'.place t with
    | .bget dev sector, .bread _ => some (.acquire t (BufferCache.address dev sector))
    | .bread b, .out => some (.find t (s.buf b).address (s.buf b).data)
    | .request b, .out => some (.find t (s.buf b).address (s.buf b).data)
    | _, _ => none
  | _ => none

variable {s s' s₀ : State τ} {t u : τ} {a : ℕ × ℕ} {b c dev sector : ℕ} {e : Buf τ}

theorem address_of_isFor (h : e.IsFor dev sector) : e.address = BufferCache.address dev sector := by
  rw [Buf.address, h.1, h.2]

namespace Inv

/-- Two buffers of one sector are the same buffer, if both are in use. -/
theorem eq_of_busy (h : s.Inv) (hb : b < NBUF) (hc : c < NBUF) (hbbusy : (s.buf b).busy ≠ none)
    (hcbusy : (s.buf c).busy ≠ none) (heq : (s.buf c).address = (s.buf b).address) : c = b := by
  by_contra hne
  exact h.address_ne hb hc hne ((h.buf b hb).present hbbusy) ((h.buf c hc).present hcbusy) heq

theorem busy_of_dirty (h : s.Inv) (hb : b < NBUF) (hdirty : (s.buf b).dirty = true) :
    (s.buf b).busy ≠ none := fun hfree ↦ by
  cases hdirty.symm.trans ((h.buf b hb).spare hfree).2.1

theorem owner_iff (h : s.Inv) :
    s.owner a = some t ↔ ∃ b < NBUF, (s.buf b).address = a ∧ (s.buf b).busy = some t := by
  constructor
  · intro howner
    obtain ⟨b, hmem, hb⟩ := List.exists_of_findSome?_eq_some howner
    split_ifs at hb with ha
    exact ⟨b, List.mem_range.1 hmem, ha, hb⟩
  · rintro ⟨b, hlt, ha, hbusy⟩
    rw [owner]
    cases hfind : (List.range NBUF).findSome? fun b ↦
        if (s.buf b).address = a then (s.buf b).busy else none with
    | none =>
      have hno := List.findSome?_eq_none_iff.1 hfind b (List.mem_range.2 hlt)
      rw [if_pos ha, hbusy] at hno
      cases hno
    | some u =>
      obtain ⟨c, hmem, hc⟩ := List.exists_of_findSome?_eq_some hfind
      split_ifs at hc with hca
      obtain rfl : c = b := h.eq_of_busy hlt (List.mem_range.1 hmem)
        (hbusy.trans_ne (Option.some_ne_none _)) (hc.trans_ne (Option.some_ne_none _))
        (hca.trans ha.symm)
      exact hc.symm.trans hbusy

theorem content_of_dirty (h : s.Inv) (hb : b < NBUF) (hdirty : (s.buf b).dirty = true) :
    s.content (s.buf b).address = (s.buf b).data := by
  rw [content]
  cases hfind : (List.range NBUF).find? fun c ↦
      (s.buf c).address = (s.buf b).address ∧ (s.buf c).dirty with
  | none =>
    have hno := List.find?_eq_none.1 hfind b (List.mem_range.2 hb)
    exact absurd (decide_eq_true ⟨rfl, hdirty⟩) hno
  | some c =>
    have hc := List.find?_some hfind
    rw [decide_eq_true_eq] at hc
    have hlt := List.mem_range.1 (List.mem_of_find?_eq_some hfind)
    rw [h.eq_of_busy hb hlt (h.busy_of_dirty hb hdirty) (h.busy_of_dirty hlt hc.2) hc.1]

end Inv

theorem content_of_clean (h : ∀ b < NBUF, (s.buf b).dirty = true → (s.buf b).address ≠ a) :
    s.content a = s.sectors a := by
  rw [content, List.find?_eq_none.2 fun b hmem hb ↦ ?_]
  obtain ⟨ha, hdirty⟩ := of_decide_eq_true hb
  exact h b (List.mem_range.1 hmem) hdirty ha

namespace Inv

/-- What is in a buffer that is done is in its sector. -/
theorem content_of_done (h : s.Inv) (herred : s.erred = false) (hb : b < NBUF)
    (hbusy : (s.buf b).busy ≠ none) (hdone : (s.buf b).Done)
    (hchanged : (s.buf b).changed = false) :
    s.content (s.buf b).address = (s.buf b).data := by
  refine (content_of_clean fun c hc hdirty heq ↦ ?_).trans
    ((h.buf b hb).data herred hdone hchanged).symm
  obtain rfl := h.eq_of_busy hb hc hbusy (h.busy_of_dirty hc hdirty) heq
  cases hdirty.symm.trans hdone.2

end Inv

/-! ### What a step does to the sectors -/

/-- Nothing is seen of what happens to the places, the ring and the queue. -/
theorem cells_congr (hbuf : s'.buf = s.buf) (hdisk : s'.sectors = s.sectors) :
    s'.cells = s.cells := by
  have howner : s'.owner = s.owner := funext fun a ↦ by rw [owner, owner, hbuf]
  have hcontent : s'.content = s.content := funext fun a ↦ by rw [content, content, hbuf, hdisk]
  rw [cells, cells, howner, hcontent]

/-- A buffer of the same process and the same sector. -/
theorem owner_congr (hbuf : ∀ c, c ≠ b → s'.buf c = s.buf c)
    (hbusy : (s'.buf b).busy = (s.buf b).busy) (haddress : (s'.buf b).address = (s.buf b).address) :
    s'.owner = s.owner := by
  have hsame : ∀ c, (s'.buf c).busy = (s.buf c).busy ∧ (s'.buf c).address = (s.buf c).address := by
    intro c
    rcases eq_or_ne c b with rfl | hne
    · exact ⟨hbusy, haddress⟩
    · rw [hbuf c hne]
      exact ⟨rfl, rfl⟩
  funext a
  simp only [owner, hsame]

/-- The contents of a sector change only with buffer `b`. -/
theorem content_cases (h : s.Inv) (h' : s'.Inv) (hbuf : ∀ c, c ≠ b → s'.buf c = s.buf c)
    (a : ℕ × ℕ) : s'.content a = s.content a ∨
      ∀ c < NBUF, c ≠ b → (s.buf c).dirty = true → (s.buf c).address ≠ a := by
  by_contra! hno
  obtain ⟨hne, c, hlt, hcb, hdirty, rfl⟩ := hno
  have hsame := hbuf c hcb
  refine hne ?_
  rw [h.content_of_dirty hlt hdirty, ← hsame]
  exact h'.content_of_dirty hlt (by rw [hsame]; exact hdirty)

/-- On the disk is what is in a sector, if neither another buffer nor `b` is to be written there. -/
theorem content_of_others (hbuf : ∀ c, c ≠ b → s'.buf c = s.buf c)
    (hothers : ∀ c < NBUF, c ≠ b → (s.buf c).dirty = true → (s.buf c).address ≠ a)
    (hb : (s'.buf b).dirty = true → (s'.buf b).address ≠ a) : s'.content a = s'.sectors a :=
  content_of_clean fun c hlt hc ↦ by
    rcases eq_or_ne c b with rfl | hcb
    · exact hb hc
    · rw [hbuf c hcb] at hc ⊢
      exact hothers c hlt hcb hc

/-- A buffer that is not to be written. -/
theorem content_congr (h : s.Inv) (h' : s'.Inv) (hbuf : ∀ c, c ≠ b → s'.buf c = s.buf c)
    (hdirty : (s.buf b).dirty = false) (hdirty' : (s'.buf b).dirty = false)
    (hdisk : s'.sectors = s.sectors) : s'.content = s.content := by
  funext a
  refine (content_cases h h' hbuf a).elim id fun hothers ↦ ?_
  have hbefore : s.content a = s.sectors a := content_of_others (fun _ _ ↦ rfl) hothers
    fun hb ↦ absurd (hdirty.symm.trans hb) Bool.false_ne_true
  have hafter : s'.content a = s'.sectors a := content_of_others hbuf hothers
    fun hb ↦ absurd (hdirty'.symm.trans hb) Bool.false_ne_true
  rw [hafter, hbefore, hdisk]

/-- The disk has written the buffer. -/
theorem content_written (h : s.Inv) (h' : s'.Inv) (hbuf : ∀ c, c ≠ b → s'.buf c = s.buf c)
    (hb : b < NBUF) (hdirty : (s.buf b).dirty = true) (hdirty' : (s'.buf b).dirty = false)
    (hdisk : s'.sectors = Function.update s.sectors (s.buf b).address (s.buf b).data) :
    s'.content = s.content := by
  funext a
  refine (content_cases h h' hbuf a).elim id fun hothers ↦ ?_
  have hafter : s'.content a = s'.sectors a := content_of_others hbuf hothers
    fun hb ↦ absurd (hdirty'.symm.trans hb) Bool.false_ne_true
  rw [hafter, hdisk]
  rcases eq_or_ne a (s.buf b).address with rfl | hne
  · rw [Function.update_self, h.content_of_dirty hb hdirty]
  · rw [Function.update_of_ne hne]
    exact (content_of_others (fun _ _ ↦ rfl) hothers fun _ ↦ hne.symm).symm

/-- The buffer is to be written. -/
theorem content_bwrite (h : s.Inv) (h' : s'.Inv) (hbuf : ∀ c, c ≠ b → s'.buf c = s.buf c)
    (hb : b < NBUF) (hdirty' : (s'.buf b).dirty = true)
    (haddress : (s'.buf b).address = (s.buf b).address) (hdisk : s'.sectors = s.sectors) :
    s'.content = Function.update s.content (s.buf b).address (s'.buf b).data := by
  funext a
  rcases eq_or_ne a (s.buf b).address with rfl | hne
  · rw [Function.update_self, ← haddress]
    exact h'.content_of_dirty hb hdirty'
  · rw [Function.update_of_ne hne]
    refine (content_cases h h' hbuf a).elim id fun hothers ↦ ?_
    have hbefore : s.content a = s.sectors a :=
      content_of_others (fun _ _ ↦ rfl) hothers fun _ ↦ hne.symm
    have hafter : s'.content a = s'.sectors a :=
      content_of_others hbuf hothers fun _ ↦ haddress.trans_ne hne.symm
    rw [hafter, hbefore, hdisk]

/-- A buffer that nobody had is taken: nobody had the sector. -/
theorem owner_acquire (h : s.Inv) (h' : s'.Inv) (hbuf : ∀ c, c ≠ b → s'.buf c = s.buf c)
    (hb : b < NBUF) (hfree : (s.buf b).busy = none) (hbusy : (s'.buf b).busy = some t) :
    s.owner (s'.buf b).address = none ∧
      s'.owner = Function.update s.owner (s'.buf b).address (some t) := by
  have hcb : ∀ {c u}, (s.buf c).busy = some u → c ≠ b := by
    rintro c u hc rfl
    cases hfree.symm.trans hc
  constructor
  · cases howner : s.owner (s'.buf b).address with
    | none => rfl
    | some u =>
      obtain ⟨c, hlt, hc, hcbusy⟩ := h.owner_iff.1 howner
      have hne := hcb hcbusy
      rw [← hbuf c hne] at hc hcbusy
      have hsame : c = b := h'.eq_of_busy hb hlt (hbusy.trans_ne (Option.some_ne_none _))
        (hcbusy.trans_ne (Option.some_ne_none _)) hc
      exact absurd hsame hne
  · funext a
    refine Option.ext fun u ↦ ?_
    rw [h'.owner_iff, Function.update_apply]
    split_ifs with ha
    · subst ha
      constructor
      · rintro ⟨c, hlt, hc, hcbusy⟩
        obtain rfl := h'.eq_of_busy hb hlt (hbusy.trans_ne (Option.some_ne_none _))
          (hcbusy.trans_ne (Option.some_ne_none _)) hc
        exact hbusy.symm.trans hcbusy
      · exact fun hu ↦ ⟨b, hb, rfl, hbusy.trans hu⟩
    · rw [h.owner_iff]
      constructor
      · rintro ⟨c, hlt, hc, hcbusy⟩
        have hne : c ≠ b := by
          rintro rfl
          exact ha hc.symm
        rw [hbuf c hne] at hc hcbusy
        exact ⟨c, hlt, hc, hcbusy⟩
      · rintro ⟨c, hlt, hc, hcbusy⟩
        refine ⟨c, hlt, ?_⟩
        rw [hbuf c (hcb hcbusy)]
        exact ⟨hc, hcbusy⟩

/-- A buffer is given back. -/
theorem owner_release (h : s.Inv) (h' : s'.Inv) (hbuf : ∀ c, c ≠ b → s'.buf c = s.buf c)
    (hb : b < NBUF) (hbusy : (s.buf b).busy = some t) (hfree : (s'.buf b).busy = none) :
    s'.owner = Function.update s.owner (s.buf b).address none := by
  obtain ⟨hnone, hupdate⟩ := owner_acquire h' h (fun c hc ↦ (hbuf c hc).symm) hb hfree hbusy
  rw [hupdate, Function.update_idem, ← hnone, Function.update_eq_self]

/-! ### The refinement -/

variable [DecidableEq τ]

/-- What can be seen of a step is what it does to the sectors. -/
def Shows (s : State τ) (a : Act τ) (s' : State τ) : Prop :=
  match s.label a s' with
  | some e => e.Ok s.cells ∧ s'.cells = e.apply s.cells
  | none => s'.cells = s.cells

namespace Inv

/-- A buffer is taken, and with it a sector that nobody had. -/
theorem cells_taken (h : s.Inv) (hb : b < NBUF) (hfree : (s.buf b).busy = none)
    (hisfor : e.IsFor dev sector) (hbusy : e.busy = some t) (hdirty : e.dirty = false)
    (h' : ((s.setBuf b e).goto t (.bread b)).Inv) :
    (CellEvent.acquire t (BufferCache.address dev sector)).Ok s.cells ∧
      ((s.setBuf b e).goto t (.bread b)).cells =
        (CellEvent.acquire t (BufferCache.address dev sector)).apply s.cells := by
  have hself : ((s.setBuf b e).goto t (.bread b)).buf b = e := Function.update_self ..
  have hother : ∀ c, c ≠ b → ((s.setBuf b e).goto t (.bread b)).buf c = s.buf c := fun c hne ↦
    Function.update_of_ne hne ..
  obtain ⟨hnone, howner⟩ := owner_acquire h h' hother hb hfree (by rw [hself]; exact hbusy)
  rw [hself, address_of_isFor hisfor] at hnone howner
  refine ⟨hnone, ?_⟩
  rw [cells, howner, content_congr h h' hother ((h.buf b hb).spare hfree).2.1
    (by rw [hself]; exact hdirty) rfl]
  rfl

theorem shows_bget (h : s.Inv) (h' : s'.Inv) (hl : s.place t = .bget dev sector)
    (hstep : s.bget t dev sector = .ok s') : s.Shows (.run t) s' := by
  have hclean : ∀ {b}, b < NBUF → (s.buf b).busy = none → (s.buf b).dirty = false :=
    fun hlt hfree ↦ ((h.buf _ hlt).spare hfree).2.1
  rcases h.bget_cases t dev sector with ⟨b, hlt, hisfor, hfree, heq⟩ | ⟨b, -, -, -, heq⟩ |
    ⟨b, hlt, -, hfree, heq⟩ | ⟨heq, -⟩
  · obtain rfl := Except.ok.inj (hstep.symm.trans heq)
    rw [Shows, label, hl, goto_place_self]
    exact h.cells_taken (e := { s.buf b with busy := some t }) hlt hfree hisfor rfl
      (hclean hlt hfree) h'
  · obtain rfl := Except.ok.inj (hstep.symm.trans heq)
    rw [Shows, label, hl, show (s.sleep t b).place t = .bget dev sector from hl]
    exact cells_congr rfl rfl
  · obtain rfl := Except.ok.inj (hstep.symm.trans heq)
    rw [Shows, label, hl, goto_place_self]
    exact h.cells_taken hlt hfree ⟨rfl, rfl⟩ rfl rfl h'
  · cases hstep.symm.trans heq

omit [DecidableEq τ] in
/-- Who comes back finds in the buffer what is in the sector. -/
theorem find_ok (h : s.Inv) (herred : s.erred = false) (hl : (s.place t).About b)
    (hdone : (s.buf b).Done) (hchanged : (s.buf b).changed = false) :
    (CellEvent.find t (s.buf b).address (s.buf b).data).Ok s.cells := by
  obtain ⟨hlt, hbusy⟩ := (h.knows t).busy hl
  exact ⟨h.owner_iff.2 ⟨b, hlt, rfl, hbusy⟩,
    h.content_of_done herred hlt (hbusy.trans_ne (Option.some_ne_none _)) hdone hchanged⟩

theorem shows_breadReturn (h : s.Inv) (herred : s.erred = false) (hl : s.place t = .bread b) :
    s.Shows (.run t) (s.goto t (if (s.buf b).valid then .out else .iderw b)) := by
  have hknows := h.knows t
  rw [hl] at hknows
  obtain ⟨-, -, hdirty, hchanged, -⟩ := hknows
  rw [Shows, label, hl, goto_place_self]
  split_ifs with hvalid
  · exact ⟨h.find_ok herred (.inl hl) ⟨hvalid, hdirty⟩ hchanged, cells_congr rfl rfl⟩
  · exact cells_congr rfl rfl

theorem shows_request (h : s.Inv) (herred : s.erred = false) (hl : s.place t = .request b) :
    s.Shows (.run t) (s.request t b) := by
  have hknows := h.knows t
  rw [hl] at hknows
  obtain ⟨-, -, hchanged, -⟩ := hknows
  rw [State.request]
  split_ifs with hdone
  · rw [Shows, label, hl, goto_place_self]
    exact ⟨h.find_ok herred (.inr (.inr hl)) hdone hchanged, cells_congr rfl rfl⟩
  · rw [Shows, label, hl, show (s.sleep t b).place t = .request b from hl]
    exact cells_congr rfl rfl

theorem shows_iderw (hl : s.place t = .iderw b) (hstep : s.iderw t b = .ok s') :
    s.Shows (.run t) s' := by
  obtain ⟨command, rfl⟩ := iderw_cases hstep
  rw [Shows, label, hl]
  generalize hs : ({ s with idequeue := s.idequeue ++ [b], command := command } : State τ).goto t
    (.request b) = r
  have hbuf : r.buf = s.buf := by rw [← hs]; rfl
  have hdisk : r.sectors = s.sectors := by rw [← hs]; rfl
  rcases request_cases r t b with heq | heq
  · rw [heq]
    exact cells_congr hbuf hdisk
  · rw [heq]
    exact cells_congr hbuf hdisk

omit [DecidableEq τ] in
theorem shows_modify (h : s.Inv) (huse : s.Uses t b) (data : Block)
    (h' : (s.setBuf b { s.buf b with data := data, changed := true }).Inv) :
    s.Shows (.modify t b data) (s.setBuf b { s.buf b with data := data, changed := true }) := by
  have hclean := (h.done_of_uses huse).2
  have hself : (s.setBuf b { s.buf b with data := data, changed := true }).buf b =
      { s.buf b with data := data, changed := true } := Function.update_self ..
  have hother : ∀ c, c ≠ b → (s.setBuf b { s.buf b with data := data, changed := true }).buf c =
      s.buf c := fun c hne ↦ Function.update_of_ne hne ..
  have howner : (s.setBuf b { s.buf b with data := data, changed := true }).owner = s.owner :=
    owner_congr hother (by rw [hself]) (by rw [hself]; rfl)
  change Cells.mk _ _ = Cells.mk _ _
  rw [howner, content_congr h h' hother hclean (by rw [hself]; exact hclean) rfl]

theorem shows_bwrite (h : s.Inv) (huse : s.Uses t b) (h' : s'.Inv)
    (hstep : s.bwrite t b = .ok s') : s.Shows (.bwrite t b) s' := by
  obtain ⟨-, hlt, hbusy⟩ := huse
  rw [State.bwrite, if_neg (hbusy.trans_ne (Option.some_ne_none _))] at hstep
  generalize he : { s.buf b with dirty := true, changed := false } = e at hstep
  obtain rfl := Except.ok.inj hstep
  have hself : ((s.setBuf b e).goto t (.iderw b)).buf b = e := Function.update_self ..
  have hother : ∀ c, c ≠ b → ((s.setBuf b e).goto t (.iderw b)).buf c = s.buf c := fun c hne ↦
    Function.update_of_ne hne ..
  have haddress : e.address = (s.buf b).address := by rw [← he]; rfl
  have howner : ((s.setBuf b e).goto t (.iderw b)).owner = s.owner :=
    owner_congr hother (by rw [hself, ← he]) (by rw [hself, haddress])
  have hcontent := content_bwrite h h' hother hlt (by rw [hself, ← he])
    (by rw [hself, haddress]) rfl
  rw [hself, ← he] at hcontent
  refine ⟨h.owner_iff.2 ⟨b, hlt, rfl, hbusy⟩, ?_⟩
  change Cells.mk _ _ = Cells.mk _ _
  rw [howner, ← he, hcontent]
  rfl

omit [DecidableEq τ] in
theorem shows_brelse (h : s.Inv) (huse : s.Uses t b) (h' : s'.Inv)
    (hstep : s.brelse b = .ok s') : s.Shows (.brelse t b) s' := by
  have hclean := (h.done_of_uses huse).2
  obtain ⟨-, hlt, hbusy⟩ := huse
  rw [State.brelse, if_neg (hbusy.trans_ne (Option.some_ne_none _))] at hstep
  obtain rfl := Except.ok.inj hstep
  generalize hs' : State.wakeup _ b = s' at h' ⊢
  have hself : s'.buf b = { s.buf b with busy := none } := by
    rw [← hs']
    exact Function.update_self ..
  have hother : ∀ c, c ≠ b → s'.buf c = s.buf c := fun c hne ↦ by
    rw [← hs']
    exact Function.update_of_ne hne ..
  refine ⟨h.owner_iff.2 ⟨b, hlt, rfl, hbusy⟩, ?_⟩
  change Cells.mk _ _ = Cells.mk _ _
  rw [owner_release h h' hother hlt hbusy (by rw [hself]),
    content_congr h h' hother hclean (by rw [hself]; exact hclean) (by rw [← hs']; rfl)]
  rfl

omit [DecidableEq τ] in
theorem shows_ideintr (h : s.Inv) : s.Shows (.ideintr false) (s.ideintr false) := by
  change (s.ideintr false).cells = s.cells
  cases hq : s.idequeue with
  | nil => rw [State.ideintr, hq]
  | cons b rest =>
    have hlt := h.lt_of_queue (hq ▸ List.mem_cons_self)
    have h' := h.ideintr false
    rw [h.ideintr_eq hq] at h' ⊢
    generalize hs' : ({ s with
      buf := Function.update s.buf b (s.handled b false)
      idequeue := rest
      command := rest.head?.map fun c ↦ (s.buf c).command
      sectors := s.written b false
      asleep := fun t ↦ if s.asleep t = some b then none else s.asleep t
      erred := s.erred || false } : State τ) = s' at h' ⊢
    have hself : s'.buf b = s.handled b false := by
      rw [← hs']
      exact Function.update_self ..
    have hother : ∀ c, c ≠ b → s'.buf c = s.buf c := fun c hne ↦ by
      rw [← hs']
      exact Function.update_of_ne hne ..
    have howner : s'.owner = s.owner := owner_congr hother (by rw [hself]; rfl) (by rw [hself]; rfl)
    have hcontent : s'.content = s.content := by
      cases hdirty : (s.buf b).dirty with
      | true =>
        refine content_written h h' hother hlt hdirty (by rw [hself]; rfl) ?_
        rw [← hs']
        exact if_pos ⟨hdirty, rfl⟩
      | false =>
        refine content_congr h h' hother hdirty (by rw [hself]; rfl) ?_
        rw [← hs']
        exact if_neg fun hno ↦ Bool.false_ne_true (hdirty.symm.trans hno.1)
    change Cells.mk _ _ = Cells.mk _ _
    rw [howner, hcontent]

/-- **What can be seen of a step.** -/
theorem shows (h : s.Inv) (h' : s'.Inv) (herred : s.erred = false) {a : Act τ}
    (hno : NoError s a) (hmay : s.May a) (hstep : s.step a = .ok s') : s.Shows a s' := by
  cases a with
  | bread t dev sector =>
    obtain rfl := Except.ok.inj hstep
    exact cells_congr rfl rfl
  | modify t b data =>
    obtain rfl := Except.ok.inj hstep
    exact h.shows_modify hmay data h'
  | bwrite t b => exact h.shows_bwrite hmay h' hstep
  | brelse t b => exact h.shows_brelse hmay.1 h' hstep
  | ideintr failed =>
    obtain rfl : failed = false := hno
    obtain rfl := Except.ok.inj hstep
    exact h.shows_ideintr
  | kill t =>
    obtain rfl := Except.ok.inj hstep
    exact cells_congr rfl rfl
  | run t =>
    rw [State.step, State.run] at hstep
    cases hl : s.place t with
    | out => exact absurd hl hmay.1
    | bget dev sector =>
      rw [hl] at hstep
      exact h.shows_bget h' hl hstep
    | bread b =>
      rw [hl] at hstep
      obtain rfl := Except.ok.inj hstep
      exact h.shows_breadReturn herred hl
    | iderw b =>
      rw [hl] at hstep
      exact shows_iderw hl hstep
    | request b =>
      rw [hl] at hstep
      obtain rfl := Except.ok.inj hstep
      exact h.shows_request herred hl

end Inv

omit [DecidableEq τ] in
/-- At the beginning nobody has a sector, and in it is what is on the disk. -/
theorem Starts.cells (h : s.Starts) : s.cells = ⟨fun _ ↦ none, s.sectors⟩ := by
  obtain ⟨-, hbufs, -⟩ := h
  have howner : s.owner = fun _ ↦ none := funext fun a ↦
    List.findSome?_eq_none_iff.2 fun b _ ↦ by rw [(hbufs b).2.1, ite_self]
  have hcontent : s.content = s.sectors := funext fun a ↦
    content_of_clean fun b _ hdirty ↦ by cases hdirty.symm.trans (hbufs b).2.2.2.1
  rw [State.cells, howner, hcontent]

theorem erred_request (s : State τ) (t : τ) (b : ℕ) :
    (s.request t b).erred = s.erred := by
  rcases request_cases s t b with heq | heq <;> rw [heq] <;> rfl

/-- Only the disk fails. -/
theorem erred_step (h : s.Inv) {a : Act τ} (hno : NoError s a) (hstep : s.step a = .ok s') :
    s'.erred = s.erred := by
  cases a with
  | bread t dev sector => exact Except.ok.inj hstep ▸ rfl
  | modify t b data => exact Except.ok.inj hstep ▸ rfl
  | kill t => exact Except.ok.inj hstep ▸ rfl
  | bwrite t b =>
    rw [step, State.bwrite] at hstep
    split_ifs at hstep
    exact Except.ok.inj hstep ▸ rfl
  | brelse t b =>
    rw [step, State.brelse] at hstep
    split_ifs at hstep
    exact Except.ok.inj hstep ▸ rfl
  | ideintr failed =>
    obtain rfl : failed = false := hno
    obtain rfl := Except.ok.inj hstep
    cases hq : s.idequeue with
    | nil => rw [State.ideintr, hq]
    | cons b rest =>
      rw [h.ideintr_eq hq]
      exact Bool.or_false s.erred
  | run t =>
    rw [step, State.run] at hstep
    cases hl : s.place t with
    | out =>
      rw [hl] at hstep
      exact Except.ok.inj hstep ▸ rfl
    | bget dev sector =>
      rw [hl] at hstep
      rcases h.bget_cases t dev sector with ⟨b, -, -, -, heq⟩ | ⟨b, -, -, -, heq⟩ |
        ⟨b, -, -, -, heq⟩ | ⟨heq, -⟩
      · exact Except.ok.inj (hstep.symm.trans heq) ▸ rfl
      · exact Except.ok.inj (hstep.symm.trans heq) ▸ rfl
      · exact Except.ok.inj (hstep.symm.trans heq) ▸ rfl
      · cases hstep.symm.trans heq
    | bread b =>
      rw [hl] at hstep
      exact Except.ok.inj hstep ▸ rfl
    | iderw b =>
      rw [hl] at hstep
      obtain ⟨command, rfl⟩ := iderw_cases hstep
      exact erred_request _ t b
    | request b =>
      rw [hl] at hstep
      exact Except.ok.inj hstep ▸ erred_request s t b

/-- **The buffer cache refines the cells**, if the disk does not fail. -/
theorem refines : Refines ((system τ).restrict NoError) (ownedCells τ (ℕ × ℕ) Block)
    (fun s ↦ s.Inv ∧ s.erred = false) State.cells State.label where
  init s hs := ⟨⟨Starts.inv hs, hs.2.2.2.2.2⟩, fun a ↦ by rw [Starts.cells hs]⟩
  inv s a t := fun ⟨h, herred⟩ ⟨hno, hnext⟩ ↦
    ⟨h.next hnext, (erred_step h hno hnext.2).trans herred⟩
  step s a t e := fun ⟨h, herred⟩ ⟨hno, hnext⟩ hlabel ↦ by
    have hshows := h.shows (h.next hnext) herred hno hnext.1 hnext.2
    rwa [Shows, hlabel] at hshows
  stutter s a t := fun ⟨h, herred⟩ ⟨hno, hnext⟩ hlabel ↦ by
    have hshows := h.shows (h.next hnext) herred hno hnext.1 hnext.2
    rwa [Shows, hlabel] at hshows

/-- What a run from `s₀` to `s` shows, with the events `es`. -/
structure Coherent (s₀ : State τ) (es : List (CellEvent τ (ℕ × ℕ) Block)) (s : State τ) :
    Prop where
  /-- Every event is by the owner of the sector, who finds in it what was last written. -/
  events : ∀ es₁ e es₂, es = es₁ ++ e :: es₂ →
    e.Ok (es₁.foldl CellEvent.apply ⟨fun _ ↦ none, s₀.sectors⟩)
  /-- Who has a buffer has the sector, with the contents unless it has changed them. -/
  uses : ∀ t b, s.Uses t b →
    (es.foldl CellEvent.apply ⟨fun _ ↦ none, s₀.sectors⟩).owner (s.buf b).address = some t ∧
    ((s.buf b).changed = false → (s.buf b).data =
      (es.foldl CellEvent.apply ⟨fun _ ↦ none, s₀.sectors⟩).content (s.buf b).address)
  /-- On the disk is what was last written, but where a process is in `iderw`. -/
  disk : ∀ a, (∀ t b, s.place t = .iderw b ∨ s.place t = .request b → (s.buf b).address ≠ a) →
    s.sectors a = (es.foldl CellEvent.apply ⟨fun _ ↦ none, s₀.sectors⟩).content a

/-- **Every run of the buffer cache and the driver** in which the disk does not fail. -/
theorem coherent_of_trace (hs : s₀.Starts) {es : List (CellEvent τ (ℕ × ℕ) Block)}
    (h : ((system τ).restrict NoError).Trace State.label s₀ es s) : Coherent s₀ es s := by
  obtain ⟨⟨hinv, herred⟩, htrace⟩ := refines.trace hs h
  obtain ⟨hcells, hevents⟩ := ownedCells_trace htrace
  rw [Starts.cells hs] at hcells hevents
  refine ⟨hevents, fun t b huse ↦ ?_, fun a ha ↦ ?_⟩
  · have hdone := hinv.done_of_uses huse
    obtain ⟨-, hlt, hbusy⟩ := huse
    rw [← hcells]
    refine ⟨hinv.owner_iff.2 ⟨b, hlt, rfl, hbusy⟩, fun hchanged ↦ ?_⟩
    have hheld : (s.buf b).busy ≠ none := hbusy.trans_ne (Option.some_ne_none _)
    exact (hinv.content_of_done herred hlt hheld hdone hchanged).symm
  · rw [← hcells]
    refine (content_of_clean fun b hlt hdirty heq ↦ ?_).symm
    obtain ⟨t, hbusy⟩ := Option.ne_none_iff_exists'.1 (hinv.busy_of_dirty hlt hdirty)
    rcases (hinv.buf b hlt).held t hbusy with hdone | hl | hl | hl
    · cases hdirty.symm.trans hdone.2
    · have hknows := hinv.knows t
      rw [hl] at hknows
      cases hdirty.symm.trans hknows.2.2.1
    · exact ha t b (.inl hl) heq
    · exact ha t b (.inr hl) heq

/-- After `binit`, with two processes and empty disks. -/
def freshState : State Bool where
  buf _ := ⟨2 ^ 32 - 1, 0, none, false, false, fun _ ↦ 0, false⟩
  links := binit ⟨id, id⟩
  idequeue := []
  command := none
  sectors _ _ := 0
  havedisk1 := true
  place _ := .out
  asleep _ := none
  erred := false

theorem freshState_starts : freshState.Starts :=
  ⟨⟨⟨id, id⟩, rfl⟩, fun _ ↦ ⟨rfl, rfl, rfl, rfl, rfl⟩, rfl, rfl, fun _ ↦ ⟨rfl, rfl⟩, rfl⟩

/-- What is seen along a list of steps. -/
theorem exists_of_play {β : Type} (label : State Bool → Act Bool → State Bool → Option β)
    (as : List (Act Bool)) {P : List β → State Bool → Prop} [∀ es s, Decidable (P es s)]
    (h : (as.foldlM (System.observe label
      (System.checked (fun s a ↦ NoError s a ∧ s.May a) (fun s a ↦ s.step a) "not allowed"))
        ([], freshState)).toOption.any (fun r ↦ decide (P r.1 r.2)) = true) :
    ∃ es s, ((system Bool).restrict NoError).Trace label freshState es s ∧ P es s := by
  obtain ⟨es, s, htrace, hP⟩ := System.Trace.exists_of_run (S := (system Bool).restrict NoError)
    (fun s a t hstep ↦ by
      rw [System.checked] at hstep
      split_ifs at hstep with hmay
      exact ⟨hmay.1, hmay.2, hstep⟩) h
  exact ⟨es, s, htrace, of_decide_eq_true hP⟩

/-- A process reads sector 5, changes it and writes it, and another one waits for it. -/
def writtenOnce : List (Act Bool) :=
  [.bread false 1 5, .run false, .run false, .run false, .ideintr false, .run false,
    .modify false 0 (fun _ ↦ 7), .bwrite false 0, .bread true 1 5, .run true, .run false,
    .ideintr false, .run false, .brelse false 0, .run true, .run true]

/-- The other one finds what was written. -/
theorem writtenOnce_coherent : ∃ es s, es.length = 7 ∧ s.Uses true 0 ∧ (s.buf 0).data 0 = 7 ∧
    Coherent freshState es s := by
  obtain ⟨es, s, htrace, hlength, huse, hdata⟩ := exists_of_play State.label writtenOnce
    (P := fun es s ↦ es.length = 7 ∧ s.Uses true 0 ∧ (s.buf 0).data 0 = 7) (by decide +kernel)
  exact ⟨es, s, hlength, huse, hdata, coherent_of_trace freshState_starts htrace⟩

end State

end BufferCache
