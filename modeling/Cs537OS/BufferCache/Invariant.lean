import Cs537OS.BufferCache.Basic
import Mathlib.Data.List.Perm.Basic

/-!
# Who has a buffer, and what is in it

A buffer in use belongs to the process that has it from `bget` until `brelse`. That process is the
only one that is about the buffer (`Place.About`), so a step of a process changes one buffer and
one place, and what is known of the others stays (`Change`).

* `Inv` — the ring, the buffers, the processes, the queue, and why they sleep;
* `Inv.change` — what has to be shown of a step.
-/

namespace BufferCache

variable {τ : Type}

/-- The process is about a buffer. -/
def Place.About (l : Place) (b : ℕ) : Prop := l = .bread b ∨ l = .iderw b ∨ l = .request b

namespace State

/-- A buffer that can be recycled: it was never used, or it is read and not changed. -/
def Spare (s : State τ) (e : Buf τ) : Prop :=
  (e.dev = 2 ^ 32 - 1 ∧ e.valid = false ∨ s.Present e.dev e.sector ∧ e.Done) ∧
    e.dirty = false ∧ e.changed = false

structure BufOk (s : State τ) (b : ℕ) : Prop where
  present : (s.buf b).busy ≠ none → s.Present (s.buf b).dev (s.buf b).sector
  spare : (s.buf b).busy = none → s.Spare (s.buf b)
  /-- Who has a buffer and is not about it finds it done. -/
  held : ∀ t, (s.buf b).busy = some t → (s.buf b).Done ∨ (s.place t).About b
  /-- What is in it is on the disk, if the disk has never failed. -/
  data : s.erred = false → (s.buf b).Done → (s.buf b).changed = false →
    (s.buf b).data = s.sectors (address (s.buf b).dev (s.buf b).sector)

/-- What a process in a function knows. -/
def Knows (s : State τ) (t : τ) : Place → Prop
  | .out => True
  | .bget dev sector => s.Present dev sector
  | .bread b => b < NBUF ∧ (s.buf b).busy = some t ∧ (s.buf b).dirty = false ∧
    (s.buf b).changed = false ∧ b ∉ s.idequeue
  | .iderw b => b < NBUF ∧ (s.buf b).busy = some t ∧ ¬ (s.buf b).Done ∧
    (s.buf b).changed = false ∧ b ∉ s.idequeue
  | .request b => b < NBUF ∧ (s.buf b).busy = some t ∧ (s.buf b).changed = false ∧
    (b ∈ s.idequeue ↔ ¬ (s.buf b).Done)

/-- Why a process sleeps: another one has the buffer, or the disk has not come to it yet. -/
def Waits (s : State τ) (t : τ) (b : ℕ) : Prop :=
  (∃ dev sector, s.place t = .bget dev sector ∧ b < NBUF ∧ (s.buf b).IsFor dev sector ∧
    (s.buf b).busy ≠ none) ∨ s.place t = .request b ∧ b ∈ s.idequeue

/-- All buffers are in use, and none of them is for the sector. -/
def Full (s : State τ) (dev sector : ℕ) : Prop :=
  ∀ b < NBUF, (s.buf b).busy ≠ none ∧ ¬ (s.buf b).IsFor dev sector

instance (s : State τ) (dev sector : ℕ) : Decidable (s.Full dev sector) :=
  inferInstanceAs (Decidable (∀ b < NBUF, _))

structure Inv (s : State τ) : Prop where
  /-- All buffers are in the ring. -/
  ring : ∃ l, s.links.IsRing HEAD l ∧ l.Perm (List.range NBUF)
  /-- A sector has one buffer. -/
  unique : ∀ b < NBUF, ∀ c < NBUF, b ≠ c → s.Present (s.buf b).dev (s.buf b).sector →
    ¬ (s.buf c).IsFor (s.buf b).dev (s.buf b).sector
  buf : ∀ b < NBUF, s.BufOk b
  knows : ∀ t, s.Knows t (s.place t)
  nodup : s.idequeue.Nodup
  queue : ∀ b ∈ s.idequeue, ∃ t, s.place t = .request b
  command : s.command = s.idequeue.head?.map fun b ↦ (s.buf b).command
  asleep : ∀ t b, s.asleep t = some b → s.Waits t b

variable {s s' : State τ} {t u : τ} {b c dev sector : ℕ} {l : Place}

/-- Who is about a buffer has it. -/
theorem Knows.busy (h : s.Knows t l) (hl : l.About b) :
    b < NBUF ∧ (s.buf b).busy = some t := by
  rcases hl with rfl | rfl | rfl <;> exact ⟨h.1, h.2.1⟩

/-- A step changes buffer `b` and the place of `t`. -/
structure Change (s s' : State τ) (t : τ) (b : ℕ) : Prop where
  buf : ∀ c, c ≠ b → s'.buf c = s.buf c
  place : ∀ u, u ≠ t → s'.place u = s.place u
  queue : ∀ c, c ≠ b → (c ∈ s'.idequeue ↔ c ∈ s.idequeue)
  havedisk1 : s'.havedisk1 = s.havedisk1
  erred : s'.erred = false → s.erred = false
  sectors : ∀ c < NBUF, c ≠ b → (s.buf c).Done →
    s'.sectors (address (s.buf c).dev (s.buf c).sector) =
      s.sectors (address (s.buf c).dev (s.buf c).sector)
  /-- Nobody else has the buffer, and if the process moves it was about no other one. -/
  owner : b < NBUF → ∀ u, (s.buf b).busy = some u → u = t
  about : s'.place t = s.place t ∨ ∀ c, (s.place t).About c → c = b

namespace Change

theorem present_iff (hc : Change s s' t b) : s'.Present dev sector ↔ s.Present dev sector := by
  rw [Present, Present, hc.havedisk1]

theorem spare_iff (hc : Change s s' t b) (e : Buf τ) : s'.Spare e ↔ s.Spare e := by
  rw [Spare, Spare, hc.present_iff]

/-- The other buffers. -/
theorem bufOk (hc : Change s s' t b) (hlt : c < NBUF) (hne : c ≠ b) (h : s.BufOk c) :
    s'.BufOk c := by
  have hbuf := hc.buf c hne
  refine ⟨?_, ?_, fun u hu ↦ ?_, ?_⟩
  · rw [hbuf, hc.present_iff]
    exact h.present
  · rw [hbuf, hc.spare_iff]
    exact h.spare
  · rw [hbuf] at hu ⊢
    rcases h.held u hu with hdone | habout
    · exact .inl hdone
    · refine .inr ?_
      rcases eq_or_ne u t with rfl | hu
      · rw [hc.about.resolve_right fun hall ↦ hne (hall c habout)]
        exact habout
      · rw [hc.place u hu]
        exact habout
  · rw [hbuf]
    intro herred hdone
    rw [hc.sectors c hlt hne hdone]
    exact h.data (hc.erred herred) hdone

/-- The other processes. -/
theorem knows (hc : Change s s' t b) (hne : u ≠ t) (h : s.Knows u (s.place u)) :
    s'.Knows u (s'.place u) := by
  rw [hc.place u hne]
  have hother : ∀ {c}, (s.place u).About c → c ≠ b := by
    rintro c habout rfl
    obtain ⟨hlt, hbusy⟩ := h.busy habout
    exact hne (hc.owner hlt u hbusy)
  generalize s.place u = l at h hother
  cases l with
  | out => exact trivial
  | bget dev sector => exact hc.present_iff.2 h
  | bread c =>
    have hcb := hother (.inl rfl)
    rw [Knows, hc.buf c hcb, hc.queue c hcb]
    exact h
  | iderw c =>
    have hcb := hother (.inr (.inl rfl))
    rw [Knows, hc.buf c hcb, hc.queue c hcb]
    exact h
  | request c =>
    have hcb := hother (.inr (.inr rfl))
    rw [Knows, hc.buf c hcb, hc.queue c hcb]
    exact h

/-- Others that sleep on another buffer. -/
theorem waits (hc : Change s s' t b) (hu : u ≠ t) (hne : c ≠ b) (h : s.Waits u c) :
    s'.Waits u c := by
  rw [Waits, hc.place u hu, hc.buf c hne, hc.queue c hne]
  exact h

end Change

/-- **What has to be shown of a step.** -/
theorem Inv.change (h : s.Inv) (hc : Change s s' t b)
    (hring : ∃ l, s'.links.IsRing HEAD l ∧ l.Perm (List.range NBUF))
    (hkey : ((s'.buf b).dev = (s.buf b).dev ∧ (s'.buf b).sector = (s.buf b).sector) ∨
      ∀ c < NBUF, c ≠ b → ¬ (s.buf c).IsFor (s'.buf b).dev (s'.buf b).sector)
    (hbuf : b < NBUF → s'.BufOk b) (hknows : s'.Knows t (s'.place t))
    (hnodup : s'.idequeue.Nodup) (hqueue : b ∈ s'.idequeue → s'.place t = .request b)
    (hcommand : s'.command = s'.idequeue.head?.map fun b ↦ (s'.buf b).command)
    (hasleep : ∀ u c, s'.asleep u = some c →
      s.asleep u = some c ∧ u ≠ t ∧ c ≠ b ∨ s'.Waits u c) : s'.Inv := by
  refine ⟨hring, fun c hlt d hltd hcd hpresent ↦ ?_, fun c hlt ↦ ?_, fun u ↦ ?_, hnodup,
    fun c hmem ↦ ?_, hcommand, fun u c hu ↦ ?_⟩
  · rw [hc.present_iff] at hpresent
    rintro ⟨hdev, hsector⟩
    rcases eq_or_ne c b with rfl | hcb
    · rw [hc.buf d hcd.symm] at hdev hsector
      rcases hkey with ⟨hdev', hsector'⟩ | hnone
      · rw [hdev', hsector'] at hpresent
        exact h.unique c hlt d hltd hcd hpresent ⟨hdev.trans hdev', hsector.trans hsector'⟩
      · exact hnone d hltd hcd.symm ⟨hdev, hsector⟩
    · rw [hc.buf c hcb] at hpresent hdev hsector
      rcases eq_or_ne d b with rfl | hdb
      · rcases hkey with ⟨hdev', hsector'⟩ | hnone
        · exact h.unique c hlt d hltd hcd hpresent
            ⟨hdev'.symm.trans hdev, hsector'.symm.trans hsector⟩
        · exact hnone c hlt hcb ⟨hdev.symm, hsector.symm⟩
      · rw [hc.buf d hdb] at hdev hsector
        exact h.unique c hlt d hltd hcd hpresent ⟨hdev, hsector⟩
  · rcases eq_or_ne c b with rfl | hne
    · exact hbuf hlt
    · exact hc.bufOk hlt hne (h.buf c hlt)
  · rcases eq_or_ne u t with rfl | hne
    · exact hknows
    · exact hc.knows hne (h.knows u)
  · rcases eq_or_ne c b with rfl | hne
    · exact ⟨t, hqueue hmem⟩
    · obtain ⟨u, hu⟩ := h.queue c ((hc.queue c hne).1 hmem)
      refine ⟨u, ?_⟩
      rcases eq_or_ne u t with rfl | hut
      · exact (hc.about.resolve_right fun hall ↦ hne (hall c (.inr (.inr hu)))).trans hu
      · exact (hc.place u hut).trans hu
  · rcases hasleep u c hu with ⟨hold, hut, hcb⟩ | hwaits
    · exact hc.waits hut hcb (h.asleep u c hold)
    · exact hwaits

end State

end BufferCache
