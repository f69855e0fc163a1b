import Mathlib.Data.List.Nodup
import Mathlib.Logic.Function.Basic
import Mathlib.Tactic.SplitIfs

/-!
# Doubly linked rings

The nodes of a list are linked in both directions, and a head that is not one of them closes the
ring. `IsRing` says which list the pointers represent, so that code that moves pointers is code that
changes a list.

* `IsRing.unlink`, `IsRing.pushFront`, `IsRing.moveFront` — a node is taken out, put behind the
  head, or moved there;
* `IsRing.self`, `IsRing.foldl_pushFront` — how a ring is made;
* `IsRing.search_next`, `IsRing.search_prev` — a loop that follows the pointers to the head finds
  what is found in the list, or in the list from its end.
-/

/-- The pointers of the nodes. -/
structure Links (α : Type*) where
  next : α → α
  prev : α → α

namespace Links

variable {α : Type*}

/-- The nodes of `l` are linked one after the other, between `a` and `c`. -/
def Seg (r : Links α) : α → List α → α → Prop
  | a, [], c => r.next a = c ∧ r.prev c = a
  | a, b :: l, c => (r.next a = b ∧ r.prev b = a) ∧ r.Seg b l c

/-- The ring of `head` and `l`. -/
def IsRing (r : Links α) (head : α) (l : List α) : Prop := r.Seg head l head ∧ (head :: l).Nodup

/-- The pointers the other way round. -/
def flip (r : Links α) : Links α := ⟨r.prev, r.next⟩

/-- Follow `succ` from `b` to the first node with `p`, as far as `stop`. -/
def search (p : α → Bool) [DecidableEq α] (succ : α → α) (stop : α) : ℕ → α → Option α
  | 0, _ => none
  | fuel + 1, b =>
    if b = stop then none else if p b then some b else search p succ stop fuel (succ b)

section

variable [DecidableEq α] (r : Links α)

def setNext (a b : α) : Links α := { r with next := Function.update r.next a b }

def setPrev (a b : α) : Links α := { r with prev := Function.update r.prev a b }

/-- `b->next->prev = b->prev; b->prev->next = b->next`. -/
def unlink (b : α) : Links α :=
  let r := r.setPrev (r.next b) (r.prev b)
  r.setNext (r.prev b) (r.next b)

/-- `b->next = head.next; b->prev = &head; head.next->prev = b; head.next = b`. -/
def pushFront (head b : α) : Links α :=
  let r := r.setNext b (r.next head)
  let r := r.setPrev b head
  let r := r.setPrev (r.next head) b
  r.setNext head b

end

variable {r r' : Links α} {a b c head : α} {l l₁ l₂ : List α} {p : α → Bool} {fuel : ℕ}

/-- What is linked depends on the pointers inside only. -/
theorem Seg.congr (h : r.Seg a l c) (hnext : ∀ x ∈ a :: l, r'.next x = r.next x)
    (hprev : ∀ x ∈ c :: l, r'.prev x = r.prev x) : r'.Seg a l c := by
  induction l generalizing a with
  | nil => exact ⟨(hnext a List.mem_cons_self).trans h.1, (hprev c List.mem_cons_self).trans h.2⟩
  | cons b l ih =>
    obtain ⟨⟨hn, hp⟩, hrest⟩ := h
    have hb := hprev b (List.mem_cons_of_mem c List.mem_cons_self)
    refine ⟨⟨(hnext a List.mem_cons_self).trans hn, hb.trans hp⟩, ih hrest ?_ fun x hx ↦ ?_⟩
    · exact fun x hx ↦ hnext x (List.mem_cons_of_mem a hx)
    · rcases List.mem_cons.1 hx with rfl | hx
      · exact hprev x List.mem_cons_self
      · exact hprev x (List.mem_cons_of_mem c (List.mem_cons_of_mem b hx))

theorem seg_append : r.Seg a (l₁ ++ b :: l₂) c ↔ r.Seg a l₁ b ∧ r.Seg b l₂ c := by
  induction l₁ generalizing a with
  | nil => exact Iff.rfl
  | cons x l₁ ih =>
    rw [List.cons_append, Seg, Seg, ih, and_assoc (c := r.Seg b l₂ c)]

theorem Seg.flip (h : r.Seg a l c) : r.flip.Seg c l.reverse a := by
  induction l generalizing a with
  | nil => exact ⟨h.2, h.1⟩
  | cons b l ih =>
    obtain ⟨⟨hn, hp⟩, hrest⟩ := h
    rw [List.reverse_cons]
    exact seg_append.2 ⟨ih hrest, hp, hn⟩

/-- The node behind `b`. -/
theorem Seg.next_mem (h : r.Seg b l c) : r.next b ∈ c :: l := by
  cases l with
  | nil => exact List.mem_cons.2 (.inl h.1)
  | cons x l =>
    rw [h.1.1]
    exact List.mem_cons_of_mem c List.mem_cons_self

/-- The node before `b`. -/
theorem Seg.prev_mem (h : r.Seg a l b) : r.prev b ∈ a :: l := by
  have hmem := h.flip.next_mem
  rwa [List.mem_cons, List.mem_reverse, ← List.mem_cons] at hmem

section

variable [DecidableEq α]

theorem Seg.search_next (h : r.Seg a l c) (hc : c ∉ l) (hfuel : l.length < fuel) :
    search p r.next c fuel (r.next a) = l.find? p := by
  induction l generalizing a fuel with
  | nil =>
    obtain ⟨fuel, rfl⟩ := Nat.exists_eq_succ_of_ne_zero (Nat.ne_of_gt hfuel)
    rw [h.1, search, if_pos rfl]
    rfl
  | cons b l ih =>
    obtain ⟨fuel, rfl⟩ := Nat.exists_eq_succ_of_ne_zero (Nat.ne_of_gt (Nat.zero_lt_of_lt hfuel))
    obtain ⟨hcb, hcl⟩ := not_or.1 (mt List.mem_cons.2 hc)
    rw [h.1.1, search, if_neg (Ne.symm hcb), List.find?_cons]
    cases hp : p b with
    | true => exact if_pos rfl
    | false =>
      rw [if_neg Bool.false_ne_true]
      exact ih h.2 hcl (Nat.lt_of_succ_lt_succ hfuel)

namespace IsRing

/-- **A loop from the front.** -/
theorem search_next (h : r.IsRing head l) (hfuel : l.length < fuel) :
    search p r.next head fuel (r.next head) = l.find? p :=
  h.1.search_next (List.nodup_cons.1 h.2).1 hfuel

/-- **A loop from the end.** -/
theorem search_prev (h : r.IsRing head l) (hfuel : l.length < fuel) :
    search p r.prev head fuel (r.prev head) = l.reverse.find? p := by
  refine Seg.search_next (r := r.flip) h.1.flip ?_ ?_
  · rw [List.mem_reverse]
    exact (List.nodup_cons.1 h.2).1
  · rwa [List.length_reverse]

end IsRing

/-! ### Moving pointers -/

theorem unlink_eq (hne : r.next b ≠ b) :
    r.unlink b =
      ⟨Function.update r.next (r.prev b) (r.next b),
        Function.update r.prev (r.next b) (r.prev b)⟩ := by
  simp only [unlink, setPrev, setNext, Function.update_of_ne hne.symm]

/-- Two segments are joined where `b` was between them. -/
theorem Seg.unlink (h₁ : r.Seg a l₁ b) (h₂ : r.Seg b l₂ c) (hnodup : (l₁ ++ b :: l₂).Nodup)
    (ha : a ∉ l₁ ++ b :: l₂) (hc : c ∉ l₁ ++ b :: l₂) : (r.unlink b).Seg a (l₁ ++ l₂) c := by
  have hb := (List.nodup_cons.1 (List.nodup_append.1 hnodup).2.1).1
  have hcb : c ≠ b := fun heq ↦ hc (heq ▸ List.mem_append_right l₁ List.mem_cons_self)
  have hne : r.next b ≠ b := fun heq ↦ by
    have hmem := h₂.next_mem
    rw [heq] at hmem
    exact (List.mem_cons.1 hmem).elim hcb.symm hb
  rw [unlink_eq hne]
  clear hne
  induction l₁ generalizing a with
  | nil =>
    rw [h₁.2, List.nil_append]
    cases l₂ with
    | nil =>
      rw [h₂.1]
      exact ⟨Function.update_self .., Function.update_self ..⟩
    | cons y l =>
      obtain ⟨⟨hn, hp⟩, hrest⟩ := h₂
      rw [hn]
      refine ⟨⟨Function.update_self .., Function.update_self ..⟩, hrest.congr (fun x hx ↦ ?_)
        fun x hx ↦ ?_⟩
      · refine Function.update_of_ne ?_ ..
        rintro rfl
        exact ha (List.mem_cons_of_mem b hx)
      · refine Function.update_of_ne ?_ ..
        rintro rfl
        rcases List.mem_cons.1 hx with rfl | hx
        · exact hc (List.mem_cons_of_mem b List.mem_cons_self)
        · exact (List.nodup_cons.1 (List.nodup_cons.1 hnodup).2).1 hx
  | cons x l₁ ih =>
    obtain ⟨⟨hn, hp⟩, hrest⟩ := h₁
    obtain ⟨hx, hnodup⟩ := List.nodup_cons.1 hnodup
    obtain ⟨hcx, hc⟩ := not_or.1 (mt List.mem_cons.2 hc)
    refine ⟨⟨?_, ?_⟩, ih hrest hnodup hx hc⟩
    · refine (Function.update_of_ne ?_ ..).trans hn
      rintro rfl
      refine ha (List.mem_cons.2 ?_)
      exact (List.mem_cons.1 hrest.prev_mem).imp id (List.mem_append_left _)
    · refine (Function.update_of_ne ?_ ..).trans hp
      rintro rfl
      rcases List.mem_cons.1 h₂.next_mem with heq | hmem
      · exact hcx heq.symm
      · exact hx (List.mem_append_right l₁ (List.mem_cons_of_mem b hmem))

namespace IsRing

/-- **A node is taken out.** -/
theorem unlink (h : r.IsRing head (l₁ ++ b :: l₂)) : (r.unlink b).IsRing head (l₁ ++ l₂) := by
  obtain ⟨hseg, hnodup⟩ := h
  obtain ⟨h₁, h₂⟩ := seg_append.1 hseg
  obtain ⟨hhead, hrest⟩ := List.nodup_cons.1 hnodup
  refine ⟨h₁.unlink h₂ hrest hhead hhead, ?_⟩
  exact hnodup.sublist (((List.sublist_cons_self b l₂).append_left l₁).cons_cons head)

/-- **A node is put behind the head.** -/
theorem pushFront (h : r.IsRing head l) (hb : b ∉ head :: l) :
    (r.pushFront head b).IsRing head (b :: l) := by
  obtain ⟨hseg, hnodup⟩ := h
  obtain ⟨hbh, hbl⟩ := not_or.1 (mt List.mem_cons.2 hb)
  obtain ⟨hhead, hl⟩ := List.nodup_cons.1 hnodup
  have hmem := hseg.next_mem
  have hnb : r.next head ≠ b := fun heq ↦ hb (heq ▸ hmem)
  have hlinks : r.pushFront head b =
      ⟨Function.update (Function.update r.next b (r.next head)) head b,
        Function.update (Function.update r.prev b head) (r.next head) b⟩ := by
    simp only [Links.pushFront, setNext, setPrev, Function.update_of_ne (Ne.symm hbh)]
  refine ⟨?_, ?_⟩
  · rw [hlinks]
    refine ⟨⟨Function.update_self .., ?_⟩, ?_⟩
    · exact (Function.update_of_ne (Ne.symm hnb) ..).trans (Function.update_self ..)
    · have hbnext : Function.update (Function.update r.next b (r.next head)) head b b =
          r.next head := (Function.update_of_ne hbh ..).trans (Function.update_self ..)
      cases l with
      | nil =>
        rw [hseg.1] at hbnext ⊢
        exact ⟨hbnext, Function.update_self ..⟩
      | cons y l =>
        obtain ⟨⟨hn, hp⟩, hrest⟩ := hseg
        rw [hn] at hbnext ⊢
        refine ⟨⟨hbnext, Function.update_self ..⟩, hrest.congr (fun x hx ↦ ?_) fun x hx ↦ ?_⟩
        · refine (Function.update_of_ne ?_ ..).trans (Function.update_of_ne ?_ ..)
          · rintro rfl
            exact hhead hx
          · rintro rfl
            exact hbl hx
        · have hxb : x ≠ b := by
            rintro rfl
            exact hb (List.mem_cons.2 ((List.mem_cons.1 hx).imp id (List.mem_cons_of_mem y)))
          refine (Function.update_of_ne ?_ ..).trans (Function.update_of_ne hxb ..)
          rintro rfl
          rcases List.mem_cons.1 hx with rfl | hx
          · exact hhead List.mem_cons_self
          · exact (List.nodup_cons.1 hl).1 hx
  · exact List.nodup_cons.2 ⟨fun hmem ↦ (List.mem_cons.1 hmem).elim (Ne.symm hbh) hhead,
      List.nodup_cons.2 ⟨hbl, hl⟩⟩

/-- **A node is moved behind the head.** -/
theorem moveFront (h : r.IsRing head l) (hb : b ∈ l) :
    ((r.unlink b).pushFront head b).IsRing head (b :: l.erase b) := by
  obtain ⟨l₁, l₂, rfl⟩ := List.append_of_mem hb
  obtain ⟨hhead, hl⟩ := List.nodup_cons.1 h.2
  have hb₁ : b ∉ l₁ := fun hmem ↦
    (List.nodup_append.1 hl).2.2 b hmem b List.mem_cons_self rfl
  have hb₂ : b ∉ l₂ := (List.nodup_cons.1 (List.nodup_append.1 hl).2.1).1
  rw [List.erase_append_right _ hb₁, List.erase_cons_head]
  refine h.unlink.pushFront fun hmem ↦ ?_
  rcases List.mem_cons.1 hmem with rfl | hmem
  · exact hhead hb
  · exact (List.mem_append.1 hmem).elim hb₁ hb₂

/-- **Nodes are put behind the head one after the other.** -/
theorem foldl_pushFront {bs : List α} (h : r.IsRing head l) (hnodup : (bs ++ head :: l).Nodup) :
    (bs.foldl (fun r b ↦ r.pushFront head b) r).IsRing head (bs.reverse ++ l) := by
  induction bs generalizing r l with
  | nil => exact h
  | cons b bs ih =>
    obtain ⟨hb, hrest⟩ := List.nodup_cons.1 hnodup
    have hperm : (bs ++ head :: b :: l).Perm (b :: (bs ++ head :: l)) :=
      ((List.Perm.swap b head l).append_left bs).trans List.perm_middle
    rw [List.reverse_cons, List.append_assoc]
    exact ih (h.pushFront fun hmem ↦ hb (List.mem_append_right bs hmem)) (hperm.nodup_iff.2 hnodup)

/-- The head alone. -/
theorem self : ((r.setPrev head head).setNext head head).IsRing head [] :=
  ⟨⟨Function.update_self .., Function.update_self ..⟩, List.nodup_singleton head⟩

end IsRing

end

end Links
