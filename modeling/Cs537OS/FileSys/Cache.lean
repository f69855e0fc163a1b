import Cs537OS.FileSys.Icache

/-!
# What the cache shows

An inode has at most one entry in use (`Keyed`), so an entry that is found is the one that was
locked. The reference count of an entry is the number of references that processes have to it, and
who has a lock has a reference (`Counted`). The inodes in the cache are allocated, and the disk with
the copies for the inodes is consistent.

* `Keyed.find_eq`, `Keyed.view_self`, `Keyed.view_of_ne` — what is seen through the cache;
* `Keyed.update`, `Counted.get`, `Counted.drop` — how the table changes.
-/

namespace FileSys

namespace State

variable {π : Type} {s s' : State π} {p q : π} {i j k l : ℕ} {e : Cached π}

/-- The entry is in use for the inode. -/
structure Has (s : State π) (i k : ℕ) : Prop where
  lt : k < NINODE
  ref : 0 < (s.inode k).ref
  inum : (s.inode k).inum = i

/-- No two entries in use are for the same inode. -/
def Keyed (s : State π) : Prop := ∀ i k l, s.Has i k → s.Has i l → k = l

/-- The references and the locks. -/
structure Counted (s : State π) : Prop where
  ref_eq : ∀ k, (s.inode k).ref = s.refs.countP (·.2 = k)
  lt : ∀ r ∈ s.refs, r.2 < NINODE
  busy : ∀ k p, (s.inode k).busy = some p → (p, k) ∈ s.refs ∧ (s.inode k).copy.isSome

theorem inode_self (h : s'.inode = Function.update s.inode k e) : s'.inode k = e := by
  rw [h, Function.update_self]

theorem inode_of_ne (h : s'.inode = Function.update s.inode k e) (hne : l ≠ k) :
    s'.inode l = s.inode l := by
  rw [h, Function.update_of_ne hne]

theorem Has.congr (h : s.Has i k) (heq : s'.inode k = s.inode k) : s'.Has i k := by
  refine ⟨h.lt, ?_, ?_⟩ <;> rw [heq]
  · exact h.ref
  · exact h.inum

/-- An entry that is in use now. -/
theorem has_of_used (hinode : s'.inode = Function.update s.inode k e) (hk : k < NINODE)
    (hinum : e.inum = i) (href : 0 < e.ref) : s'.Has i k := by
  refine ⟨hk, ?_, ?_⟩ <;> rw [inode_self hinode]
  · exact href
  · exact hinum

/-- An entry that is not in use any more. -/
theorem not_has_of_unused (hinode : s'.inode = Function.update s.inode k e) (href : e.ref = 0)
    (j : ℕ) : ¬ s'.Has j k := by
  intro hj
  have hpos := hj.ref
  rw [inode_self hinode] at hpos
  omega

/-- The other entries. -/
theorem has_of_unused (hinode : s'.inode = Function.update s.inode k e) (href : e.ref = 0)
    (j l : ℕ) (hl : s'.Has j l) : l ≠ k ∧ s.Has j l := by
  have hne : l ≠ k := by
    rintro rfl
    exact not_has_of_unused hinode href j hl
  exact ⟨hne, hl.congr (inode_of_ne hinode hne).symm⟩

/-! ### Looking an inode up -/

theorem has_of_find (h : s.find i = some k) : s.Has i k := by
  have hmem := List.mem_range.1 (List.mem_of_find?_eq_some h)
  have hhas := List.find?_some h
  simp only [Bool.decide_and, Bool.and_eq_true, decide_eq_true_eq] at hhas
  exact ⟨hmem, hhas.1, hhas.2⟩

theorem not_has_of_find (h : s.find i = none) (k : ℕ) : ¬ s.Has i k := by
  intro hhas
  have hnone := List.find?_eq_none.1 h k (List.mem_range.2 hhas.lt)
  simp only [Bool.decide_and, Bool.and_eq_true, decide_eq_true_eq] at hnone
  exact hnone ⟨hhas.ref, hhas.inum⟩

theorem Keyed.find_eq (hkey : s.Keyed) (h : s.Has i k) : s.find i = some k := by
  cases hfind : s.find i with
  | none => exact absurd h (not_has_of_find hfind k)
  | some l => rw [hkey i k l h (has_of_find hfind)]

theorem find_eq_none (h : ∀ k, ¬ s.Has i k) : s.find i = none := by
  cases hfind : s.find i with
  | none => rfl
  | some k => exact absurd (has_of_find hfind) (h k)

/-- An inode with an entry. -/
theorem Keyed.view_self (hkey : s.Keyed) (h : s.Has i k) :
    s.view i = (s.inode k).copy.getD (readInode s.disk i) := by
  rw [view, hkey.find_eq h]
  rfl

theorem Keyed.view_copy (hkey : s.Keyed) (h : s.Has i k) {ip : Inode}
    (hcopy : (s.inode k).copy = some ip) : s.view i = ip := by
  rw [hkey.view_self h, hcopy]
  rfl

/-- An inode without an entry. -/
theorem view_none (h : ∀ k, ¬ s.Has i k) : s.view i = readInode s.disk i := by
  rw [view, find_eq_none h]
  rfl

/-- **Other inodes** than that of the entry that changes. -/
theorem Keyed.view_of_ne (hkey : s.Keyed) (hkey' : s'.Keyed)
    (hinode : s'.inode = Function.update s.inode k e) (hk : ¬ s.Has i k) (hk' : ¬ s'.Has i k)
    (hdisk : readInode s'.disk i = readInode s.disk i) : s'.view i = s.view i := by
  have hiff : ∀ l, s'.Has i l → s.Has i l ∧ s'.inode l = s.inode l := by
    intro l hl
    have hne : l ≠ k := by
      rintro rfl
      exact hk' hl
    have heq := inode_of_ne hinode hne
    exact ⟨hl.congr heq.symm, heq⟩
  cases hfind : s'.find i with
  | some l =>
    obtain ⟨hl, heq⟩ := hiff l (has_of_find hfind)
    rw [hkey'.view_self (has_of_find hfind), hkey.view_self hl, heq, hdisk]
  | none =>
    have hnone := not_has_of_find hfind
    rw [view_none hnone, view_none, hdisk]
    intro l hl
    have hne : l ≠ k := by
      rintro rfl
      exact hk hl
    exact hnone l (hl.congr (inode_of_ne hinode hne))

/-! ### Changing an entry -/

/-- An entry in use keeps its inode. -/
theorem Keyed.update (hkey : s.Keyed) (hinode : s'.inode = Function.update s.inode k e)
    (hself : ∀ i, s'.Has i k → s.Has i k) : s'.Keyed := by
  have hhas : ∀ i l, s'.Has i l → s.Has i l := by
    intro i l hl
    rcases eq_or_ne l k with rfl | hne
    · exact hself i hl
    · exact hl.congr (inode_of_ne hinode hne).symm
  exact fun i k l hk hl ↦ hkey i k l (hhas i k hk) (hhas i l hl)

/-- A free entry is taken for an inode that had none. -/
theorem Keyed.fresh (hkey : s.Keyed) (hinode : s'.inode = Function.update s.inode k e)
    (hinum : e.inum = i) (hnone : ∀ l, ¬ s.Has i l) : s'.Keyed := by
  have hhas : ∀ j l, l ≠ k → s'.Has j l → s.Has j l := fun j l hne hl ↦
    hl.congr (inode_of_ne hinode hne).symm
  have hnot : ∀ j l, l ≠ k → s'.Has j k → ¬ s'.Has j l := by
    intro j l hne hk hl
    have hj := hk.inum
    rw [inode_self hinode, hinum] at hj
    subst hj
    exact hnone l (hhas i l hne hl)
  intro j m n hm hn
  rcases eq_or_ne m k with rfl | hmk
  · by_contra hne
    exact hnot j n (Ne.symm hne) hm hn
  · rcases eq_or_ne n k with rfl | hnk
    · exact absurd hm (hnot j m hmk hn)
    · exact hkey j m n (hhas j m hmk hm) (hhas j n hnk hn)

/-! ### Counting references -/

namespace Counted

/-- Who has a reference has an entry in use. -/
theorem pos (h : s.Counted) (hmem : (p, k) ∈ s.refs) : 0 < (s.inode k).ref := by
  rw [h.ref_eq k]
  exact List.countP_pos_iff.2 ⟨_, hmem, decide_eq_true rfl⟩

theorem has (h : s.Counted) (hmem : (p, k) ∈ s.refs) : s.Has (s.inode k).inum k :=
  ⟨h.lt _ hmem, h.pos hmem, rfl⟩

/-- One more reference. -/
theorem get (h : s.Counted) (hk : k < NINODE) (hinode : s'.inode = Function.update s.inode k e)
    (href : e.ref = (s.inode k).ref + 1) (hrefs : s'.refs = (p, k) :: s.refs)
    (hbusy : ∀ q, e.busy = some q → (s.inode k).busy = some q ∧ e.copy = (s.inode k).copy) :
    s'.Counted := by
  have hself := inode_self hinode
  have hother := fun {l} ↦ inode_of_ne (l := l) hinode
  refine ⟨fun l ↦ ?_, fun r hr ↦ ?_, fun l q hq ↦ ?_⟩
  · rw [hrefs, List.countP_cons]
    rcases eq_or_ne l k with rfl | hne
    · rw [hself, href, h.ref_eq l]
      simp only [decide_true, if_true]
    · rw [hother hne, h.ref_eq l]
      simp only [decide_eq_true_eq, if_neg hne.symm, Nat.add_zero]
  · rw [hrefs] at hr
    rcases List.mem_cons.1 hr with rfl | hr
    · exact hk
    · exact h.lt r hr
  · rw [hrefs]
    rcases eq_or_ne l k with rfl | hne
    · rw [hself] at hq ⊢
      obtain ⟨hold, hcopy⟩ := hbusy q hq
      rw [hcopy]
      exact (h.busy l q hold).imp_left (List.mem_cons_of_mem _)
    · rw [hother hne] at hq ⊢
      exact (h.busy l q hq).imp_left (List.mem_cons_of_mem _)

/-- The references are the same. -/
theorem lock (h : s.Counted) (hinode : s'.inode = Function.update s.inode k e)
    (href : e.ref = (s.inode k).ref) (hrefs : s'.refs = s.refs)
    (hbusy : ∀ q, e.busy = some q → (q, k) ∈ s.refs ∧ e.copy.isSome) : s'.Counted := by
  have hself := inode_self hinode
  have hother := fun {l} ↦ inode_of_ne (l := l) hinode
  refine ⟨fun l ↦ ?_, fun r hr ↦ ?_, fun l q hq ↦ ?_⟩
  · rw [hrefs, ← h.ref_eq l]
    rcases eq_or_ne l k with rfl | hne
    · rw [hself, href]
    · rw [hother hne]
  · rw [hrefs] at hr
    exact h.lt r hr
  · rw [hrefs]
    rcases eq_or_ne l k with rfl | hne
    · rw [hself] at hq ⊢
      exact hbusy q hq
    · rw [hother hne] at hq ⊢
      exact h.busy l q hq

variable [DecidableEq π]

/-- A lock has a reference other than the one that is given back. -/
theorem stays (h : s.Counted) (hmay : (s.inode k).busy = some p → 2 ≤ s.refs.count (p, k))
    (hq : (s.inode k).busy = some q) : (q, k) ∈ s.refs.erase (p, k) := by
  rcases eq_or_ne q p with rfl | hne
  · rw [← List.count_pos_iff, List.count_erase_self]
    have htwo := hmay hq
    omega
  · refine (List.mem_erase_of_ne ?_).2 (h.busy k q hq).1
    rintro heq
    exact hne (Prod.mk.inj heq).1

theorem countP_erase (hmem : (p, k) ∈ s.refs) (l : ℕ) :
    s.refs.countP (·.2 = l) =
      (s.refs.erase (p, k)).countP (·.2 = l) + if k = l then 1 else 0 := by
  rw [(List.perm_cons_erase hmem).countP_eq, List.countP_cons]
  simp only [decide_eq_true_eq]

/-- The last reference is not that of a lock. -/
theorem not_busy (h : s.Counted) (hmem : (p, k) ∈ s.refs)
    (hmay : (s.inode k).busy = some p → 2 ≤ s.refs.count (p, k)) (hlast : (s.inode k).ref = 1) :
    (s.inode k).busy = none := by
  cases hbusy : (s.inode k).busy with
  | none => rfl
  | some q =>
    have hstays := h.stays hmay hbusy
    have hpos : 0 < (s.refs.erase (p, k)).countP (·.2 = k) :=
      List.countP_pos_iff.2 ⟨_, hstays, decide_eq_true rfl⟩
    rw [h.ref_eq k, countP_erase hmem, if_pos rfl] at hlast
    omega

/-- A reference is given back. -/
theorem drop (h : s.Counted) (hmem : (p, k) ∈ s.refs)
    (hmay : (s.inode k).busy = some p → 2 ≤ s.refs.count (p, k))
    (hinode : s'.inode = Function.update s.inode k e) (href : e.ref = (s.inode k).ref - 1)
    (hrefs : s'.refs = s.refs.erase (p, k))
    (hbusy : ∀ q, e.busy = some q → (s.inode k).busy = some q ∧ e.copy = (s.inode k).copy) :
    s'.Counted := by
  have hself := inode_self hinode
  have hother := fun {l} ↦ inode_of_ne (l := l) hinode
  refine ⟨fun l ↦ ?_, fun r hr ↦ ?_, fun l q hq ↦ ?_⟩
  · have hcount := countP_erase hmem l
    rw [hrefs]
    rcases eq_or_ne l k with rfl | hne
    · rw [if_pos rfl] at hcount
      rw [hself, href, h.ref_eq l, hcount, Nat.add_sub_cancel]
    · rw [if_neg hne.symm] at hcount
      rw [hother hne, h.ref_eq l, hcount, Nat.add_zero]
  · rw [hrefs] at hr
    exact h.lt r (List.mem_of_mem_erase hr)
  · rw [hrefs]
    rcases eq_or_ne l k with rfl | hne
    · rw [hself] at hq ⊢
      obtain ⟨hold, hcopy⟩ := hbusy q hq
      rw [hcopy]
      exact ⟨h.stays hmay hold, (h.busy l q hold).2⟩
    · rw [hother hne] at hq ⊢
      refine (h.busy l q hq).imp_left fun hin ↦ (List.mem_erase_of_ne ?_).2 hin
      rintro heq
      exact hne (Prod.mk.inj heq).2

end Counted

end State

end FileSys
