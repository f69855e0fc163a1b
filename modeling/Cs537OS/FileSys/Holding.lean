import Cs537OS.FileSys.Calls

/-!
# A process in the middle of a system call

A system call takes references and locks, one after the other, and gives them back. `Holding` says
what process `p` has taken since the state `s₀` in which the call began: the references `held`,
each an entry of the cache and the number of its inode, and the locks `locked`. Other processes
have no locks meanwhile, and their references stay as they are.

* `iget_eq`, `ilock_eq`, `iunlock_eq`, `iput_eq` — what the functions of the cache change;
* `Holding.iget`, `Holding.ilock`, `Holding.iunlock`, `Holding.iput` — what they take and give back.
-/

namespace FileSys

namespace State

variable {π : Type} {s₀ s s' : State π} {p : π} {F F' : ℕ → Option File} {held held' : List (ℕ × ℕ)}
  {locked locked' : List ℕ} {i j k l : ℕ} {e : Cached π}

/-- What `p` has taken since `s₀`, where the files are now `F`. -/
structure Holding (s₀ : State π) (p : π) (F : ℕ → Option File) (held : List (ℕ × ℕ))
    (locked : List ℕ) (s : State π) : Prop where
  inv : s.Inv
  files : s.files = F
  refs : s.refs.Perm (held.map (fun h ↦ (p, h.1)) ++ s₀.refs)
  busy : ∀ k, (s.inode k).busy = if k ∈ locked then some p else none
  inum : ∀ h ∈ held, (s.inode h.1).inum = h.2
  kept : ∀ r ∈ s₀.refs, (s.inode r.2).inum = (s₀.inode r.2).inum

/-! ### What the functions of the cache change -/

theorem iget_eq (h : s.iget p i = .ok (k, s')) : s'.refs = (p, k) :: s.refs ∧
    ∃ e, s'.inode = Function.update s.inode k e ∧ e.inum = i ∧
      ((s.inode k).inum = i ∧ e.busy = (s.inode k).busy ∨ (s.inode k).ref = 0 ∧ e.busy = none) := by
  rw [iget] at h
  cases hfind : s.find i with
  | some l =>
    rw [hfind] at h
    obtain ⟨rfl, rfl⟩ := Prod.mk.inj (Except.ok.inj h)
    exact ⟨rfl, _, rfl, (has_of_find hfind).inum, .inl ⟨(has_of_find hfind).inum, rfl⟩⟩
  | none =>
    rw [hfind] at h
    simp only at h
    cases hfree : (List.range NINODE).find? fun k ↦ (s.inode k).ref = 0 with
    | none =>
      rw [hfree] at h
      cases h
    | some l =>
      rw [hfree] at h
      obtain ⟨rfl, rfl⟩ := Prod.mk.inj (Except.ok.inj h)
      have hzero := List.find?_some (p := fun k ↦ decide ((s.inode k).ref = 0)) hfree
      exact ⟨rfl, _, rfl, rfl, .inr ⟨of_decide_eq_true hzero, rfl⟩⟩

theorem ilock_eq (h : s.ilock p k = .ok s') : s'.refs = s.refs ∧
    ∃ e, s'.inode = Function.update s.inode k e ∧ e.inum = (s.inode k).inum ∧ e.busy = some p := by
  rw [ilock] at h
  split_ifs at h
  cases hcopy : (s.inode k).copy with
  | some ip =>
    rw [hcopy] at h
    obtain rfl := Except.ok.inj h
    exact ⟨rfl, _, rfl, rfl, rfl⟩
  | none =>
    rw [hcopy] at h
    simp only at h
    split_ifs at h
    obtain rfl := Except.ok.inj h
    exact ⟨rfl, _, rfl, rfl, rfl⟩

theorem iunlock_eq (h : s.iunlock k = .ok s') : s'.refs = s.refs ∧
    ∃ e, s'.inode = Function.update s.inode k e ∧ e.inum = (s.inode k).inum ∧ e.busy = none := by
  rw [iunlock] at h
  split_ifs at h
  obtain rfl := Except.ok.inj h
  exact ⟨rfl, _, rfl, rfl, rfl⟩

theorem free_eq {ip : Inode} (h : s.free k ip = .ok s') : s'.refs = s.refs ∧
    (s.inode k).busy = none ∧
    ∃ e, s'.inode = Function.update s.inode k e ∧ e.inum = (s.inode k).inum ∧ e.busy = none := by
  rw [free] at h
  split_ifs at h with hbusy
  cases htrunc : itrunc s.disk ip with
  | error e =>
    rw [htrunc] at h
    cases h
  | ok r =>
    rw [htrunc] at h
    obtain rfl := Except.ok.inj h
    exact ⟨rfl, Option.not_isSome_iff_eq_none.1 hbusy, _, rfl, rfl, rfl⟩

section

variable [DecidableEq π]

theorem drop_inode (s : State π) (p : π) (k : ℕ) : (s.drop p k).inode =
    Function.update s.inode k { s.inode k with ref := (s.inode k).ref - 1 } := rfl

theorem iput_eq (h : s.iput p k = .ok s') : s'.refs = s.refs.erase (p, k) ∧
    ∃ e, s'.inode = Function.update s.inode k e ∧ e.inum = (s.inode k).inum ∧
      e.busy = (s.inode k).busy := by
  rw [iput] at h
  cases hcopy : (s.inode k).copy with
  | none =>
    rw [hcopy] at h
    obtain rfl := Except.ok.inj h
    exact ⟨rfl, _, rfl, rfl, rfl⟩
  | some ip =>
    rw [hcopy] at h
    simp only at h
    split_ifs at h
    · cases hfree : s.free k ip with
      | error e =>
        rw [hfree] at h
        cases h
      | ok t =>
        rw [hfree] at h
        obtain rfl := Except.ok.inj h
        obtain ⟨hrefs, hbusy, e, hinode, hinum, hnone⟩ := free_eq hfree
        refine ⟨?_, { e with ref := e.ref - 1 }, ?_, hinum, hnone.trans hbusy.symm⟩
        · rw [← hrefs]
          rfl
        · rw [drop_inode, hinode, Function.update_idem, Function.update_self]
    · obtain rfl := Except.ok.inj h
      exact ⟨rfl, _, rfl, rfl, rfl⟩

end

namespace Holding

/-- The references that are held are counted. -/
theorem mem_refs (h : Holding s₀ p F held locked s) (hmem : (k, i) ∈ held) : (p, k) ∈ s.refs :=
  h.refs.mem_iff.2 (List.mem_append_left _ (List.mem_map_of_mem (f := fun h ↦ (p, h.1)) hmem))

theorem has (h : Holding s₀ p F held locked s) (hmem : (k, i) ∈ held) : s.Has i k := by
  have hhas := h.inv.counted.has (h.mem_refs hmem)
  rwa [h.inum _ hmem] at hhas

/-- The file of an inode that is held. -/
theorem isSome (h : Holding s₀ p F held locked s) (hmem : (k, i) ∈ held) : (F i).isSome := by
  rw [← h.files, State.files, if_pos (h.inv.live i k (h.has hmem))]
  rfl

theorem locked_iff (h : Holding s₀ p F held locked s) (hmem : (k, i) ∈ held) :
    s.Locked p k ↔ k ∈ locked := by
  rw [Locked, h.busy, and_iff_right (h.has hmem).lt]
  split_ifs with hk
  · exact iff_of_true rfl hk
  · exact iff_of_false nofun hk

/-- **One entry** of the cache changes. -/
theorem update (h : Holding s₀ p F held locked s) (hinv : s'.Inv) (hfiles : s'.files = F')
    (hinode : s'.inode = Function.update s.inode k e)
    (hinum : e.inum = (s.inode k).inum ∨ (s.inode k).ref = 0)
    (hrefs : s'.refs.Perm (held'.map (fun h ↦ (p, h.1)) ++ s₀.refs))
    (hheld : ∀ a ∈ held', a ∈ held ∨ a = (k, e.inum))
    (hbusy : e.busy = if k ∈ locked' then some p else none)
    (hlocked : ∀ l, l ≠ k → (l ∈ locked' ↔ l ∈ locked)) :
    Holding s₀ p F' held' locked' s' := by
  have hkept : ∀ r ∈ s.refs, (s'.inode r.2).inum = (s.inode r.2).inum := by
    rintro ⟨q, l⟩ hr
    rcases eq_or_ne l k with rfl | hne
    · rw [inode_self hinode]
      exact hinum.resolve_right (h.inv.counted.pos hr).ne'
    · rw [inode_of_ne hinode hne]
  refine ⟨hinv, hfiles, hrefs, fun l ↦ ?_, fun a ha ↦ ?_, fun r hr ↦ ?_⟩
  · rcases eq_or_ne l k with rfl | hne
    · rw [inode_self hinode, hbusy]
    · rw [inode_of_ne hinode hne, h.busy l]
      simp only [hlocked l hne]
  · rcases hheld a ha with hold | rfl
    · exact (hkept (p, a.1) (h.mem_refs hold)).trans (h.inum a hold)
    · exact congrArg Cached.inum (inode_self hinode)
  · exact (hkept r (h.refs.mem_iff.2 (List.mem_append_right _ hr))).trans (h.kept r hr)

/-- **`iget`** takes a reference. -/
theorem iget (h : Holding s₀ p F held locked s) (hi : (F i).isSome) :
    (∃ k s', s.iget p i = .ok (k, s') ∧ Holding s₀ p F ((k, i) :: held) locked s') ∨
      s.iget p i = .error "iget: no inodes" ∧
        ∀ k < NINODE, (∃ i, (k, i) ∈ held) ∨ ∃ q, (q, k) ∈ s₀.refs := by
  have hlive : Live s.disk i := by
    rw [← h.files, State.files] at hi
    by_contra hdead
    rw [if_neg hdead] at hi
    cases hi
  rcases iget_spec h.inv hlive p with ⟨k, s', hok, hinv, hfiles, hhas⟩ | ⟨herr, hall⟩
  · obtain ⟨hrefs, e, hinode, hinum, hor⟩ := iget_eq hok
    refine .inl ⟨k, s', hok, h.update hinv (hfiles.trans h.files) hinode ?_ ?_ ?_ ?_
      fun _ _ ↦ Iff.rfl⟩
    · exact hor.imp (fun hold ↦ hinum.trans hold.1.symm) And.left
    · rw [hrefs]
      exact h.refs.cons (p, k)
    · rw [hinum]
      exact fun a ha ↦ (List.mem_cons.1 ha).symm
    · rw [← h.busy k]
      rcases hor with ⟨-, hbusy⟩ | ⟨hzero, hbusy⟩
      · exact hbusy
      · rw [hbusy]
        cases hk : (s.inode k).busy with
        | none => rfl
        | some q => exact absurd hzero (h.inv.counted.pos (h.inv.counted.busy k q hk).1).ne'
  · refine .inr ⟨herr, fun k hk ↦ ?_⟩
    have hpos := hall k hk
    rw [h.inv.counted.ref_eq k, List.countP_pos_iff] at hpos
    obtain ⟨⟨q, l⟩, hmem, hl⟩ := hpos
    obtain rfl : l = k := of_decide_eq_true hl
    rcases List.mem_append.1 (h.refs.mem_iff.1 hmem) with hheld | hold
    · obtain ⟨⟨l', i⟩, ha, heq⟩ := List.mem_map.1 hheld
      obtain ⟨-, rfl⟩ := Prod.mk.inj heq
      exact .inl ⟨i, ha⟩
    · exact .inr ⟨q, hold⟩

/-- **`ilock`** takes a lock. -/
theorem ilock (h : Holding s₀ p F held locked s) (hmem : (k, i) ∈ held) :
    ∃ s', s.ilock p k = .ok s' ∧ Holding s₀ p F held (k :: locked) s' := by
  obtain ⟨s', hok, hinv, hfiles⟩ := ilock_spec h.inv (h.mem_refs hmem)
  obtain ⟨hrefs, e, hinode, hinum, hbusy⟩ := ilock_eq hok
  refine ⟨s', hok, h.update hinv (hfiles.trans h.files) hinode (.inl hinum) ?_
    (fun a ↦ Or.inl) ?_ fun l hne ↦ ?_⟩
  · rw [hrefs]
    exact h.refs
  · rw [hbusy, if_pos List.mem_cons_self]
  · rw [List.mem_cons, or_iff_right hne]

/-- **`iunlock`** gives a lock back. -/
theorem iunlock (h : Holding s₀ p F held locked s) (hmem : (k, i) ∈ held) (hk : k ∈ locked) :
    ∃ s', s.iunlock k = .ok s' ∧ Holding s₀ p F held (locked.filter (· ≠ k)) s' := by
  obtain ⟨s', hok, hinv, hfiles⟩ := iunlock_spec h.inv ((h.locked_iff hmem).2 hk)
  obtain ⟨hrefs, e, hinode, hinum, hbusy⟩ := iunlock_eq hok
  refine ⟨s', hok, h.update hinv (hfiles.trans h.files) hinode (.inl hinum) ?_
    (fun a ↦ Or.inl) ?_ fun l hne ↦ ?_⟩
  · rw [hrefs]
    exact h.refs
  · rw [hbusy, if_neg]
    simp only [List.mem_filter, ne_eq, not_true_eq_false, decide_false, Bool.false_eq_true,
      and_false, not_false_eq_true]
  · simp only [List.mem_filter, ne_eq, hne, not_false_eq_true, decide_true, and_true]

section

variable [DecidableEq π]

/-- A reference that is held is given back. -/
theorem perm_erase (h : Holding s₀ p F held locked s) (hperm : held.Perm ((k, i) :: held')) :
    (s.refs.erase (p, k)).Perm (held'.map (fun h ↦ (p, h.1)) ++ s₀.refs) := by
  have hmap : s.refs.Perm ((p, k) :: (held'.map (fun h ↦ (p, h.1)) ++ s₀.refs)) :=
    h.refs.trans ((hperm.map fun h ↦ (p, h.1)).append_right s₀.refs)
  have herase := hmap.erase (p, k)
  rwa [List.erase_cons_head] at herase

/-- A lock keeps another reference. -/
theorem may_put (h : Holding s₀ p F held locked s) (hperm : held.Perm ((k, i) :: held'))
    (hlocked : k ∈ locked → ∃ j, (k, j) ∈ held') :
    (s.inode k).busy = some p → 2 ≤ s.refs.count (p, k) := by
  intro hbusy
  rw [h.busy] at hbusy
  split_ifs at hbusy with hk
  obtain ⟨j, hj⟩ := hlocked hk
  have hmem : (p, k) ∈ s.refs.erase (p, k) := (h.perm_erase hperm).mem_iff.2
    (List.mem_append_left _ (List.mem_map_of_mem (f := fun h ↦ (p, h.1)) hj))
  rw [← List.count_pos_iff, List.count_erase_self] at hmem
  omega

/-- **`iput`** of a file that has links gives a reference back. -/
theorem iput (h : Holding s₀ p F held locked s) (hperm : held.Perm ((k, i) :: held'))
    (hlocked : k ∈ locked → ∃ j, (k, j) ∈ held') {f : File} (hf : F i = some f)
    (hlinks : f.nlink ≠ 0) :
    ∃ s', s.iput p k = .ok s' ∧ Holding s₀ p F held' locked s' := by
  have hmem : (k, i) ∈ held := hperm.mem_iff.2 List.mem_cons_self
  obtain ⟨s', hok, hinv, -, hfiles⟩ :=
    iput_spec h.inv (h.mem_refs hmem) (h.may_put hperm hlocked)
  have hno : ¬ s.Orphan k := fun horphan ↦ by
    refine hlinks (horphan.nlink f ?_)
    rw [h.inum _ hmem, h.files]
    exact hf
  obtain ⟨hrefs, e, hinode, hinum, hbusy⟩ := iput_eq hok
  refine ⟨s', hok, h.update hinv ((hfiles hno).trans h.files) hinode (.inl hinum) ?_
    (fun a ha ↦ .inl (hperm.mem_iff.2 (List.mem_cons_of_mem _ ha))) ?_ fun _ _ ↦ Iff.rfl⟩
  · rw [hrefs]
    exact h.perm_erase hperm
  · rw [hbusy, h.busy]

end

end Holding

end State

end FileSys
