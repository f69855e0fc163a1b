import Cs537OS.FileSys.Store

/-!
# The functions of the cache

What each function does where the cache and the disk fit together: it does not panic, leaves them
fitting together, and changes one file or none.

* `iget_spec`, `idup_spec`, `ilock_spec`, `iunlock_spec` — none;
* `iput_spec` — the file is gone with the last reference to it, if it has no links;
* `store_spec`, with `readi_ok`, `writei_ok` and `FileOk.header` — a file that is read or written;
* `create_spec` — a new one.
-/

namespace FileSys

namespace State

variable {π : Type} {s s' : State π} {p q : π} {i j k l : ℕ} {d d' : Disk} {ip ip' : Inode}
  {e : Cached π}

/-- **`iget`** does not change what is seen. -/
theorem iget_spec (h : s.Inv) (hi : Live s.disk i) (p : π) :
    (∃ k s', s.iget p i = .ok (k, s') ∧ s'.Inv ∧ s'.files = s.files ∧ s'.Has i k) ∨
      s.iget p i = .error "iget: no inodes" ∧ ∀ k < NINODE, 0 < (s.inode k).ref := by
  rw [iget]
  cases hfind : s.find i with
  | some k =>
    have hhas := has_of_find hfind
    refine .inl ⟨k, _, rfl, and_assoc.1 ⟨h.touch hhas rfl hhas.inum (Nat.succ_pos _) rfl rfl ?_,
      has_of_used rfl hhas.lt hhas.inum (Nat.succ_pos _)⟩⟩
    exact h.counted.get hhas.lt rfl rfl rfl fun q hq ↦ ⟨hq, rfl⟩
  | none =>
    simp only
    cases hfree : (List.range NINODE).find? fun k ↦ (s.inode k).ref = 0 with
    | none =>
      refine .inr ⟨rfl, fun k hk ↦ Nat.pos_of_ne_zero fun hzero ↦ ?_⟩
      exact List.find?_eq_none.1 hfree k (List.mem_range.2 hk) (decide_eq_true hzero)
    | some k =>
      have hk := List.mem_range.1 (List.mem_of_find?_eq_some hfree)
      have hzero : (s.inode k).ref = 0 := of_decide_eq_true
        (List.find?_some (p := fun k ↦ decide ((s.inode k).ref = 0)) hfree)
      refine .inl ⟨k, _, rfl, and_assoc.1 ⟨h.fresh hi (not_has_of_find hfind) hk hzero rfl rfl
        Nat.one_pos rfl rfl ?_, has_of_used rfl hk rfl Nat.one_pos⟩⟩
      refine h.counted.get hk rfl ?_ rfl fun q hq ↦ ?_
      · rw [hzero]
      · cases hq

/-- A reference is duplicated. -/
theorem idup_spec (h : s.Inv) (hmem : (p, k) ∈ s.refs) :
    (s.idup p k).Inv ∧ (s.idup p k).files = s.files := by
  have hhas := h.counted.has hmem
  refine h.touch hhas rfl hhas.inum (Nat.succ_pos _) rfl rfl ?_
  exact h.counted.get hhas.lt rfl rfl rfl fun q hq ↦ ⟨hq, rfl⟩

/-- **`ilock`** of an inode that is not locked. -/
theorem ilock_spec (h : s.Inv) (hmem : (p, k) ∈ s.refs) :
    ∃ s', s.ilock p k = .ok s' ∧ s'.Inv ∧ s'.files = s.files := by
  have hhas := h.counted.has hmem
  rw [ilock, if_neg (Nat.not_lt.2 hhas.ref)]
  cases hcopy : (s.inode k).copy with
  | some ip =>
    refine ⟨_, rfl, h.touch hhas rfl rfl hhas.ref rfl rfl ?_⟩
    refine h.counted.lock rfl rfl rfl fun q hq ↦ ?_
    obtain rfl := Option.some.inj hq
    exact ⟨hmem, by rw [hcopy]; rfl⟩
  | none =>
    have htype := (h.live _ k hhas).type
    simp only
    rw [if_neg htype]
    refine ⟨_, rfl, h.touch hhas rfl rfl hhas.ref ?_ rfl ?_⟩
    · rw [hcopy]
      rfl
    · refine h.counted.lock rfl rfl rfl fun q hq ↦ ?_
      obtain rfl := Option.some.inj hq
      exact ⟨hmem, rfl⟩

theorem iunlock_spec (h : s.Inv) (hlock : s.Locked p k) :
    ∃ s', s.iunlock k = .ok s' ∧ s'.Inv ∧ s'.files = s.files := by
  have hhas := h.counted.has (h.counted.busy k p hlock.2).1
  have hno : ¬ ((s.inode k).busy.isNone ∨ (s.inode k).ref < 1) := by
    rw [hlock.2]
    rintro (hnone | hlt)
    · cases hnone
    · exact (Nat.not_lt.2 hhas.ref) hlt
  rw [iunlock, if_neg hno]
  refine ⟨_, rfl, h.touch hhas rfl rfl hhas.ref rfl rfl ?_⟩
  exact h.counted.lock rfl rfl rfl fun q hq ↦ by cases hq

/-- The file of a copy. -/
theorem Inv.files_eq (h : s.Inv) (hhas : s.Has i k) (hcopy : (s.inode k).copy = some ip) :
    s.files i = some (ip.file s.disk) := by
  rw [files, if_pos (h.live i k hhas), h.keyed.view_copy hhas hcopy]

section

variable [DecidableEq π]

/-- A reference is given back, and the inode is kept. -/
theorem drop_spec (h : s.Inv) (hmem : (p, k) ∈ s.refs)
    (hmay : (s.inode k).busy = some p → 2 ≤ s.refs.count (p, k)) :
    (s.drop p k).Inv ∧ (s.drop p k).files = s.files := by
  have hhas := h.counted.has hmem
  have hcounted : (s.drop p k).Counted :=
    h.counted.drop hmem hmay rfl rfl rfl fun q hq ↦ ⟨hq, rfl⟩
  by_cases hlast : (s.inode k).ref - 1 = 0
  · exact h.gone hhas rfl hlast rfl hcounted
  · have hinode : (s.drop p k).inode =
        Function.update s.inode k { s.inode k with ref := (s.inode k).ref - 1 } := rfl
    exact h.touch hhas hinode rfl (Nat.pos_of_ne_zero hlast) rfl rfl hcounted

/-- **The last reference to an inode without links**: the file is gone, and nothing else. -/
theorem free_spec (h : s.Inv) (hmem : (p, k) ∈ s.refs)
    (hmay : (s.inode k).busy = some p → 2 ≤ s.refs.count (p, k)) (hlast : (s.inode k).ref = 1)
    (hcopy : (s.inode k).copy = some ip) :
    ∃ s', s.free k ip = .ok s' ∧ (s'.drop p k).Inv ∧
      (s'.drop p k).files = Function.update s.files (s.inode k).inum none := by
  have hhas := h.counted.has hmem
  have hok := h.fileOk hhas hcopy
  have hlive := h.live _ k hhas
  have hlt : ip.inum < (readsb s.disk).ninodes := by
    rw [hok.inum]
    exact hlive.lt
  obtain ⟨d, htrunc, hlaid, hframe, -⟩ := itrunc_spec hok.laid.sound hok.laid.owns hok.fits hlt
  have hlt' : ({ ip.emptied with type := 0 } : Inode).inum < (readsb d).ninodes := by
    rw [hframe.readsb_eq]
    exact hlt
  have hfits : ({ ip.emptied with type := 0 } : Inode).Fits :=
    { hok.fits with
      type := Nat.two_pow_pos 16
      size := Nat.two_pow_pos 32
      addrs := fun _ ↦ Nat.two_pow_pos 32
      beyond := fun _ _ ↦ rfl }
  have hframe' : Frame s.disk ip (iupdate d { ip.emptied with type := 0 })
      { ip.emptied with type := 0 } := hframe.iupdate hlaid.owns rfl rfl hlt
  rw [free, h.counted.not_busy hmem hmay hlast]
  simp only [htrunc, bind, Except.bind]
  refine ⟨_, rfl, ?_⟩
  generalize hs' : State.drop _ p k = s'
  have hdisk : s'.disk = iupdate d { ip.emptied with type := 0 } := by rw [← hs']; rfl
  have hinode : s'.inode = Function.update s.inode k
      { s.inode k with ref := (s.inode k).ref - 1, busy := none, copy := none } := by
    rw [← hs']
    show Function.update (Function.update _ k _) k _ = _
    rw [Function.update_idem]
    simp only [setEntry, Function.update_self]
  have href : (s.inode k).ref - 1 = 0 := by rw [hlast]
  have hkeyed : s'.Keyed :=
    h.keyed.update hinode fun j hj ↦ absurd hj (not_has_of_unused hinode href j)
  have hne : ∀ {j l}, s'.Has j l → s.Has j l ∧ j ≠ (s.inode k).inum := by
    intro j l hl
    obtain ⟨hlk, hold⟩ := has_of_unused hinode href j l hl
    refine ⟨hold, ?_⟩
    rintro rfl
    exact hlk (h.keyed _ l k hold hhas)
  rw [← hdisk] at hframe'
  have hdead : ¬ Live s'.disk (s.inode k).inum := by
    rw [hdisk, ← hok.inum]
    refine fun hdead ↦ hdead.type ?_
    have hread := readInode_iupdate (d := d) hfits
    rw [show ip.inum = ({ ip.emptied with type := 0 } : Inode).inum from rfl, hread]
  obtain ⟨hconsistent, hfiles⟩ := h.change hframe' hok.inum
    (fun j hj hji ↦ by
      have hapart := h.consistent.apart j _ hj hlive hji
      rwa [h.keyed.view_copy hhas hcopy] at hapart)
    (by rw [hdisk]; exact hlaid.sound.iupdate hlt')
    (fun j hji hj ↦ h.keyed.view_of_ne hkeyed hinode (fun hjk ↦ hji (hjk.inum.symm.trans rfl))
      (not_has_of_unused hinode href j) (hframe'.others j hj.lt (by rwa [hok.inum])))
    fun hlive' ↦ absurd hlive' hdead
  refine ⟨⟨?_, hkeyed, fun j l hl ↦ ?_, hconsistent⟩, ?_⟩
  · refine h.counted.drop hmem hmay hinode rfl ?_ fun q hq ↦ ?_
    · rw [← hs']
      rfl
    · cases hq
  · obtain ⟨hold, hji⟩ := hne hl
    exact (hframe'.live_iff (by rwa [hok.inum])).2 (h.live j l hold)
  · rw [hfiles, files, if_neg hdead]

/-- A copy that is the only one in use of an inode without links. -/
structure Orphan (s : State π) (k : ℕ) : Prop where
  last : s.refs.countP (·.2 = k) = 1
  valid : (s.inode k).copy.isSome
  nlink : ∀ f ∈ s.files (s.inode k).inum, f.nlink = 0

/-- **`iput`** frees an inode with the last reference to it, if it has no links. -/
theorem iput_spec (h : s.Inv) (hmem : (p, k) ∈ s.refs)
    (hmay : (s.inode k).busy = some p → 2 ≤ s.refs.count (p, k)) :
    ∃ s', s.iput p k = .ok s' ∧ s'.Inv ∧
      (s.Orphan k → s'.files = Function.update s.files (s.inode k).inum none) ∧
      (¬ s.Orphan k → s'.files = s.files) := by
  have hhas := h.counted.has hmem
  obtain ⟨hinv, hfiles⟩ := drop_spec h hmem hmay
  rw [iput]
  cases hcopy : (s.inode k).copy with
  | none =>
    refine ⟨_, rfl, hinv, fun horphan ↦ ?_, fun _ ↦ hfiles⟩
    have hvalid := horphan.valid
    rw [hcopy] at hvalid
    cases hvalid
  | some ip =>
    have hfile := h.files_eq hhas hcopy
    have hiff : s.Orphan k ↔ (s.inode k).ref = 1 ∧ ip.nlink = 0 := by
      constructor
      · rintro ⟨hlast, -, hnlink⟩
        exact ⟨(h.counted.ref_eq k).trans hlast, hnlink _ hfile⟩
      · rintro ⟨hlast, hnlink⟩
        refine ⟨(h.counted.ref_eq k).symm.trans hlast, by rw [hcopy]; rfl, fun f hf ↦ ?_⟩
        rw [hfile] at hf
        rwa [← Option.some.inj hf]
    simp only
    by_cases horphan : (s.inode k).ref = 1 ∧ ip.nlink = 0
    · obtain ⟨s₁, hfree, hinv₁, hfiles₁⟩ := free_spec h hmem hmay horphan.1 hcopy
      rw [if_pos horphan, hfree]
      exact ⟨_, rfl, hinv₁, fun _ ↦ hfiles₁, fun hno ↦ absurd (hiff.2 horphan) hno⟩
    · rw [if_neg horphan]
      exact ⟨_, rfl, hinv, fun hyes ↦ absurd (hiff.1 hyes) horphan, fun _ ↦ hfiles⟩

end

/-! ### Reading and writing -/

/-- A locked inode. -/
theorem Inv.locked (h : s.Inv) (hlock : s.Locked p k) :
    s.Has (s.inode k).inum k ∧ ∃ ip, (s.inode k).copy = some ip ∧
      FileOk s.disk (s.inode k).inum ip := by
  obtain ⟨hmem, hcopy⟩ := h.counted.busy k p hlock.2
  have hhas := h.counted.has hmem
  obtain ⟨ip, hip⟩ := Option.isSome_iff_exists.1 hcopy
  exact ⟨hhas, ip, hip, h.fileOk hhas hip⟩

/-- **The copy of a locked inode and the disk** after an operation on the file. -/
theorem store_spec (h : s.Inv) (hlock : s.Locked p k) (hcopy : (s.inode k).copy = some ip)
    (hframe : Frame s.disk ip d ip') (hok : FileOk d (s.inode k).inum ip')
    (htype : ip'.type = ip.type) :
    (s.store k ip' d).Inv ∧
      (s.store k ip' d).files = Function.update s.files (s.inode k).inum (some (ip'.file d)) := by
  have hhas := h.counted.has (h.counted.busy k p hlock.2).1
  have hold := h.fileOk hhas hcopy
  have hlive := h.live _ k hhas
  have hinum : ip.inum = (s.inode k).inum := hold.inum
  generalize hs' : s.store k ip' d = s'
  have hdisk : s'.disk = d := by rw [← hs']; rfl
  have hinode : s'.inode = Function.update s.inode k { s.inode k with copy := some ip' } := by
    rw [← hs']
    rfl
  have he := inode_self hinode
  have hhas' : s'.Has (s.inode k).inum k := has_of_used hinode hhas.lt rfl hhas.ref
  have hkeyed : s'.Keyed := h.keyed.update hinode fun j hj ↦ by
    obtain rfl := hhas'.inum.symm.trans hj.inum
    exact hhas
  have hview : s'.view (s.inode k).inum = ip' := hkeyed.view_copy hhas' (by rw [he])
  have hlive' : Live s'.disk (s.inode k).inum := by
    rw [hdisk]
    refine ⟨hlive.pos, ?_, ?_⟩
    · rw [hframe.readsb_eq]
      exact hlive.lt
    · rw [← hok.inum, hok.agrees.type_eq, htype, ← hold.agrees.type_eq, hold.inum]
      exact hlive.type
  rw [← hdisk] at hframe hok
  obtain ⟨hconsistent, hfiles⟩ := h.change hframe hinum
    (fun j hj hji ↦ by
      have hapart := h.consistent.apart j _ hj hlive hji
      rwa [h.keyed.view_copy hhas hcopy] at hapart)
    hok.laid.sound
    (fun j hji hj ↦ h.keyed.view_of_ne hkeyed hinode (fun hjk ↦ hji (hjk.inum.symm.trans rfl))
      (fun hjk ↦ hji (hjk.inum.symm.trans hhas'.inum))
      (hframe.others j hj.lt (by rwa [hinum])))
    fun _ ↦ ⟨hview, hok⟩
  refine ⟨⟨?_, hkeyed, fun j l hl ↦ ?_, hconsistent⟩, ?_⟩
  · refine h.counted.lock hinode rfl (by rw [← hs']; rfl) fun q hq ↦ ?_
    exact ⟨(h.counted.busy k q hq).1, rfl⟩
  · rcases eq_or_ne j (s.inode k).inum with rfl | hji
    · exact hlive'
    · have hlk : l ≠ k := by
        rintro rfl
        exact hji (hl.inum.symm.trans hhas'.inum)
      refine (hframe.live_iff (by rwa [hinum])).2 (h.live j l ?_)
      exact hl.congr (inode_of_ne hinode hlk).symm
  · rw [hfiles, files, if_pos hlive', hview, hdisk]

/-- A copy that is stored unchanged. -/
theorem store_self (hcopy : (s.inode k).copy = some ip) : s.store k ip s.disk = s := by
  have he : { s.inode k with copy := some ip } = s.inode k := by rw [← hcopy]
  rw [store, setEntry, he, Function.update_eq_self]

/-- **A new inode** on the disk. -/
theorem create_spec (h : s.Inv) {type : ℕ} (hpos : 0 < i) (hlt : i < (readsb s.disk).ninodes)
    (hfree : (readInode s.disk i).type = 0) (htype : 0 < type ∧ type < 2 ^ 16) :
    let s' := { s with disk := iupdate s.disk (.blank i type) }
    s'.Inv ∧ Live s'.disk i ∧ s.files i = none ∧
      s'.files = Function.update s.files i (some ⟨type, 0, 0, 0, []⟩) := by
  intro s'
  have hdead : ¬ Live s.disk i := fun hlive ↦ hlive.type hfree
  have hfits : (Inode.blank i type).Fits :=
    ⟨htype.2, Nat.two_pow_pos 16, Nat.two_pow_pos 16, Nat.two_pow_pos 16, Nat.two_pow_pos 32,
      fun _ ↦ Nat.two_pow_pos 32, fun _ _ ↦ rfl⟩
  have hread : readInode s'.disk i = .blank i type := readInode_iupdate hfits
  have hsound : Sound s'.disk := h.consistent.sound.iupdate hlt
  have hframe : Frame s.disk (.blank i type) s'.disk (.blank i type) :=
    (Grows.refl s.disk _).frame.iupdate (owns_emptied (.blank i type)) rfl rfl hlt
  have hok : FileOk s'.disk i (.blank i type) :=
    ⟨rfl, hfits, .inl hread, laid_emptied (.blank i type) hsound⟩
  have hlive : Live s'.disk i := by
    refine ⟨hpos, ?_, ?_⟩
    · rw [hframe.readsb_eq]
      exact hlt
    · rw [hread]
      exact htype.1.ne'
  have hback : ∀ {j k}, s'.Has j k → s.Has j k := fun hk ↦ ⟨hk.lt, hk.ref, hk.inum⟩
  have hview : s'.view i = .blank i type := by
    rw [view_none, hread]
    exact fun k hk ↦ hdead (h.live i k (hback hk))
  obtain ⟨hconsistent, hfiles⟩ := h.change (i := i) hframe rfl
    (fun j _ _ k _ l _ hne heq ↦ hne (heq.trans (slot_emptied (.blank i type) l))) hsound
    (fun j hji _ ↦ by
      have hsame : readInode s'.disk j = readInode s.disk j := readInode_iupdate_of_ne hji
      rw [view, hsame]
      rfl)
    fun _ ↦ ⟨hview, hok⟩
  refine ⟨⟨⟨h.counted.ref_eq, h.counted.lt, h.counted.busy⟩,
    fun j k l hk hl ↦ h.keyed j k l (hback hk) (hback hl), fun j k hk ↦ ?_, hconsistent⟩, hlive,
    if_neg hdead, ?_⟩
  · have hj := h.live j k (hback hk)
    refine (hframe.live_iff ?_).2 hj
    rintro rfl
    exact hdead hj
  · rw [hfiles, files, if_pos hlive, hview]
    rfl

end State

end FileSys
