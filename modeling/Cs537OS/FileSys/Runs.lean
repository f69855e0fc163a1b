import Cs537OS.FileSys.Calls

/-!
# Any calls in any order

Each call does one thing to one file, or to none (`Does`), and panics only when the inodes of the
disk or the entries of the cache are used up. This holds in every state that any sequence of calls
by any processes leads to, because every call keeps the cache and the disk together.

* `step_spec` — one call;
* `orderly_of_reachable` — the disk and the cache in every state of every run;
* `panic_of_reachable` — the panics;
* `does_of_reachable` — what a call does to the files.
-/

namespace FileSys

namespace State

variable {π : Type} {s s' : State π} {p : π} {k : ℕ}

/-- What a call does to the files. -/
def Does (s : State π) : Act π → Result → State π → Prop
  | .iget _ inum, .inode k, s' => s'.files = s.files ∧ s'.Has inum k
  | .idup _ k, .inode l, s' => s'.files = s.files ∧ l = k
  | .ialloc _ type, .inode k, s' => ∃ i, s.files i = none ∧ s'.Has i k ∧
    s'.files = Function.update s.files i (some ⟨type, 0, 0, 0, []⟩)
  | .ilock _ _, .void, s' => s'.files = s.files
  | .iunlock _ _, .void, s' => s'.files = s.files
  | .iput _ k, .void, s' =>
    (s.Orphan k → s'.files = Function.update s.files (s.inode k).inum none) ∧
      (¬ s.Orphan k → s'.files = s.files)
  | .readi _ k off n, .read dst, s' => s'.files = s.files ∧
    ∃ f, s.files (s.inode k).inum = some f ∧
      (Ranged f.data off n → dst = some ((f.data.drop off).take n)) ∧
      (¬ Ranged f.data off n → dst = none)
  | .writei _ k src off n, .wrote m, s' => ∃ f, s.files (s.inode k).inum = some f ∧
    (Ranged f.data off n → ∃ c : ℕ, m = c ∧ c ≤ n ∧
      -- fewer bytes than fit are written only on a full disk
      (c < min n (MAXFILE * BSIZE - off) → Full s'.disk) ∧ (off + n ≤ f.data.length → c = n) ∧
      s'.files = Function.update s.files (s.inode k).inum
        (some { f with data := splice f.data off ((List.range c).map src) })) ∧
    (¬ Ranged f.data off n → m = -1 ∧ s'.files = s.files)
  | .iupdate _ k major minor nlink, .void, s' => ∃ f, s.files (s.inode k).inum = some f ∧
    s'.files = Function.update s.files (s.inode k).inum
      (some { f with major := major, minor := minor, nlink := nlink })
  | _, _, _ => False

theorem readi_step_spec (h : s.Inv) (hlock : s.Locked p k) {off n : ℕ} (hoff : off < 2 ^ 32)
    (hn : n < 2 ^ 32) [DecidableEq π] :
    ∃ r s', s.step (.readi p k off n) = .ok (r, s') ∧ s'.Inv ∧ s.Does (.readi p k off n) r s' := by
  obtain ⟨hhas, ip, hcopy, hok⟩ := h.locked hlock
  obtain ⟨dst, hread, hin, hout⟩ := readi_ok hok hoff hn
  refine ⟨.read dst, s, ?_, h, rfl, ip.file s.disk, h.files_eq hhas hcopy, hin, hout⟩
  simp only [step, hcopy, hread, bind, Except.bind]
  rw [store_self hcopy]

theorem writei_step_spec (h : s.Inv) (hlock : s.Locked p k) (src : ℕ → UInt8) {off n : ℕ}
    (hoff : off < 2 ^ 32) (hn : n < 2 ^ 32) [DecidableEq π] :
    ∃ r s', s.step (.writei p k src off n) = .ok (r, s') ∧ s'.Inv ∧
      s.Does (.writei p k src off n) r s' := by
  obtain ⟨hhas, ip, hcopy, hok⟩ := h.locked hlock
  obtain ⟨m, ip', d', hwrite, hin, hout⟩ := writei_ok hok (h.live _ k hhas).lt src hoff hn
  have hfile := h.files_eq hhas hcopy
  have hstep : s.step (.writei p k src off n) = .ok (.wrote m, s.store k ip' d') := by
    simp only [step, hcopy, hwrite, bind, Except.bind]
  refine ⟨_, _, hstep, ?_⟩
  by_cases hrange : Ranged (contents s.disk ip) off n
  · obtain ⟨c, rfl, hwrote⟩ := hin hrange
    have htype : ip'.type = ip.type := by rw [hwrote.same]
    obtain ⟨hinv, hfiles⟩ := store_spec h hlock hcopy hwrote.frame (hwrote.fileOk hok) htype
    refine ⟨hinv, _, hfile, fun _ ↦ ⟨c, rfl, hwrote.le, hwrote.full, fun hin ↦ ?_, ?_⟩,
      fun hno ↦ absurd hrange hno⟩
    · exact hwrote.inside (hin.trans_eq length_contents)
    rw [hfiles, Inode.file, hwrote.contents_eq, hwrote.same]
    rfl
  · obtain ⟨rfl, rfl, rfl⟩ := hout hrange
    rw [store_self hcopy]
    exact ⟨h, _, hfile, fun hyes ↦ absurd hyes hrange, fun _ ↦ ⟨rfl, rfl⟩⟩

theorem iupdate_step_spec (h : s.Inv) (hlock : s.Locked p k) {major minor nlink : ℕ}
    (hmajor : major < 2 ^ 16) (hminor : minor < 2 ^ 16) (hnlink : nlink < 2 ^ 16)
    [DecidableEq π] :
    ∃ r s', s.step (.iupdate p k major minor nlink) = .ok (r, s') ∧ s'.Inv ∧
      s.Does (.iupdate p k major minor nlink) r s' := by
  obtain ⟨hhas, ip, hcopy, hok⟩ := h.locked hlock
  obtain ⟨hok', hframe, hcontents⟩ := hok.header (h.live _ k hhas).lt hmajor hminor hnlink
  obtain ⟨hinv, hfiles⟩ := store_spec h hlock hcopy hframe hok' rfl
  refine ⟨.void, _, ?_, hinv, ip.file s.disk, h.files_eq hhas hcopy, ?_⟩
  · simp only [step, hcopy]
  · rw [hfiles, Inode.file, hcontents]
    rfl

/-- **One call.** -/
theorem step_spec [DecidableEq π] (h : s.Inv) {a : Act π} (hmay : s.May a) :
    (∃ r s', s.step a = .ok (r, s') ∧ s'.Inv ∧ s.Does a r s') ∨
      (s.step a = .error "ialloc: no inodes" ∧
        ∀ i, 0 < i → i < (readsb s.disk).ninodes → (s.files i).isSome) ∨
      s.step a = .error "iget: no inodes" ∧ ∀ k < NINODE, ∃ p, (p, k) ∈ s.refs := by
  have huser : ∀ k, 0 < (s.inode k).ref → ∃ p, (p, k) ∈ s.refs := by
    intro k hpos
    rw [h.counted.ref_eq k, List.countP_pos_iff] at hpos
    obtain ⟨⟨p, l⟩, hmem, hl⟩ := hpos
    obtain rfl : l = k := of_decide_eq_true hl
    exact ⟨p, hmem⟩
  cases a with
  | iget p i =>
    rcases iget_spec h hmay p with ⟨k, s', hok, hinv, hfiles, hhas⟩ | ⟨herr, hall⟩
    · exact .inl ⟨.inode k, s', by rw [step, hok]; rfl, hinv, hfiles, hhas⟩
    · exact .inr (.inr ⟨by rw [step, herr]; rfl, fun k hk ↦ huser k (hall k hk)⟩)
  | idup p k =>
    obtain ⟨hinv, hfiles⟩ := idup_spec h hmay
    exact .inl ⟨_, _, rfl, hinv, hfiles, rfl⟩
  | ialloc p type =>
    rcases ialloc_cases s.disk type with ⟨i, hok, hpos, hlt, hfree⟩ | ⟨herr, hall⟩
    · obtain ⟨hinv, hlive, hnone, hfiles⟩ := create_spec h hpos hlt hfree hmay
      have hstep : s.step (.ialloc p type) =
          ({ s with disk := iupdate s.disk (.blank i type) }.iget p i).map
            fun r : ℕ × State π ↦ (Result.inode r.1, r.2) := by
        simp only [step, ialloc, hok, bind, Except.bind]
      rw [hstep]
      rcases iget_spec hinv hlive p with ⟨k, s', hok', hinv', hfiles', hhas⟩ | ⟨herr, hall⟩
      · exact .inl ⟨.inode k, s', by rw [hok']; rfl, hinv', i, hnone, hhas, hfiles'.trans hfiles⟩
      · exact .inr (.inr ⟨by rw [herr]; rfl, fun k hk ↦ huser k (hall k hk)⟩)
    · refine .inr (.inl ⟨?_, fun i hpos hlt ↦ ?_⟩)
      · simp only [step, ialloc, herr, bind, Except.bind, Except.map]
      · rw [files, if_pos ⟨hpos, hlt, hall i hpos hlt⟩]
        rfl
  | ilock p k =>
    obtain ⟨s', hok, hinv, hfiles⟩ := ilock_spec h hmay.1
    exact .inl ⟨.void, s', by rw [step, hok]; rfl, hinv, hfiles⟩
  | iunlock p k =>
    obtain ⟨s', hok, hinv, hfiles⟩ := iunlock_spec h hmay
    exact .inl ⟨.void, s', by rw [step, hok]; rfl, hinv, hfiles⟩
  | iput p k =>
    obtain ⟨s', hok, hinv, hfiles⟩ := iput_spec h hmay.1 hmay.2
    exact .inl ⟨.void, s', by rw [step, hok]; rfl, hinv, hfiles⟩
  | readi p k off n => exact .inl (readi_step_spec h hmay.1 hmay.2.2.1 hmay.2.2.2)
  | writei p k src off n => exact .inl (writei_step_spec h hmay.1 src hmay.2.2.1 hmay.2.2.2)
  | iupdate p k major minor nlink =>
    exact .inl (iupdate_step_spec h hmay.1 hmay.2.1 hmay.2.2.1 hmay.2.2.2)

/-- The cache and the disk fit together in every state of every run. -/
theorem inv_of_reachable [DecidableEq π] (h : (system π).Reachable s) : s.Inv := by
  refine h.invariant (fun s hs ↦ ?_) fun s a s' hinv ⟨hmay, r, hstep⟩ ↦ ?_
  · obtain ⟨hfree, hrefs, hconsistent⟩ := hs
    have hno : ∀ i k, ¬ s.Has i k := fun i k hhas ↦ by
      have hpos := hhas.ref
      rw [(hfree k).1] at hpos
      exact lt_irrefl 0 hpos
    refine ⟨⟨fun k ↦ ?_, fun r hr ↦ ?_, fun k p hp ↦ ?_⟩, fun i k _ hk ↦ absurd hk (hno i k),
      fun i k hk ↦ absurd hk (hno i k), hconsistent.congr fun i _ ↦ view_none (hno i)⟩
    · rw [(hfree k).1, hrefs]
      rfl
    · rw [hrefs] at hr
      cases hr
    · rw [(hfree k).2] at hp
      cases hp
  · rcases step_spec hinv hmay with ⟨r', t, hok, hinv', -⟩ | ⟨herr, -⟩ | ⟨herr, -⟩
    · rw [hstep] at hok
      obtain ⟨-, rfl⟩ := Prod.mk.inj (Except.ok.inj hok)
      exact hinv'
    · cases hstep.symm.trans herr
    · cases hstep.symm.trans herr

/-- The disk, the bitmap and the cache of a file system. -/
structure Orderly (s : State π) : Prop where
  /-- A file has the blocks that its size needs. -/
  blocks : ∀ i, Live s.disk i → ∀ n < MAXFILE,
    blockAt s.disk (s.view i) n ≠ 0 ↔ n * BSIZE < (s.view i).size
  /-- They are marked data blocks. -/
  inUse : ∀ i, Live s.disk i → ∀ k < NSLOT, slot s.disk (s.view i) k ≠ 0 →
    InUse s.disk (slot s.disk (s.view i) k)
  /-- No block is in two places. -/
  once : ∀ i j, Live s.disk i → Live s.disk j → ∀ k < NSLOT, ∀ l < NSLOT,
    slot s.disk (s.view i) k ≠ 0 → slot s.disk (s.view i) k = slot s.disk (s.view j) l →
    i = j ∧ k = l
  /-- Nothing is left behind the end of a file. -/
  tail : ∀ i, Live s.disk i → ∀ p < MAXFILE * BSIZE, (s.view i).size ≤ p →
    blockAt s.disk (s.view i) (p / BSIZE) ≠ 0 → byteAt s.disk (s.view i) p = 0
  /-- Nor in a free block. -/
  clear : ∀ b < (readsb s.disk).size, marked s.disk b = false → ∀ o < BSIZE, s.disk b o = 0
  keyed : s.Keyed
  live : ∀ i k, s.Has i k → Live s.disk i
  counted : s.Counted

theorem Inv.orderly (h : s.Inv) : s.Orderly := by
  have hlaid : ∀ {i}, Live s.disk i → Laid s.disk (s.view i) (s.view i).size :=
    fun hi ↦ (h.consistent.file _ hi).laid
  refine ⟨fun i hi ↦ (hlaid hi).blockAt_iff, fun i hi ↦ (hlaid hi).owns.inUse,
    fun i j hi hj k hk l hl hne heq ↦ ?_, fun i hi ↦ (hlaid hi).tail, h.consistent.sound.clear,
    h.keyed, h.live, h.counted⟩
  rcases eq_or_ne i j with rfl | hij
  · exact ⟨rfl, (hlaid hi).owns.inj k hk l hl hne heq⟩
  · exact absurd heq (h.consistent.apart i j hi hj hij k hk l hl hne)

/-- **The disk, the bitmap and the cache** in every state of every run. -/
theorem orderly_of_reachable [DecidableEq π] (h : (system π).Reachable s) : s.Orderly :=
  (inv_of_reachable h).orderly

/-- **The panics**: there are no more inodes, or no more entries. -/
theorem panic_of_reachable [DecidableEq π] (h : (system π).Reachable s) {a : Act π}
    (hmay : s.May a) {msg : String} (hstep : s.step a = .error msg) :
    (msg = "ialloc: no inodes" ∧
        ∀ i, 0 < i → i < (readsb s.disk).ninodes → (s.files i).isSome) ∨
      msg = "iget: no inodes" ∧ ∀ k < NINODE, ∃ p, (p, k) ∈ s.refs := by
  rcases step_spec (inv_of_reachable h) hmay with ⟨r, t, hok, -⟩ | ⟨herr, hall⟩ | ⟨herr, hall⟩
  · cases hok.symm.trans hstep
  · exact .inl ⟨Except.error.inj (hstep.symm.trans herr), hall⟩
  · exact .inr ⟨Except.error.inj (hstep.symm.trans herr), hall⟩

/-- **What a call does to the files**, in every state of every run. -/
theorem does_of_reachable [DecidableEq π] (h : (system π).Reachable s) {a : Act π}
    (hmay : s.May a) {r : Result} (hstep : s.step a = .ok (r, s')) : s.Does a r s' := by
  rcases step_spec (inv_of_reachable h) hmay with ⟨r', t, hok, -, hdoes⟩ | ⟨herr, -⟩ | ⟨herr, -⟩
  · obtain ⟨rfl, rfl⟩ := Prod.mk.inj (Except.ok.inj (hstep.symm.trans hok))
    exact hdoes
  · cases hstep.symm.trans herr
  · cases hstep.symm.trans herr

/-! ### A file on a small disk -/

/-- A disk of twelve blocks and eight inodes, none of them allocated. -/
def emptyDisk : Disk := fun b ↦
  if b = 1 then fun o ↦ if o = 0 then 12 else if o = 4 then 7 else if o = 8 then 8 else 0
  else if b = 4 then fun o ↦ if o = 0 then 31 else 0
  else fun _ ↦ 0

theorem emptyDisk_eq {b : ℕ} (h₁ : b ≠ 1) (h₄ : b ≠ 4) : emptyDisk b = fun _ ↦ 0 := by
  rw [emptyDisk, if_neg h₁, if_neg h₄]

/-- Nothing is cached. -/
def emptyState : State Bool where
  disk := emptyDisk
  inode _ := ⟨0, 0, none, none⟩
  refs := []

theorem readsb_emptyDisk : readsb emptyDisk = ⟨12, 7, 8⟩ := by decide

theorem emptyState_starts : emptyState.Starts := by
  have hsb := readsb_emptyDisk
  have hstart : (readsb emptyDisk).dataStart = 5 := by rw [hsb]; rfl
  have hdead : ∀ i, ¬ Live emptyDisk i := by
    intro i hi
    have hlt := hi.lt
    rw [hsb] at hlt
    have hblock : IBLOCK i = 2 := by
      rw [IBLOCK, IPB_eq, Nat.div_eq_of_lt hlt]
    refine hi.type ?_
    rw [readInode, hblock, emptyDisk_eq (by decide) (by decide)]
    rfl
  refine ⟨fun _ ↦ ⟨rfl, rfl⟩, rfl, ⟨?_, ?_, fun _ _ ↦ rfl, ?_, fun b hb hfree o _ ↦ ?_⟩,
    fun i hi ↦ absurd hi (hdead i), fun i _ hi ↦ absurd hi (hdead i)⟩
  · show (readsb emptyDisk).dataStart ≤ (readsb emptyDisk).size
    rw [hstart, hsb]
    decide
  · show (readsb emptyDisk).size < _
    rw [hsb]
    decide
  · show ∀ b < (readsb emptyDisk).dataStart, _
    rw [hstart]
    decide
  · show emptyDisk b o = 0
    rcases eq_or_ne b 1 with rfl | h₁
    · exact absurd hfree (by decide)
    · rcases eq_or_ne b 4 with rfl | h₄
      · exact absurd hfree (by decide)
      · rw [emptyDisk_eq h₁ h₄]

/-- A file is made, locked by one process and given three bytes, while another one has it too. -/
def firstFile : List (Act Bool) :=
  [.ialloc false 2, .ilock false 0, .iupdate false 0 0 0 1, .writei false 0 (fun _ ↦ 7) 0 3,
    .iget true 1]

/-- A state that a list of calls leads to. -/
theorem exists_of_play (as : List (Act Bool)) {P : State Bool → Prop} [DecidablePred P]
    (h : (as.foldlM (System.checked State.May (fun s a ↦ (s.step a).map Prod.snd) "not allowed")
      emptyState).toOption.any (fun s ↦ decide (P s)) = true) :
    ∃ s, (system Bool).Reachable s ∧ P s := by
  obtain ⟨s, hs, hP⟩ := System.Reachable.exists_of_run (S := system Bool) (fun s a t hstep ↦ by
    rw [System.checked] at hstep
    split_ifs at hstep with hmay
    cases hok : s.step a with
    | error e =>
      rw [hok] at hstep
      cases hstep
    | ok r =>
      rw [hok] at hstep
      obtain rfl := Except.ok.inj hstep
      exact ⟨hmay, r.1, hok⟩) (.init emptyState_starts) h
  exact ⟨s, hs, of_decide_eq_true hP⟩

theorem firstFile_orderly : ∃ s : State Bool, s.refs.length = 2 ∧ s.Orderly := by
  obtain ⟨s, hs, hrefs⟩ := exists_of_play firstFile (P := fun s ↦ s.refs.length = 2)
    (by decide +kernel)
  exact ⟨s, hrefs, orderly_of_reachable hs⟩

/-- There are seven inodes. -/
theorem eighthFile_panic : ∃ s : State Bool,
    s.step (.ialloc false 2) = .error "ialloc: no inodes" ∧
      ∀ i, 0 < i → i < (readsb s.disk).ninodes → (s.files i).isSome := by
  obtain ⟨s, hs, hmay, hfull⟩ := exists_of_play (List.replicate 7 (.ialloc false 2))
    (P := fun s ↦ s.May (.ialloc false 2) ∧
      (s.step (.ialloc false 2)).map (fun _ ↦ ()) = .error "ialloc: no inodes")
    (by decide +kernel)
  cases hstep : s.step (.ialloc false 2) with
  | error e =>
    rw [hstep] at hfull
    obtain rfl : e = "ialloc: no inodes" := Except.error.inj hfull
    rcases panic_of_reachable hs hmay hstep with ⟨-, hall⟩ | ⟨hmsg, -⟩
    · exact ⟨s, hstep, hall⟩
    · exact absurd hmsg (by decide)
  | ok r =>
    rw [hstep] at hfull
    cases hfull

/-- What has been written is read. -/
theorem firstFile_does : ∃ s s' : State Bool,
    s.step (.readi false 0 1 5) = .ok (.read (some [7, 7]), s') ∧
      s.Does (.readi false 0 1 5) (.read (some [7, 7])) s' := by
  obtain ⟨s, hs, hmay, hread⟩ := exists_of_play firstFile
    (P := fun s ↦ s.May (.readi false 0 1 5) ∧
      (s.step (.readi false 0 1 5)).toOption.map Prod.fst = some (.read (some [7, 7])))
    (by decide +kernel)
  cases hstep : s.step (.readi false 0 1 5) with
  | error e =>
    rw [hstep] at hread
    cases hread
  | ok r =>
    rw [hstep] at hread
    obtain ⟨r, s'⟩ := r
    obtain rfl : r = .read (some [7, 7]) := Option.some.inj hread
    exact ⟨s, s', hstep, does_of_reachable hs hmay hstep⟩

end State

end FileSys
