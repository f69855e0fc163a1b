import Cs537OS.FileSys.Paths

/-!
# New names

`dirlink` puts a name into a directory, unless it is there. What it writes is one entry: an empty
one if there is any, and otherwise one behind the last.

* `Entered` — an entry is written over an empty one or behind the last;
* `Holding.store` — a locked file is replaced;
* `Holding.dirlink`, `dirlink_of_reachable` — what `dirlink` does to the directory.
-/

namespace FileSys

/-- An entry is written over an empty one of a directory or behind the last. -/
def Entered (data : List UInt8) (de : List UInt8) (data' : List UInt8) : Prop :=
  ∃ j ≤ (dirOf data).len, (j < (dirOf data).len → (dirOf data).slot j = none) ∧
    data' = splice data (16 * j) de

namespace State

variable {π : Type} [DecidableEq π]

/-- Write a new directory entry (`name`, `inum`) into a directory that is locked. The name must not
be present. -/
def dirlink (s : State π) (p : π) (dp : ℕ) (name : ℕ → UInt8) (inum : ℕ) :
    Except String (Bool × State π) := do
  -- Check that name is not present.
  let (found, s) ← s.dirlookup p dp name
  match found with
  | some (ip, _) => do
    let s ← s.iput p ip
    .ok (false, s)
  | none =>
    match (s.inode dp).copy with
    | none => .error "not locked"
    | some ip => do
      let (ip, disk) ← linkEntry s.disk ip name inum
      .ok (true, s.store dp ip disk)

variable {s₀ s : State π} {p : π} {F : ℕ → Option File} {held : List (ℕ × ℕ)} {locked : List ℕ}
  {i k inum : ℕ} {f : File}

omit [DecidableEq π] in
/-- **A locked file** is replaced. -/
theorem Holding.store {ip ip' : Inode} {d : Disk} (h : Holding s₀ p F held locked s)
    (hmem : (k, i) ∈ held) (hk : k ∈ locked) (hcopy : (s.inode k).copy = some ip)
    (hframe : Frame s.disk ip d ip') (hok : FileOk d i ip') (htype : ip'.type = ip.type) :
    Holding s₀ p (Function.update F i (some (ip'.file d))) held locked (s.store k ip' d) := by
  have hinum : (s.inode k).inum = i := h.inum _ hmem
  obtain ⟨hinv, hfiles⟩ := store_spec h.inv ((h.locked_iff hmem).2 hk) hcopy hframe
    (by rwa [hinum]) htype
  rw [hinum, h.files] at hfiles
  exact h.update (e := { s.inode k with copy := some ip' }) hinv hfiles rfl (.inl rfl) h.refs
    (fun _ ↦ Or.inl) (h.busy k) fun _ _ ↦ Iff.rfl

/-- **A new name** in a directory. -/
theorem Holding.dirlink (h : Holding s₀ p F held locked s) (hmem : (k, i) ∈ held) (hk : k ∈ locked)
    (honly : ∀ l ∈ locked, ∃ j, (l, j) ∈ held) (hlinked : Linked F) (hf : F i = some f)
    (htype : f.type = T_DIR) (hlinks : f.nlink ≠ 0) (hunique : (dirOf f.data).Unique)
    (name : ℕ → UInt8) (hpos : 0 < inum) (hlt : inum < 2 ^ 16) :
    (∃ s', s.dirlink p k name inum = .ok (false, s') ∧
        ((dirOf f.data).get (cstr DIRSIZ name)).isSome ∧ Holding s₀ p F held locked s') ∨
      (∃ data s', s.dirlink p k name inum = .ok (true, s') ∧
        (dirOf f.data).get (cstr DIRSIZ name) = none ∧
        Holding s₀ p (Function.update F i (some { f with data := data })) held locked s' ∧
        Entered f.data (dirent inum name) data ∧ 16 ∣ data.length ∧ (dirOf data).Unique ∧
        ∀ other, (dirOf data).get other =
          if other = cstr DIRSIZ name then some inum else (dirOf f.data).get other) ∨
      (s.dirlink p k name inum = .error "dirlink" ∧
        ∀ j < (dirOf f.data).len, (dirOf f.data).slot j ≠ none) ∨
      s.dirlink p k name inum = .error "iget: no inodes" ∧
        ∀ k < NINODE, (∃ i, (k, i) ∈ held) ∨ ∃ q, (q, k) ∈ s₀.refs := by
  obtain ⟨hdata, hnames⟩ := hlinked i f hf htype hlinks
  have hthere : ∀ j, (dirOf f.data).get (cstr DIRSIZ name) = some j → (F j).isSome :=
    fun j hj ↦ by
      obtain ⟨g, hg, -⟩ := hnames _ j hj
      rw [hg]
      rfl
  rw [State.dirlink]
  rcases h.dirlookup hmem hk hf htype hdata hthere with
    ⟨hlook, hnone⟩ | ⟨j, e, n, s₁, hfind, hlook, h₁⟩ | ⟨hlook, hall⟩
  · obtain ⟨ip, hcopy, hok, rfl⟩ := h.copy_eq hmem hk hf
    have hin : i < (readsb s.disk).ninodes := (h.inv.live i k (h.has hmem)).lt
    have hsize : 16 ∣ ip.size := by rwa [← length_contents (d := s.disk)]
    obtain ⟨j, hj, hempty, hcases⟩ := linkEntry_spec hok hin hsize name hpos hlt
    rw [hlook]
    rcases hcases with ⟨ip', d', hlink, hwrote, hsize', hput⟩ | ⟨herr, hused⟩
    · have htype' : ip'.type = ip.type := by rw [hwrote.same]
      have hfile : ip'.file d' = { ip.file s.disk with data := contents d' ip' } := by
        rw [Inode.file, hwrote.same]
        rfl
      have hstore := h.store hmem hk hcopy hwrote.frame (hwrote.fileOk hok) htype'
      rw [hfile] at hstore
      refine .inr (.inl ⟨contents d' ip', s.store k ip' d', ?_, hnone, hstore,
        ⟨j, hj, hempty, ?_⟩, ?_, ?_, ?_⟩)
      · simp only [bind, Except.bind, hcopy, hlink]
      · rw [hwrote.contents_eq, map_bytesOf (length_dirent inum name)]
        rfl
      · rwa [length_contents]
      · rw [hput]
        exact hunique.put hempty hj hnone inum
      · rw [hput]
        exact hunique.get_put hempty hj hnone inum
    · refine .inr (.inr (.inl ⟨?_, hused⟩))
      simp only [bind, Except.bind, hcopy, herr]
  · have hget : (dirOf f.data).get (cstr DIRSIZ name) = some j := by
      rw [SlotTable.get, hfind]
      rfl
    obtain ⟨g, hg, hglinks⟩ := hnames _ j hget
    obtain ⟨s', hput, h'⟩ := h₁.iput (.refl _) (honly e) hg hglinks
    refine .inl ⟨s', ?_, by rw [hget]; rfl, h'⟩
    rw [hlook]
    simp only [bind, Except.bind, hput]
  · refine .inr (.inr (.inr ⟨?_, hall⟩))
    rw [hlook]
    rfl

/-- **What `dirlink` does**, in every state in which the process has locked the directory, and
nobody has another lock. -/
theorem dirlink_of_reachable (h : (system π).Reachable s)
    (hlock : ∀ l, (s.inode l).busy = if l = k then some p else none) (hlinked : Linked s.files)
    (hf : s.files (s.inode k).inum = some f) (htype : f.type = T_DIR) (hlinks : f.nlink ≠ 0)
    (hunique : (dirOf f.data).Unique) (name : ℕ → UInt8) (hpos : 0 < inum) (hlt : inum < 2 ^ 16) :
    (∃ s', s.dirlink p k name inum = .ok (false, s') ∧
        ((dirOf f.data).get (cstr DIRSIZ name)).isSome ∧ s'.files = s.files ∧ s'.Inv ∧
        s'.refs.Perm s.refs) ∨
      (∃ data s', s.dirlink p k name inum = .ok (true, s') ∧
        (dirOf f.data).get (cstr DIRSIZ name) = none ∧
        s'.files = Function.update s.files (s.inode k).inum (some { f with data := data }) ∧
        s'.Inv ∧ s'.refs.Perm s.refs ∧ Entered f.data (dirent inum name) data ∧
        16 ∣ data.length ∧ (dirOf data).Unique ∧
        ∀ other, (dirOf data).get other =
          if other = cstr DIRSIZ name then some inum else (dirOf f.data).get other) ∨
      (s.dirlink p k name inum = .error "dirlink" ∧
        ∀ j < (dirOf f.data).len, (dirOf f.data).slot j ≠ none) ∨
      s.dirlink p k name inum = .error "iget: no inodes" ∧ ∀ l < NINODE, ∃ q, (q, l) ∈ s.refs := by
  have hinv := inv_of_reachable h
  have hbusy : (s.inode k).busy = some p := (hlock k).trans (if_pos rfl)
  have href : (p, k) ∈ s.refs := (hinv.counted.busy k p hbusy).1
  have hback := List.perm_cons_erase href
  have hholding : Holding { s with refs := s.refs.erase (p, k) } p s.files
      [(k, (s.inode k).inum)] [k] s := by
    refine ⟨hinv, rfl, hback, fun l ↦ ?_, fun a ha ↦ ?_, fun _ _ ↦ rfl⟩
    · rw [hlock l]
      simp only [List.mem_singleton]
    · rw [List.mem_singleton.1 ha]
  have hrefs : ∀ {F s'}, Holding { s with refs := s.refs.erase (p, k) } p F
      [(k, (s.inode k).inum)] [k] s' → s'.refs.Perm s.refs := fun h' ↦ h'.refs.trans hback.symm
  rcases hholding.dirlink List.mem_cons_self List.mem_cons_self
    (fun l hl ↦ ⟨(s.inode k).inum, by rw [List.mem_singleton.1 hl]; exact List.mem_cons_self⟩)
    hlinked hf htype hlinks hunique name hpos hlt with
    ⟨s', hok, hsome, h'⟩ | ⟨data, s', hok, hnone, h', hrest⟩ | herr | ⟨herr, hall⟩
  · exact .inl ⟨s', hok, hsome, h'.files, h'.inv, hrefs h'⟩
  · exact .inr (.inl ⟨data, s', hok, hnone, h'.files, h'.inv, hrefs h', hrest⟩)
  · exact .inr (.inr (.inl herr))
  · refine .inr (.inr (.inr ⟨herr, fun l hl ↦ ?_⟩))
    rcases hall l hl with ⟨j, hj⟩ | ⟨q, hq⟩
    · obtain ⟨rfl, -⟩ := Prod.mk.inj (List.mem_singleton.1 hj)
      exact ⟨p, href⟩
    · exact ⟨q, List.mem_of_mem_erase hq⟩

/-- The first process has locked the root directory, and the names among the first eight files lead
to files with links. -/
def RootLocked (s : State Bool) : Prop :=
  (∀ l < NINODE, (s.inode l).busy = if l = 0 then some false else none) ∧
    (readsb s.disk).ninodes ≤ 8 ∧
    ∀ i < 8, ∀ f ∈ s.files i, f.type = T_DIR → EntriesLinked s.files f

instance (s : State Bool) : Decidable s.RootLocked :=
  inferInstanceAs (Decidable (_ ∧ _ ∧
    ∀ i < 8, ∀ f ∈ s.files i, f.type = T_DIR → EntriesLinked s.files f))

/-- The name "b" beside "a" in the root directory. -/
theorem rootWithName_dirlink : ∃ s s' : State Bool, ∃ data,
    s.dirlink false 0 (bytesOf [98]) 2 = .ok (true, s') ∧
      (∃ f : File, s'.files 1 = some { f with data := data } ∧
        Entered f.data (dirent 2 (bytesOf [98])) data) ∧
      (dirOf data).get [97] = some 2 ∧ (dirOf data).get [98] = some 2 := by
  obtain ⟨s, hs, ⟨hbusy, hn, hbelow⟩, hinum, ⟨f, hf, hlinks, htype, hlen, hget⟩, hnew⟩ :=
    exists_of_play (rootWithName.take 9) (P := fun s : State Bool ↦
      s.RootLocked ∧ (s.inode 0).inum = 1 ∧
      (∃ f ∈ s.files 1, f.nlink ≠ 0 ∧ f.type = T_DIR ∧ (dirOf f.data).len = 1 ∧
        (dirOf f.data).get [97] = some 2) ∧
      (s.dirlink false 0 (bytesOf [98]) 2).toOption.any Prod.fst = true) (by decide +kernel)
  have hinv := inv_of_reachable hs
  have hlock : ∀ l, (s.inode l).busy = if l = 0 then some false else none := fun l ↦ by
    by_cases hl : l < NINODE
    · exact hbusy l hl
    · rw [if_neg (by rintro rfl; exact hl (by decide))]
      cases hb : (s.inode l).busy with
      | none => rfl
      | some q => exact absurd (hinv.counted.lt _ (hinv.counted.busy l q hb).1) hl
  have hunique : (dirOf f.data).Unique := fun i hi j hj _ _ _ _ _ ↦ by omega
  rw [← hinum] at hf
  rcases dirlink_of_reachable hs hlock (linked_of_entries hn hbelow) hf htype hlinks hunique
    (bytesOf [98]) (show 0 < 2 by decide) (by decide) with
    ⟨s', hok, -⟩ | ⟨data, s', hok, -, hfiles, -, -, hentered, -, -, hnames⟩ | ⟨herr, -⟩ | ⟨herr, -⟩
  · rw [hok] at hnew
    cases hnew
  · refine ⟨s, s', data, hok, ⟨f, ?_, hentered⟩, ?_, ?_⟩
    · rw [hfiles, hinum, Function.update_self]
    · exact (hnames [97]).trans hget
    · exact hnames [98]
  · rw [herr] at hnew
    cases hnew
  · rw [herr] at hnew
    cases hnew

end State

end FileSys
