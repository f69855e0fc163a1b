import Cs537OS.FileSys.Directory
import Cs537OS.FileSys.Elements
import Cs537OS.FileSys.Holding
import Cs537OS.FileSys.Runs

/-!
# Path names

`namex` goes along a path from directory to directory, with a reference to one and its lock at a
time, and gives both back before it takes the lock of the next. For the users a directory is a
finite map from names to inodes (`leadsTo`), and a path is a `walk` from one to the next.

The names of a removed directory may lead nowhere, so a path begins at a directory that has links.

* `Holding.dirlookup` — one name;
* `namexLoop_spec`, `namex_of_reachable` — a path.
-/

namespace FileSys

/-- The inode number of the root directory. -/
def ROOTINO : ℕ := 1

/-- What a name in a directory leads to. -/
def leadsTo (F : ℕ → Option File) (i : ℕ) (name : List UInt8) : Option ℕ :=
  (F i).bind fun f ↦ if f.type = T_DIR then (dirOf f.data).get name else none

/-- What a path leads to. -/
def walk (F : ℕ → Option File) (i : ℕ) (names : List (List UInt8)) : Option ℕ :=
  names.foldlM (leadsTo F) i

/-- What `namex` looks for: the inode of a path, or the directory that the last name is in. -/
def target (F : ℕ → Option File) (nameiparent : Bool) (i : ℕ) (names : List (List UInt8)) :
    Option ℕ :=
  if nameiparent then
    if names = [] then none
    else (walk F i names.dropLast).filter fun j ↦ (F j).any (·.type = T_DIR)
  else walk F i names

/-- The names in directories that have links lead to files that have links. -/
def Linked (F : ℕ → Option File) : Prop :=
  ∀ i f, F i = some f → f.type = T_DIR → f.nlink ≠ 0 → 16 ∣ f.data.length ∧
    ∀ name j, (dirOf f.data).get name = some j → ∃ g, F j = some g ∧ g.nlink ≠ 0

namespace State

variable {π : Type} (s : State π)

/-- Look for a directory entry in a directory that is locked: the inode and the offset. -/
def dirlookup (p : π) (dp : ℕ) (name : ℕ → UInt8) :
    Except String (Option (ℕ × ℕ) × State π) :=
  match (s.inode dp).copy with
  | none => .error "not locked"
  | some ip => do
    let (found, ip, disk) ← FileSys.dirlookup s.disk ip name
    let s := s.store dp ip disk
    match found with
    | none => .ok (none, s)
    | some (off, inum) => do
      let (k, s) ← s.iget p inum
      .ok (some (k, off), s)

variable [DecidableEq π]

/-- Common idiom: unlock, then put. -/
def iunlockput (p : π) (k : ℕ) : Except String (State π) := do
  let s ← s.iunlock k
  s.iput p k

/-- The loop of `namex`. -/
def namexLoop (p : π) (nameiparent : Bool) :
    ℕ → State π → ℕ → List UInt8 → (ℕ → UInt8) →
      Except String (Option ℕ × (ℕ → UInt8) × State π)
  | 0, s, _, _, name => .ok (none, name, s)
  | fuel + 1, s, ip, path, name =>
    match skipelem path name with
    | none =>
      if nameiparent then do
        let s ← s.iput p ip
        .ok (none, name, s)
      else .ok (some ip, name, s)
    | some (path, name) => do
      let s ← s.ilock p ip
      if (s.inode ip).copy.any (·.type = T_DIR) then
        if nameiparent ∧ path = [] then do
          -- Stop one level early.
          let s ← s.iunlock ip
          .ok (some ip, name, s)
        else do
          let (next, s) ← s.dirlookup p ip name
          match next with
          | none => do
            let s ← s.iunlockput p ip
            .ok (none, name, s)
          | some (next, _) => do
            let s ← s.iunlockput p ip
            namexLoop p nameiparent fuel s next path name
      else do
        let s ← s.iunlockput p ip
        .ok (none, name, s)

/-- Look up the inode for a path name. If `nameiparent`, look up the inode for the parent and copy
the final path element into `name`. -/
def namex (p : π) (cwd : ℕ) (path : List UInt8) (nameiparent : Bool) (name : ℕ → UInt8) :
    Except String (Option ℕ × (ℕ → UInt8) × State π) :=
  if path.head? = some slash then do
    let (ip, s) ← s.iget p ROOTINO
    s.namexLoop p nameiparent (path.length + 1) ip path name
  else (s.idup p cwd).namexLoop p nameiparent (path.length + 1) cwd path name

variable {s} {s₀ s' : State π} {p : π} {F : ℕ → Option File} {held : List (ℕ × ℕ)}
  {locked : List ℕ} {i j k : ℕ} {f : File} {name : ℕ → UInt8}

omit [DecidableEq π] in
/-- The copy of a locked inode. -/
theorem Holding.copy_eq (h : Holding s₀ p F held locked s) (hmem : (k, i) ∈ held)
    (hk : k ∈ locked) (hf : F i = some f) :
    ∃ ip, (s.inode k).copy = some ip ∧ FileOk s.disk i ip ∧ ip.file s.disk = f := by
  have hlock := (h.locked_iff hmem).2 hk
  obtain ⟨hhas, ip, hcopy, hok⟩ := h.inv.locked hlock
  rw [h.inum _ hmem] at hhas hok
  have hfile := h.inv.files_eq hhas hcopy
  rw [h.files, hf] at hfile
  exact ⟨ip, hcopy, hok, (Option.some.inj hfile).symm⟩

omit [DecidableEq π] in
/-- **One name** in a directory. -/
theorem Holding.dirlookup (h : Holding s₀ p F held locked s) (hmem : (k, i) ∈ held)
    (hk : k ∈ locked) (hf : F i = some f) (htype : f.type = T_DIR) (hdata : 16 ∣ f.data.length)
    (hthere : ∀ j, (dirOf f.data).get (cstr DIRSIZ name) = some j → (F j).isSome) :
    (s.dirlookup p k name = .ok (none, s) ∧ (dirOf f.data).get (cstr DIRSIZ name) = none) ∨
      (∃ j e n s', (dirOf f.data).find? (cstr DIRSIZ name) = some (n, j) ∧
        s.dirlookup p k name = .ok (some (e, 16 * n), s') ∧
        Holding s₀ p F ((e, j) :: held) locked s') ∨
      s.dirlookup p k name = .error "iget: no inodes" ∧
        ∀ k < NINODE, (∃ i, (k, i) ∈ held) ∨ ∃ q, (q, k) ∈ s₀.refs := by
  obtain ⟨ip, hcopy, hok, rfl⟩ := h.copy_eq hmem hk hf
  have hsize : 16 ∣ ip.size := by
    rwa [← length_contents (d := s.disk)]
  have hlook := dirlookup_spec hok.laid htype hsize name
  rw [State.dirlookup, hcopy]
  simp only [hlook, bind, Except.bind, store_self hcopy]
  show ((_ = _ ∧ (dirOf (contents s.disk ip)).get _ = none) ∨ (∃ j e n s',
    (dirOf (contents s.disk ip)).find? _ = _ ∧ _) ∨ _)
  cases hfind : (dirOf (contents s.disk ip)).find? (cstr DIRSIZ name) with
  | none => exact .inl ⟨rfl, by rw [SlotTable.get, hfind]; rfl⟩
  | some e =>
    obtain ⟨n, j⟩ := e
    have hj := hthere j (by rw [SlotTable.get]; exact congrArg (Option.map Prod.snd) hfind)
    rcases h.iget hj with ⟨l, s', hget, hholding⟩ | ⟨herr, hall⟩
    · refine .inr (.inl ⟨j, l, n, s', rfl, ?_, hholding⟩)
      simp only [Option.map_some, hget]
    · refine .inr (.inr ⟨?_, hall⟩)
      simp only [Option.map_some, herr]

omit [DecidableEq π] in
theorem target_nil (F : ℕ → Option File) (nameiparent : Bool) (i : ℕ) :
    target F nameiparent i [] = if nameiparent then none else some i := by
  cases nameiparent <;> rfl

omit [DecidableEq π] in
/-- A path of one name ends in the directory where it begins. -/
theorem target_singleton {first : List UInt8} (hf : F i = some f) (htype : f.type = T_DIR) :
    target F true i [first] = some i := by
  simp only [target, if_true, if_neg (List.cons_ne_nil first []), List.dropLast_singleton, walk,
    List.foldlM_nil, Option.pure_def, Option.filter_some, hf, Option.any_some, htype,
    decide_true]

omit [DecidableEq π] in
theorem leadsTo_dir {first : List UInt8} (hf : F i = some f) (htype : f.type = T_DIR) :
    leadsTo F i first = (dirOf f.data).get first := by
  rw [leadsTo, hf]
  exact if_pos htype

omit [DecidableEq π] in
/-- The first name leads to a place from which the others lead on. -/
theorem target_cons {nameiparent : Bool} {first : List UInt8} {names : List (List UInt8)}
    (hstop : ¬ (nameiparent ∧ names = [])) :
    target F nameiparent i (first :: names) =
      (leadsTo F i first).bind fun j ↦ target F nameiparent j names := by
  cases nameiparent with
  | false => rfl
  | true =>
    have hne : names ≠ [] := fun hnil ↦ hstop ⟨rfl, hnil⟩
    simp only [target, if_true, if_neg hne, List.dropLast_cons_of_ne_nil hne,
      if_neg (List.cons_ne_nil first names), walk, List.foldlM_cons]
    cases leadsTo F i first <;> rfl

omit [DecidableEq π] in
/-- No path leads on from a file that is not a directory. -/
theorem target_of_not_dir {nameiparent : Bool} {first : List UInt8} {names : List (List UInt8)}
    (hf : F i = some f) (htype : f.type ≠ T_DIR) :
    target F nameiparent i (first :: names) = none := by
  have hnone : leadsTo F i first = none := by
    rw [leadsTo, hf]
    exact if_neg htype
  by_cases hstop : nameiparent ∧ names = []
  · obtain ⟨rfl, rfl⟩ := hstop
    simp only [target, if_true, if_neg (List.cons_ne_nil first []), List.dropLast_singleton, walk,
      List.foldlM_nil, Option.pure_def, Option.filter_some, hf, Option.any_some, htype,
      decide_false, Bool.false_eq_true, if_false]
  · rw [target_cons hstop, hnone]
    rfl

/-- **Unlock, then put**, of the only inode that is held, or of one behind another. -/
theorem Holding.iunlockput (rest : List (ℕ × ℕ)) (h : Holding s₀ p F (rest ++ [(k, i)]) [k] s)
    (hf : F i = some f) (hlinks : f.nlink ≠ 0) :
    ∃ s', s.iunlockput p k = .ok s' ∧ Holding s₀ p F rest [] s' := by
  have hmem : (k, i) ∈ rest ++ [(k, i)] := List.mem_append_right _ List.mem_cons_self
  obtain ⟨s₁, hunlock, h₁⟩ := h.iunlock hmem List.mem_cons_self
  have hnone : [k].filter (· ≠ k) = [] := by simp
  rw [hnone] at h₁
  obtain ⟨s₂, hput, h₂⟩ := h₁.iput (List.perm_append_singleton _ _) nofun hf hlinks
  exact ⟨s₂, by rw [State.iunlockput, hunlock]; exact hput, h₂⟩

/-- **A path**, from an inode that is held: `namex` goes where the path leads, keeps a reference to
what it returns and no other, and no lock. It panics when all entries of the cache are in use. -/
theorem namexLoop_spec (hlinked : Linked F) (nameiparent : Bool) (fuel : ℕ) {path : List UInt8}
    (h : Holding s₀ p F [(k, i)] [] s) (hf : F i = some f) (hlinks : f.nlink ≠ 0)
    (hzero : 0 ∉ path) (hfuel : path.length < fuel) (name : ℕ → UInt8) :
    (∃ name' s', ∃ held : Option (ℕ × ℕ),
      namexLoop p nameiparent fuel s k path name = .ok (held.map Prod.fst, name', s') ∧
        Holding s₀ p F held.toList [] s' ∧
        target F nameiparent i (elems path) = held.map Prod.snd ∧
        (nameiparent = true → held.isSome →
          (elems path).getLast? = some (cstr DIRSIZ name'))) ∨
      namexLoop p nameiparent fuel s k path name = .error "iget: no inodes" ∧
        ∃ k₀, ∀ k < NINODE, k ≠ k₀ → ∃ q, (q, k) ∈ s₀.refs := by
  induction fuel generalizing s k i f path name with
  | zero => exact absurd hfuel (Nat.not_lt_zero _)
  | succ fuel ih =>
    rw [namexLoop]
    cases hskip : skipelem path name with
    | none =>
      rw [skipelem_none_iff.1 hskip, target_nil]
      cases nameiparent with
      | false =>
        exact .inl ⟨name, s, some (k, i), rfl, h, rfl, fun hpar ↦ absurd hpar Bool.false_ne_true⟩
      | true =>
        obtain ⟨s', hput, h'⟩ := h.iput (List.Perm.refl _) nofun hf hlinks
        refine .inl ⟨name, s', none, ?_, h', rfl, fun _ hsome ↦ by cases hsome⟩
        simp only [if_true, hput, bind, Except.bind, Option.map_none]
    | some e =>
      obtain ⟨path', name'⟩ := e
      obtain ⟨helems, hzero', hlength, hnil⟩ := skipelem_some hzero hskip
      obtain ⟨s₁, hlock, h₁⟩ := h.ilock List.mem_cons_self
      obtain ⟨ip, hcopy, hok, rfl⟩ := h₁.copy_eq List.mem_cons_self List.mem_cons_self hf
      simp only [hlock, bind, Except.bind, hcopy, Option.any_some, decide_eq_true_eq]
      rw [helems]
      by_cases htype : ip.type = T_DIR
      · rw [if_pos htype]
        by_cases hstop : nameiparent ∧ path' = []
        · obtain ⟨s₂, hunlock, h₂⟩ := h₁.iunlock List.mem_cons_self List.mem_cons_self
          have hnone : [k].filter (· ≠ k) = [] := by simp
          rw [hnone] at h₂
          rw [if_pos hstop, hunlock, hnil.2 hstop.2]
          obtain ⟨rfl, -⟩ := hstop
          exact .inl ⟨name', s₂, some (k, i), rfl, h₂, target_singleton hf htype, fun _ _ ↦ rfl⟩
        -- one more element: the directory is searched, and left for what is found there
        · obtain ⟨hdata, hthere⟩ := hlinked i _ hf htype hlinks
          have hstop' : ¬ (nameiparent ∧ elems path' = []) := by rwa [hnil]
          rw [if_neg hstop, target_cons hstop', leadsTo_dir hf htype]
          have hsome : ∀ j, (dirOf (ip.file s₁.disk).data).get (cstr DIRSIZ name') = some j →
              (F j).isSome := fun j hj ↦ by
            obtain ⟨g, hg, -⟩ := hthere _ j hj
            rw [hg]
            rfl
          rcases h₁.dirlookup List.mem_cons_self List.mem_cons_self hf htype hdata hsome with
            ⟨hlook, hget⟩ | ⟨j, e, n, s₂, hfind, hlook, h₂⟩ | ⟨herr, hall⟩
          · obtain ⟨s₂, hput, h₂⟩ := h₁.iunlockput [] hf hlinks
            rw [hlook, hget]
            simp only [hput]
            refine .inl ⟨name', s₂, none, rfl, h₂, rfl, fun _ hsome ↦ by cases hsome⟩
          · have hget : (dirOf (ip.file s₁.disk).data).get (cstr DIRSIZ name') = some j := by
              rw [SlotTable.get, hfind]
              rfl
            obtain ⟨g, hg, hlinks'⟩ := hthere _ j hget
            obtain ⟨s₃, hput, h₃⟩ := h₂.iunlockput [(e, j)] hf hlinks
            rw [hlook, hget]
            simp only [hput]
            rcases ih h₃ hg hlinks' hzero' (by omega) name' with
              ⟨name'', s₄, held, hloop, h₄, htarget, hlast⟩ | ⟨herr, hfull⟩
            · refine .inl ⟨name'', s₄, held, hloop, h₄, htarget, fun hpar hsome ↦ ?_⟩
              rw [List.getLast?_cons, hlast hpar hsome]
              rfl
            · exact .inr ⟨herr, hfull⟩
          · refine .inr ⟨by rw [herr], k, fun l hl hne ↦ ?_⟩
            refine (hall l hl).resolve_left ?_
            rintro ⟨i', hmem⟩
            exact hne (Prod.mk.inj (List.mem_singleton.1 hmem)).1
      · obtain ⟨s₂, hput, h₂⟩ := h₁.iunlockput [] hf hlinks
        rw [if_neg htype, target_of_not_dir hf htype]
        simp only [hput]
        exact .inl ⟨name', s₂, none, rfl, h₂, rfl, fun _ hsome ↦ by cases hsome⟩

/-- Where a path begins. -/
def start (s : State π) (cwd : ℕ) (path : List UInt8) : ℕ :=
  if path.head? = some slash then ROOTINO else (s.inode cwd).inum

omit [DecidableEq π] in
/-- A process that has taken nothing yet. -/
theorem Inv.holding (h : s.Inv) (hfree : ∀ k, (s.inode k).busy = none) :
    Holding s p s.files [] [] s :=
  ⟨h, rfl, List.Perm.refl _, fun k ↦ (hfree k).trans (if_neg List.not_mem_nil).symm, nofun,
    fun _ _ ↦ rfl⟩

omit [DecidableEq π] in
/-- **`idup`** of a reference of before. -/
theorem Inv.holding_idup (h : s.Inv) (hfree : ∀ k, (s.inode k).busy = none)
    (hmem : (p, k) ∈ s.refs) :
    Holding s p s.files [(k, (s.inode k).inum)] [] (s.idup p k) := by
  obtain ⟨hinv, hfiles⟩ := idup_spec h hmem
  refine (h.holding hfree).update hinv hfiles rfl (.inl rfl) (List.Perm.refl _)
    (fun a ha ↦ .inr (List.mem_singleton.1 ha)) ?_ fun _ _ ↦ Iff.rfl
  exact (hfree k).trans (if_neg List.not_mem_nil).symm

/-- **`namex`** finds what the path leads to, in every state of every run in which nobody has a
lock. -/
theorem namex_of_reachable (h : (system π).Reachable s) (hfree : ∀ k, (s.inode k).busy = none)
    (hlinked : Linked s.files) {cwd : ℕ} (hcwd : (p, cwd) ∈ s.refs) (path : List UInt8)
    (hzero : 0 ∉ path) (hstart : ∃ f, s.files (s.start cwd path) = some f ∧ f.nlink ≠ 0)
    (nameiparent : Bool) (name : ℕ → UInt8) :
    (∃ name' s', ∃ held : Option (ℕ × ℕ),
      s.namex p cwd path nameiparent name = .ok (held.map Prod.fst, name', s') ∧
        Holding s p s.files held.toList [] s' ∧
        target s.files nameiparent (s.start cwd path) (elems path) = held.map Prod.snd ∧
        (nameiparent = true → held.isSome →
          (elems path).getLast? = some (cstr DIRSIZ name'))) ∨
      s.namex p cwd path nameiparent name = .error "iget: no inodes" ∧
        ∃ k₀, ∀ k < NINODE, k ≠ k₀ → ∃ q, (q, k) ∈ s.refs := by
  have hinv := inv_of_reachable h
  obtain ⟨f, hf, hlinks⟩ := hstart
  rw [namex]
  by_cases hroot : path.head? = some slash
  · rw [start, if_pos hroot] at hf ⊢
    rw [if_pos hroot]
    rcases (hinv.holding hfree).iget (p := p) (by rw [hf]; rfl) with
      ⟨k, s₁, hget, h₁⟩ | ⟨herr, hall⟩
    · rw [hget]
      exact namexLoop_spec hlinked nameiparent _ h₁ hf hlinks hzero (Nat.lt_succ_self _) name
    · rw [herr]
      refine .inr ⟨rfl, 0, fun k hk _ ↦ (hall k hk).resolve_left ?_⟩
      rintro ⟨i, hmem⟩
      exact List.not_mem_nil hmem
  · rw [start, if_neg hroot] at hf ⊢
    rw [if_neg hroot]
    exact namexLoop_spec hlinked nameiparent _ (hinv.holding_idup hfree hcwd) hf hlinks hzero
      (Nat.lt_succ_self _) name

/-! ### A directory with one name -/

/-- The name "a" in the root directory. -/
def rootWithName : List (Act Bool) :=
  [.ialloc false T_DIR, .ilock false 0, .iupdate false 0 0 0 1, .ialloc false 2, .ilock false 1,
    .iupdate false 1 0 0 1, .writei false 0 (bytesOf (dirent 2 (bytesOf [97]))) 0 16,
    .iunlock false 1, .iput false 1, .iunlock false 0]

/-- The entries of a directory lead to files with links. -/
def EntriesLinked (F : ℕ → Option File) (f : File) : Prop :=
  16 ∣ f.data.length ∧ ∀ j < (dirOf f.data).len, ∀ e ∈ (dirOf f.data).slot j,
    ∃ g ∈ F e.2, g.nlink ≠ 0

instance (F : ℕ → Option File) (f : File) : Decidable (EntriesLinked F f) :=
  inferInstanceAs (Decidable (_ ∧ ∀ j < (dirOf f.data).len, ∀ e ∈ (dirOf f.data).slot j,
    ∃ g ∈ F e.2, g.nlink ≠ 0))

/-- Nobody has a lock, and the names among the first eight files lead to files with links. -/
def Ready (s : State Bool) : Prop :=
  (∀ k < NINODE, (s.inode k).busy = none) ∧ (readsb s.disk).ninodes ≤ 8 ∧
    ∀ i < 8, ∀ f ∈ s.files i, f.type = T_DIR → EntriesLinked s.files f

instance (s : State Bool) : Decidable s.Ready :=
  inferInstanceAs (Decidable (_ ∧ _ ∧
    ∀ i < 8, ∀ f ∈ s.files i, f.type = T_DIR → EntriesLinked s.files f))

theorem linked_of_entries {s : State Bool} (hn : (readsb s.disk).ninodes ≤ 8)
    (hbelow : ∀ i < 8, ∀ f ∈ s.files i, f.type = T_DIR → EntriesLinked s.files f) :
    Linked s.files := by
  intro i f hf htype _
  have hi : i < 8 := by
    rw [State.files] at hf
    split_ifs at hf with hlive
    exact hlive.lt.trans_le hn
  obtain ⟨hdata, hall⟩ := hbelow i hi f hf htype
  refine ⟨hdata, fun name j hj ↦ ?_⟩
  obtain ⟨⟨l, j'⟩, hfind, rfl⟩ := Option.map_eq_some_iff.1 hj
  obtain ⟨hl, hslot⟩ := SlotTable.of_find? hfind
  exact hall l hl _ hslot

theorem Ready.linked {s : State Bool} (h : s.Ready) : Linked s.files :=
  linked_of_entries h.2.1 h.2.2

theorem Ready.free {s : State Bool} (h : s.Ready) (hinv : s.Inv) (k : ℕ) :
    (s.inode k).busy = none := by
  cases hbusy : (s.inode k).busy with
  | none => rfl
  | some q =>
    have hk : k < NINODE := hinv.counted.lt _ (hinv.counted.busy k q hbusy).1
    exact hbusy.symm.trans (h.1 k hk)

/-- The path "/a" leads to inode 2. -/
theorem rootWithName_namex : ∃ s s' : State Bool, ∃ k name',
    s.namex false 0 [slash, 97] false (fun _ ↦ 0) = .ok (some k, name', s') ∧
      s'.Has 2 k ∧ s'.refs.length = s.refs.length + 1 := by
  obtain ⟨s, hs, hready, hrefs, ⟨f, hf, hlinks⟩, htarget⟩ :=
    exists_of_play rootWithName (P := fun s : State Bool ↦ s.Ready ∧ s.refs = [(false, 0)] ∧
      (∃ f ∈ s.files 1, f.nlink ≠ 0) ∧
      target s.files false 1 (elems [slash, 97]) = some 2) (by decide +kernel)
  have hmem : (false, 0) ∈ s.refs := hrefs ▸ List.mem_cons_self
  rcases namex_of_reachable hs (hready.free (inv_of_reachable hs)) hready.linked hmem
    [slash, 97] (by decide) ⟨f, hf, hlinks⟩ false (fun _ ↦ 0) with
    ⟨name', s', held, hok, hholding, hheld, -⟩ | ⟨-, k₀, hall⟩
  · have hsome : held.map Prod.snd = some 2 := hheld.symm.trans htarget
    obtain ⟨⟨k, i⟩, rfl, rfl⟩ := Option.map_eq_some_iff.1 hsome
    refine ⟨s, s', k, name', hok, hholding.has List.mem_cons_self, ?_⟩
    rw [hholding.refs.length_eq]
    rfl
  · have hno : ∀ k, k ≠ 0 → ∀ q, (q, k) ∉ s.refs := fun k hk q hq ↦ by
      rw [hrefs] at hq
      exact hk (Prod.mk.inj (List.mem_singleton.1 hq)).2
    rcases eq_or_ne k₀ 1 with rfl | hne
    · obtain ⟨q, hq⟩ := hall 2 (by decide) (by decide)
      exact absurd hq (hno 2 (by decide) q)
    · obtain ⟨q, hq⟩ := hall 1 (by decide) hne.symm
      exact absurd hq (hno 1 (by decide) q)

end State

end FileSys
