import Cs537OS.FileSys.Cache

/-!
# The files of a file system

The users know files with a type, a link count and a sequence of bytes (`File`). What they see is
what is on the disk and in the cache together; blocks, the bitmap and the cache are not seen.

* `Inv` — the cache and the disk fit together;
* `Inv.touch`, `Inv.fresh`, `Inv.gone` — what changes in the cache without being seen;
* `Inv.change` — a change to one file.
-/

namespace FileSys

variable {π : Type}

/-- A file. -/
structure File where
  type : ℕ
  major : ℕ
  minor : ℕ
  nlink : ℕ
  data : List UInt8

/-- The file that an inode of a disk describes. -/
def Inode.file (d : Disk) (ip : Inode) : File :=
  ⟨ip.type, ip.major, ip.minor, ip.nlink, contents d ip⟩

namespace State

/-- The files, by the numbers of their inodes. -/
def files (s : State π) (i : ℕ) : Option File :=
  if Live s.disk i then some ((s.view i).file s.disk) else none

/-- The cache and the disk fit together. -/
structure Inv (s : State π) : Prop where
  counted : s.Counted
  keyed : s.Keyed
  /-- The inodes in the cache are allocated. -/
  live : ∀ i k, s.Has i k → Live s.disk i
  consistent : Consistent s.disk s.view

end State

variable {s s' : State π} {i j k l : ℕ} {d d' : Disk} {ip ip' : Inode} {e : Cached π}

/-- Only the inodes of files count. -/
theorem Consistent.congr {view view' : ℕ → Inode} (h : Consistent d view)
    (heq : ∀ i, Live d i → view' i = view i) : Consistent d view' := by
  refine ⟨h.sound, fun i hi ↦ ?_, fun i j hi hj hne ↦ ?_⟩
  · rw [heq i hi]
    exact h.file i hi
  · rw [heq i hi, heq j hj]
    exact h.apart i j hi hj hne

/-- What is seen of a file does not depend on where its inode is read. -/
theorem FileOk.file_reload (h : FileOk d i ip) : (readInode d i).file d = ip.file d := by
  have hcontents := h.reload.2.1
  have hagrees := h.agrees
  rw [Agrees, h.inum] at hagrees
  rw [Inode.file, Inode.file, hcontents]
  rcases hagrees with heq | ⟨-, heq⟩ <;> rw [heq]
  rfl

namespace State

namespace Inv

/-- The file of a locked inode. -/
theorem fileOk (h : s.Inv) (hhas : s.Has i k) (hcopy : (s.inode k).copy = some ip) :
    FileOk s.disk i ip := by
  have hfile := h.consistent.file i (h.live i k hhas)
  rwa [h.keyed.view_copy hhas hcopy] at hfile

/-- Nothing that is seen changes. -/
theorem same (hdisk : s'.disk = s.disk) (hview : ∀ i, Live s.disk i →
    (s'.view i).file s.disk = (s.view i).file s.disk) : s'.files = s.files := by
  funext i
  rw [files, files, hdisk]
  split_ifs with hi
  · rw [hview i hi]
  · rfl

/-- **An entry in use** is counted up or down or locked, or read from the disk. -/
theorem touch (h : s.Inv) (hhas : s.Has i k) (hinode : s'.inode = Function.update s.inode k e)
    (hinum : e.inum = i) (href : 0 < e.ref)
    (hcopy : e.copy.getD (readInode s.disk i) = (s.inode k).copy.getD (readInode s.disk i))
    (hdisk : s'.disk = s.disk) (hcounted : s'.Counted) :
    s'.Inv ∧ s'.files = s.files := by
  have he := inode_self hinode
  have hhas' := has_of_used hinode hhas.lt hinum href
  have hself : ∀ j, s'.Has j k → s.Has j k := by
    intro j hj
    obtain rfl : i = j := hhas'.inum.symm.trans hj.inum
    exact hhas
  have hkeyed : s'.Keyed := h.keyed.update hinode hself
  have hview : ∀ j, s'.view j = s.view j := by
    intro j
    by_cases hj : i = j
    · subst hj
      rw [hkeyed.view_self hhas', h.keyed.view_self hhas, hdisk, he, hcopy]
    · refine h.keyed.view_of_ne hkeyed hinode ?_ ?_ (by rw [hdisk])
      · exact fun hjk ↦ hj (hhas.inum.symm.trans hjk.inum)
      · exact fun hjk ↦ hj (hhas'.inum.symm.trans hjk.inum)
  refine ⟨⟨hcounted, hkeyed, fun j l hl ↦ ?_, ?_⟩, same hdisk fun j _ ↦ by rw [hview j]⟩
  · rw [hdisk]
    rcases eq_or_ne l k with rfl | hne
    · exact h.live j l (hself j hl)
    · exact h.live j l (hl.congr (inode_of_ne hinode hne).symm)
  · rw [hdisk]
    exact h.consistent.congr fun j _ ↦ hview j

/-- **A free entry** is taken for an inode. -/
theorem fresh (h : s.Inv) (hlive : Live s.disk i) (hnone : ∀ l, ¬ s.Has i l)
    (hk : k < NINODE) (hfree : (s.inode k).ref = 0)
    (hinode : s'.inode = Function.update s.inode k e) (hinum : e.inum = i) (href : 0 < e.ref)
    (hcopy : e.copy = none) (hdisk : s'.disk = s.disk) (hcounted : s'.Counted) :
    s'.Inv ∧ s'.files = s.files := by
  have he := inode_self hinode
  have hkeyed : s'.Keyed := h.keyed.fresh hinode hinum hnone
  have hhas' := has_of_used hinode hk hinum href
  have hhas : ∀ j l, s'.Has j l → l = k ∧ j = i ∨ l ≠ k ∧ s.Has j l := by
    intro j l hl
    rcases eq_or_ne l k with rfl | hne
    · exact .inl ⟨rfl, hl.inum.symm.trans hhas'.inum⟩
    · exact .inr ⟨hne, hl.congr (inode_of_ne hinode hne).symm⟩
  have hview : ∀ j, s'.view j = s.view j := by
    intro j
    by_cases hj : s'.Has j k
    · obtain rfl : j = i := hj.inum.symm.trans hhas'.inum
      rw [hkeyed.view_self hj, he, hcopy, view_none hnone, hdisk]
      rfl
    · refine h.keyed.view_of_ne hkeyed hinode ?_ hj (by rw [hdisk])
      intro hjk
      have hpos := hjk.ref
      omega
  refine ⟨⟨hcounted, hkeyed, fun j l hl ↦ ?_, ?_⟩, same hdisk fun j _ ↦ by rw [hview j]⟩
  · rw [hdisk]
    rcases hhas j l hl with ⟨-, rfl⟩ | ⟨-, hl⟩
    · exact hlive
    · exact h.live j l hl
  · rw [hdisk]
    exact h.consistent.congr fun j _ ↦ hview j

/-- **The last reference** to an inode that is still linked is given back. -/
theorem gone (h : s.Inv) (hhas : s.Has i k) (hinode : s'.inode = Function.update s.inode k e)
    (href : e.ref = 0) (hdisk : s'.disk = s.disk) (hcounted : s'.Counted) :
    s'.Inv ∧ s'.files = s.files := by
  have hno := not_has_of_unused hinode href
  have hkeyed : s'.Keyed := h.keyed.update hinode fun j hj ↦ absurd hj (hno j)
  have hback := has_of_unused hinode href
  have hview : ∀ j, s'.view j = Function.update s.view i (readInode s.disk i) j := by
    intro j
    rcases eq_or_ne j i with rfl | hne
    · rw [Function.update_self, view_none, hdisk]
      intro l hl
      obtain ⟨hne, hl⟩ := hback j l hl
      exact hne (h.keyed j l k hl hhas)
    · rw [Function.update_of_ne hne]
      refine h.keyed.view_of_ne hkeyed hinode ?_ (hno j) (by rw [hdisk])
      exact fun hjk ↦ hne (hjk.inum.symm.trans hhas.inum)
  refine ⟨⟨hcounted, hkeyed, fun j l hl ↦ ?_, ?_⟩, same hdisk fun j hj ↦ ?_⟩
  · rw [hdisk]
    exact h.live j l (hback j l hl).2
  · rw [hdisk]
    exact (h.consistent.reload i).congr fun j _ ↦ hview j
  · rw [hview j]
    rcases eq_or_ne j i with rfl | hne
    · rw [Function.update_self]
      exact (h.consistent.file j hj).file_reload
    · rw [Function.update_of_ne hne]

/-- **One file changes**, and the others do not. -/
theorem change (h : s.Inv) (hframe : Frame s.disk ip s'.disk ip') (hinum : ip.inum = i)
    (hapart : ∀ j, Live s.disk j → j ≠ i → Apart s.disk (s.view j) ip) (hsound : Sound s'.disk)
    (hview : ∀ j, j ≠ i → Live s.disk j → s'.view j = s.view j)
    (hself : Live s'.disk i → s'.view i = ip' ∧ FileOk s'.disk i ip') :
    Consistent s'.disk s'.view ∧ s'.files = Function.update s.files i (s'.files i) := by
  have hlive : ∀ j, j ≠ i → (Live s'.disk j ↔ Live s.disk j) := fun j hne ↦
    hframe.live_iff (by rwa [hinum])
  obtain ⟨hconsistent, hcontents⟩ :=
    h.consistent.update hframe hinum hapart hsound fun hi ↦ (hself hi).2
  refine ⟨hconsistent.congr fun j hj ↦ ?_, ?_⟩
  · rcases eq_or_ne j i with rfl | hne
    · rw [Function.update_self]
      exact (hself hj).1
    · rw [Function.update_of_ne hne]
      exact hview j hne ((hlive j hne).1 hj)
  · funext j
    rcases eq_or_ne j i with rfl | hne
    · rw [Function.update_self]
    · rw [Function.update_of_ne hne, files, files]
      by_cases hj : Live s.disk j
      · rw [if_pos hj, if_pos ((hlive j hne).2 hj), hview j hne hj, Inode.file, Inode.file,
          hcontents j hne hj]
      · rw [if_neg hj, if_neg (mt (hlive j hne).1 hj)]

end Inv

end State

end FileSys
