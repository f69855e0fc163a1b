import Cs537OS.Foundation.GuardedLoop
import Cs537OS.Foundation.MarkedClimb
import Cs537OS.Fsck.Check
import Mathlib.Data.Finset.Card
import Mathlib.Order.CompletePartialOrder
import Mathlib.Tactic.SplitIfs

/-!
# The parent walk

The loop detection of check mode, over any directory table and any recorded parents. A walk is a
climb (`MarkedClimb`) that is done at a node whose recorded parent is the root, and it marks what
it passes. The marks of one walk are still there in the next.

* `loopCheck_sound` — a completed loop detection: every directory's climb ends, so every directory
  leads to the root, and the marks are what the climbs passed;
* `loopCheck_ne_outOfFuel` — the walks terminate: a turn of the `while` loop either ends the walk
  or marks an unmarked inode;
* `loopCheck_ne_report_iff` and `loopCheck_silent_iff` — when it reports no directory as
  inaccessible, for any parents and for directories that all lead to the root.

A directory all of whose ancestors lead to the root is still reported when its climb meets the
climb of a lower-numbered directory at a node other than its own start; `chain` is the smallest
such tree.
-/

namespace Fsck

open MarkedClimb

/-- The `while` loop ends at a node whose recorded parent is the root. -/
def UnderRoot (parentinum : ℕ → ℕ) (x : ℕ) : Prop := parentinum x = rootino

/-- The nodes that the walk from `d` marks: `d` and its ancestors, up to the first one whose
recorded parent is the root. -/
def walkPath (parentinum : ℕ → ℕ) (d : ℕ) : Set ℕ := climb parentinum (UnderRoot parentinum) d

/-- The directories below inode `n`. -/
def dirsBelow (dirarr : ℕ → ℕ) (n : ℕ) : Set ℕ := {d | d < n ∧ dirarr d ≠ 0}

/-- The nodes that the walks from the directories below inode `n` mark. -/
def walked (dirarr parentinum : ℕ → ℕ) (n : ℕ) : Set ℕ :=
  passed parentinum (UnderRoot parentinum) (dirsBelow dirarr n)

variable {ninodes fuel : ℕ} {dirarr parentinum : ℕ → ℕ}

/-! ### One walk -/

/-- `loopdetect` marks exactly the nodes of `S`, each once. -/
structure Marks (loopdetect : ℕ → ℕ) (S : Set ℕ) : Prop where
  one : ∀ x ∈ S, loopdetect x = 1
  zero : ∀ x ∉ S, loopdetect x = 0

theorem Marks.bump {t : ℕ → ℕ} {S : Set ℕ} (h : Marks t S) {x : ℕ} (hx : x ∉ S) :
    Marks (bump t x) (insert x S) where
  one y hy := by
    by_cases hyx : y = x
    · rw [hyx, bump_self, h.zero x hx]
    · rw [bump_of_ne t hyx, h.one y (Set.mem_of_mem_insert_of_ne hy hyx)]
  zero y hy := by
    rw [Set.mem_insert_iff, not_or] at hy
    rw [bump_of_ne t hy.1, h.zero y hy.2]

theorem Marks.mem_iff {t : ℕ → ℕ} {S : Set ℕ} (h : Marks t S) {x : ℕ} : x ∈ S ↔ t x = 1 := by
  refine ⟨h.one x, fun hx ↦ ?_⟩
  by_contra hn
  rw [h.zero x hn] at hx
  exact absurd hx (by decide)

/-- A completed walk: its climb ends, it met no mark, and it added its path to the marks. -/
theorem walkParents_eq_ok {t t' : ℕ → ℕ} {S : Set ℕ} {cur : ℕ} (ht : Marks t S)
    (h : walkParents ninodes parentinum fuel t cur = .ok t') :
    Ends parentinum (UnderRoot parentinum) cur ∧ Disjoint (walkPath parentinum cur) S ∧
      Marks t' (S ∪ walkPath parentinum cur) := by
  induction fuel generalizing t S cur with
  | zero => exact absurd h (by simp [walkParents])
  | succ fuel ih =>
    rw [walkParents, GuardedLoop.guard_eq_ok_iff] at h
    obtain ⟨-, h⟩ := h
    by_cases hdone : parentinum cur = rootino
    · rw [if_pos hdone] at h
      obtain rfl := Except.ok.inj h
      have hpath : walkPath parentinum cur = ∅ := climb_of_done hdone
      rw [hpath, Set.union_empty]
      exact ⟨ends_of_done hdone, Set.empty_disjoint S, ht⟩
    · have hclimb : ¬ UnderRoot parentinum cur := hdone
      rw [if_neg hdone, GuardedLoop.guard_eq_ok_iff, not_not] at h
      obtain ⟨hcur, h⟩ := h
      have hS : cur ∉ S := fun hmem ↦ absurd (ht.one cur hmem) (by omega)
      have hpath : walkPath parentinum cur =
          insert cur (walkPath parentinum (parentinum cur)) := climb_of_not_done hclimb
      obtain ⟨hends, hdisj, hmarks⟩ := ih (ht.bump hS) h
      rw [Set.disjoint_insert_right] at hdisj
      rw [hpath]
      refine ⟨(ends_iff_parent hclimb).2 hends, ?_, ?_⟩
      · exact Set.disjoint_insert_left.2 ⟨hS, hdisj.2⟩
      · rwa [Set.insert_union, ← Set.union_insert] at hmarks

/-- A walk whose climb ends and whose path is unmarked reports nothing. -/
theorem walkParents_ne_report {t : ℕ → ℕ} {S : Set ℕ} {cur : ℕ} {r : Report} (ht : Marks t S)
    (hends : Ends parentinum (UnderRoot parentinum) cur)
    (hdisj : Disjoint (walkPath parentinum cur) S) :
    walkParents ninodes parentinum fuel t cur ≠ .error (.report r) := by
  induction fuel generalizing t S cur with
  | zero => simp [walkParents]
  | succ fuel ih =>
    rw [walkParents]
    by_cases hlt : cur < ninodes
    · rw [if_neg (not_not.2 hlt)]
      by_cases hdone : parentinum cur = rootino
      · rw [if_pos hdone]
        exact fun h ↦ (by cases h)
      · have hclimb : ¬ UnderRoot parentinum cur := hdone
        have hpath : walkPath parentinum cur =
            insert cur (walkPath parentinum (parentinum cur)) := climb_of_not_done hclimb
        rw [hpath, Set.disjoint_insert_left] at hdisj
        have hcur : t cur = 0 := ht.zero cur hdisj.1
        rw [if_neg hdone, if_neg (not_not.2 hcur)]
        refine ih (ht.bump hdisj.1) ((ends_iff_parent hclimb).1 hends) ?_
        exact Set.disjoint_insert_right.2 ⟨hends.notMem_climb_parent, hdisj.2⟩
    · rw [if_pos hlt]
      exact fun h ↦ (by cases h)

/-- The walk has one report. -/
theorem walkParents_report {t : ℕ → ℕ} {cur : ℕ} {r : Report}
    (h : walkParents ninodes parentinum fuel t cur = .error (.report r)) : r = .inaccessible := by
  induction fuel generalizing t cur with
  | zero => exact absurd h (by simp [walkParents])
  | succ fuel ih =>
    rw [walkParents, GuardedLoop.guard_eq_error_iff] at h
    rcases h with ⟨-, h⟩ | ⟨-, h⟩
    · cases h
    by_cases hdone : parentinum cur = rootino
    · rw [if_pos hdone] at h
      cases h
    · rw [if_neg hdone, GuardedLoop.guard_eq_error_iff] at h
      rcases h with ⟨-, h⟩ | ⟨-, h⟩
      · cases h
        rfl
      · exact ih h

/-- The inodes without a mark. -/
def unmarked (ninodes : ℕ) (loopdetect : ℕ → ℕ) : Finset ℕ :=
  (Finset.range ninodes).filter (loopdetect · = 0)

theorem unmarked_bump {t : ℕ → ℕ} {x : ℕ} (hx : x < ninodes) (h₀ : t x = 0) :
    (unmarked ninodes (bump t x)).card < (unmarked ninodes t).card := by
  refine Finset.card_lt_card (Finset.ssubset_iff_subset_ne.2 ⟨fun y hy ↦ ?_, fun heq ↦ ?_⟩)
  · obtain ⟨hy, hy₀⟩ := Finset.mem_filter.1 hy
    have hyx : y ≠ x := by
      rintro rfl
      rw [bump_self] at hy₀
      exact absurd hy₀ (Nat.succ_ne_zero _)
    exact Finset.mem_filter.2 ⟨hy, by rwa [bump_of_ne t hyx] at hy₀⟩
  · have hmem : x ∈ unmarked ninodes t := Finset.mem_filter.2 ⟨Finset.mem_range.2 hx, h₀⟩
    rw [← heq] at hmem
    have h₁ : bump t x x = 0 := (Finset.mem_filter.1 hmem).2
    rw [bump_self] at h₁
    exact absurd h₁ (Nat.succ_ne_zero _)

/-- **A walk terminates**: every turn of the loop marks an unmarked inode, or is the last. -/
theorem walkParents_ne_outOfFuel {t : ℕ → ℕ} {cur : ℕ}
    (h : (unmarked ninodes t).card < fuel) :
    walkParents ninodes parentinum fuel t cur ≠ .error .outOfFuel := by
  induction fuel generalizing t cur with
  | zero => exact absurd h (Nat.not_lt_zero _)
  | succ fuel ih =>
    rw [walkParents]
    by_cases hlt : cur < ninodes
    · rw [if_neg (not_not.2 hlt)]
      by_cases hdone : parentinum cur = rootino
      · rw [if_pos hdone]
        exact fun h ↦ (by cases h)
      · by_cases hcur : t cur = 0
        · rw [if_neg hdone, if_neg (not_not.2 hcur)]
          have hfewer := unmarked_bump hlt hcur
          exact ih (by omega)
        · rw [if_neg hdone, if_pos hcur]
          exact fun h ↦ (by cases h)
    · rw [if_pos hlt]
      exact fun h ↦ (by cases h)

/-- A walk over parents below `ninodes` stays inside the tables. -/
theorem walkParents_ne_outOfBounds {t : ℕ → ℕ} {cur : ℕ}
    (hp : ∀ x < ninodes, parentinum x < ninodes) (hcur : cur < ninodes) :
    walkParents ninodes parentinum fuel t cur ≠ .error .outOfBounds := by
  induction fuel generalizing t cur with
  | zero => simp [walkParents]
  | succ fuel ih =>
    rw [walkParents, if_neg (not_not.2 hcur)]
    split_ifs
    · exact fun h ↦ (by cases h)
    · exact fun h ↦ (by cases h)
    · exact ih (hp cur hcur)

/-! ### All walks -/

/-- The walks from the inodes below `n`. -/
def walksBelow (fuel ninodes : ℕ) (dirarr parentinum : ℕ → ℕ) (n : ℕ) : Except Stop (ℕ → ℕ) :=
  (List.range n).foldlM (walkFrom fuel ninodes dirarr parentinum) (fun _ ↦ 0)

theorem walksBelow_succ (n : ℕ) :
    walksBelow fuel ninodes dirarr parentinum (n + 1) =
      walksBelow fuel ninodes dirarr parentinum n >>=
        fun t ↦ walkFrom fuel ninodes dirarr parentinum t n := by
  rw [walksBelow, List.range_succ, List.foldlM_append]
  refine congrArg _ (funext fun t ↦ ?_)
  exact bind_pure (walkFrom fuel ninodes dirarr parentinum t n)

theorem dirsBelow_succ_of_dir {n : ℕ} (h : dirarr n ≠ 0) :
    dirsBelow dirarr (n + 1) = insert n (dirsBelow dirarr n) := by
  ext d
  simp only [dirsBelow, Set.mem_ofPred_eq, Set.mem_insert_iff, Nat.lt_succ_iff_lt_or_eq]
  constructor
  · rintro ⟨hlt | rfl, hd⟩
    · exact .inr ⟨hlt, hd⟩
    · exact .inl rfl
  · rintro (rfl | ⟨hlt, hd⟩)
    · exact ⟨.inr rfl, h⟩
    · exact ⟨.inl hlt, hd⟩

theorem dirsBelow_succ_of_not_dir {n : ℕ} (h : dirarr n = 0) :
    dirsBelow dirarr (n + 1) = dirsBelow dirarr n := by
  ext d
  simp only [dirsBelow, Set.mem_ofPred_eq, Nat.lt_succ_iff_lt_or_eq]
  refine and_congr_left fun hd ↦ or_iff_left ?_
  rintro rfl
  exact hd h

/-- The walks from the directories below `n` all end, and each starts at a node already walked or
meets none. -/
def ClearBelow (dirarr parentinum : ℕ → ℕ) (n : ℕ) : Prop :=
  ∀ d ∈ dirsBelow dirarr n, Ends parentinum (UnderRoot parentinum) d ∧
    (d ∈ walked dirarr parentinum d ∨
      Disjoint (walkPath parentinum d) (walked dirarr parentinum d))

/-- **Completed walks**: they were clear, and the marks are the nodes walked. -/
theorem walksBelow_eq_ok {n : ℕ} {t : ℕ → ℕ}
    (h : walksBelow fuel ninodes dirarr parentinum n = .ok t) :
    ClearBelow dirarr parentinum n ∧ Marks t (walked dirarr parentinum n) := by
  induction n generalizing t with
  | zero =>
    obtain rfl := Except.ok.inj h
    refine ⟨fun d hd ↦ absurd hd.1 (Nat.not_lt_zero d), fun x hx ↦ ?_, fun x _ ↦ rfl⟩
    obtain ⟨d, hd, -⟩ := hx
    exact absurd hd.1 (Nat.not_lt_zero d)
  | succ n ih =>
    rw [walksBelow_succ, GuardedLoop.bind_eq_ok_iff] at h
    obtain ⟨t₀, ht₀, h⟩ := h
    obtain ⟨hclear, hmarks⟩ := ih ht₀
    rw [walkFrom] at h
    by_cases hd : dirarr n = 0
    · -- not a directory: no walk
      rw [if_neg fun hc ↦ hc.1 hd] at h
      obtain rfl := Except.ok.inj h
      rw [ClearBelow, walked, dirsBelow_succ_of_not_dir hd]
      exact ⟨hclear, hmarks⟩
    have hwalked : walked dirarr parentinum (n + 1) =
        walked dirarr parentinum n ∪ walkPath parentinum n := by
      rw [walked, dirsBelow_succ_of_dir hd, passed_insert]
      rfl
    rw [ClearBelow, dirsBelow_succ_of_dir hd, Set.forall_mem_insert]
    by_cases ht : t₀ n = 1
    · -- already marked: the walk is skipped, and would have marked nothing new
      rw [if_neg fun hc ↦ hc.2 ht] at h
      obtain rfl := Except.ok.inj h
      have hmem : n ∈ walked dirarr parentinum n := hmarks.mem_iff.2 ht
      have hsame : walked dirarr parentinum (n + 1) = walked dirarr parentinum n := by
        rw [walked, dirsBelow_succ_of_dir hd]
        exact passed_insert_of_mem hmem
      rw [hsame]
      exact ⟨⟨⟨ends_of_mem_passed (fun d hd ↦ (hclear d hd).1) hmem, .inl hmem⟩, hclear⟩, hmarks⟩
    · rw [if_pos ⟨hd, ht⟩] at h
      obtain ⟨hends, hdisj, hmarks'⟩ := walkParents_eq_ok hmarks h
      rw [hwalked]
      exact ⟨⟨⟨hends, .inr hdisj⟩, hclear⟩, hmarks'⟩

/-- Clear walks report nothing. -/
theorem walksBelow_ne_report {n : ℕ} {r : Report} (h : ClearBelow dirarr parentinum n) :
    walksBelow fuel ninodes dirarr parentinum n ≠ .error (.report r) := by
  induction n with
  | zero => exact fun h ↦ (by cases h)
  | succ n ih =>
    rw [walksBelow_succ, Ne, GuardedLoop.bind_eq_error_iff]
    rintro (hbelow | ⟨t, ht, hwalk⟩)
    · exact ih (fun d hd ↦ h d ⟨Nat.lt_succ_of_lt hd.1, hd.2⟩) hbelow
    · rw [walkFrom] at hwalk
      split at hwalk
      case isTrue hcond =>
        obtain ⟨hd, htn⟩ := hcond
        have hmarks := (walksBelow_eq_ok ht).2
        obtain ⟨hends, hmem | hdisj⟩ := h n ⟨Nat.lt_succ_self n, hd⟩
        · exact htn (hmarks.mem_iff.1 hmem)
        · exact walkParents_ne_report hmarks hends hdisj hwalk
      case isFalse => cases hwalk

/-- With as many turns as inodes and one more, no walk runs out of them. -/
theorem walksBelow_ne_outOfFuel (hfuel : ninodes < fuel) (n : ℕ) :
    walksBelow fuel ninodes dirarr parentinum n ≠ .error .outOfFuel := by
  induction n with
  | zero => exact fun h ↦ (by cases h)
  | succ n ih =>
    rw [walksBelow_succ, Ne, GuardedLoop.bind_eq_error_iff]
    rintro (hbelow | ⟨t, -, hwalk⟩)
    · exact ih hbelow
    · rw [walkFrom] at hwalk
      split at hwalk
      · refine walkParents_ne_outOfFuel (lt_of_le_of_lt ?_ hfuel) hwalk
        exact (Finset.card_filter_le _ _).trans_eq (Finset.card_range ninodes)
      · cases hwalk

theorem walksBelow_ne_outOfBounds (hp : ∀ x < ninodes, parentinum x < ninodes) {n : ℕ}
    (hn : n ≤ ninodes) :
    walksBelow fuel ninodes dirarr parentinum n ≠ .error .outOfBounds := by
  induction n with
  | zero => exact fun h ↦ (by cases h)
  | succ n ih =>
    rw [walksBelow_succ, Ne, GuardedLoop.bind_eq_error_iff]
    rintro (hbelow | ⟨t, -, hwalk⟩)
    · exact ih (Nat.le_of_succ_le hn) hbelow
    · rw [walkFrom] at hwalk
      split at hwalk
      · exact walkParents_ne_outOfBounds hp hn hwalk
      · cases hwalk

theorem walksBelow_report {n : ℕ} {r : Report}
    (h : walksBelow fuel ninodes dirarr parentinum n = .error (.report r)) : r = .inaccessible := by
  induction n with
  | zero => cases h
  | succ n ih =>
    rw [walksBelow_succ, GuardedLoop.bind_eq_error_iff] at h
    rcases h with hbelow | ⟨t, -, hwalk⟩
    · exact ih hbelow
    · rw [walkFrom] at hwalk
      split at hwalk
      · exact walkParents_report hwalk
      · cases hwalk

/-! ### The loop detection -/

/-- **Soundness of the loop detection.** If it completes, every directory's climb ends. -/
theorem loopCheck_sound {t : ℕ → ℕ} (h : loopCheck fuel ninodes dirarr parentinum = .ok t) {d : ℕ}
    (hd : d < ninodes) (hdir : dirarr d ≠ 0) : ∃ n, parentinum^[n + 1] d = rootino := by
  obtain ⟨n, hn⟩ := ((walksBelow_eq_ok h).1 d ⟨hd, hdir⟩).1
  exact ⟨n, (Function.iterate_succ_apply' parentinum n d).trans hn⟩

/-- **The loop detection terminates.** -/
theorem loopCheck_ne_outOfFuel (hfuel : ninodes < fuel) :
    loopCheck fuel ninodes dirarr parentinum ≠ .error .outOfFuel :=
  walksBelow_ne_outOfFuel hfuel ninodes

/-- The loop detection reports nothing exactly when the walks are clear. -/
theorem loopCheck_ne_report_iff (hp : ∀ x < ninodes, parentinum x < ninodes) :
    (∀ fuel, loopCheck fuel ninodes dirarr parentinum ≠ .error (.report .inaccessible)) ↔
      ClearBelow dirarr parentinum ninodes := by
  constructor
  · intro h
    rcases hrun : loopCheck (ninodes + 1) ninodes dirarr parentinum with (r | _ | _) | t
    · obtain rfl := walksBelow_report hrun
      exact absurd hrun (h _)
    · exact absurd hrun (walksBelow_ne_outOfBounds hp le_rfl)
    · exact absurd hrun (loopCheck_ne_outOfFuel (Nat.lt_succ_self ninodes))
    · exact (walksBelow_eq_ok hrun).1
  · exact fun h fuel ↦ walksBelow_ne_report h

/-- **When the loop detection stays silent on directories that all lead to the root.** The root
directory's own parents must lead back to it, and every directory must lie on the path of a
lower-numbered one, or have a path that meets none of theirs. -/
theorem loopCheck_silent_iff (hp : ∀ x < ninodes, parentinum x < ninodes)
    (hroot : ∀ d < ninodes, dirarr d ≠ 0 → ∃ n, parentinum^[n] d = rootino) :
    (∀ fuel, loopCheck fuel ninodes dirarr parentinum ≠ .error (.report .inaccessible)) ↔
      (rootino < ninodes → dirarr rootino ≠ 0 → ∃ n, parentinum^[n + 1] rootino = rootino) ∧
        ∀ d < ninodes, dirarr d ≠ 0 →
          (∃ d' < d, dirarr d' ≠ 0 ∧ d ∈ walkPath parentinum d') ∨
            ∀ d' < d, dirarr d' ≠ 0 →
              Disjoint (walkPath parentinum d) (walkPath parentinum d') := by
  have hends : ∀ d, Ends parentinum (UnderRoot parentinum) d ↔
      ∃ n, parentinum^[n + 1] d = rootino := by
    intro d
    refine exists_congr fun n ↦ ?_
    rw [Function.iterate_succ_apply']
    rfl
  have hmem : ∀ d, d ∈ walked dirarr parentinum d ↔
      ∃ d' < d, dirarr d' ≠ 0 ∧ d ∈ walkPath parentinum d' := by
    intro d
    refine exists_congr fun d' ↦ ?_
    rw [← and_assoc]
    rfl
  have hdisj : ∀ d, Disjoint (walkPath parentinum d) (walked dirarr parentinum d) ↔
      ∀ d' < d, dirarr d' ≠ 0 → Disjoint (walkPath parentinum d) (walkPath parentinum d') := by
    intro d
    simp only [Set.disjoint_left]
    constructor
    · intro h d' hlt hd' x hx hx'
      exact h hx ⟨d', ⟨hlt, hd'⟩, hx'⟩
    · rintro h x hx ⟨d', ⟨hlt, hd'⟩, hx'⟩
      exact h d' hlt hd' hx hx'
  rw [loopCheck_ne_report_iff hp]
  constructor
  · intro h
    refine ⟨fun hlt hdir ↦ (hends _).1 (h rootino ⟨hlt, hdir⟩).1, fun d hlt hdir ↦ ?_⟩
    exact (h d ⟨hlt, hdir⟩).2.imp (hmem d).1 (hdisj d).1
  · rintro ⟨hself, h⟩ d ⟨hlt, hdir⟩
    refine ⟨(hends d).2 ?_, (h d hlt hdir).imp (hmem d).2 (hdisj d).2⟩
    obtain ⟨n, hn⟩ := hroot d hlt hdir
    cases n with
    | zero =>
      obtain rfl : d = rootino := hn
      exact hself hlt hdir
    | succ n => exact ⟨n, hn⟩

/-- Directory 2 in 3 in 4 in the root, and 5 in 6 in the root. -/
def nested (d : ℕ) : ℕ := if d = 2 ∨ d = 3 ∨ d = 5 then d + 1 else 1

/-- Directories that are numbered from below, which all lead to the root, pass. -/
theorem loopCheck_silent_nested :
    (∀ d < 7, nested^[3] d = rootino) ∧
      ∀ fuel, loopCheck fuel 7 (fun d ↦ if d = 0 then 0 else 1) nested ≠
        .error (.report .inaccessible) := by
  have hall : ∀ d < 7, nested^[3] d = rootino := by decide
  have hparent : ∀ x < 7, nested x < 7 := by decide
  refine ⟨hall, (loopCheck_silent_iff hparent fun d hd _ ↦ ⟨3, hall d hd⟩).2 ⟨?_, ?_⟩⟩
  · exact fun _ _ ↦ ⟨0, rfl⟩
  -- the walk from 2 passes 3, and those from 2 and from 5 do not meet
  have hdone : ∀ d, ¬ (d = 2 ∨ d = 3 ∨ d = 5) → walkPath nested d = ∅ := fun d hd ↦
    climb_of_done (if_neg hd)
  have h₃ : walkPath nested 3 = {3} := by
    rw [walkPath, climb_of_not_done (by rw [UnderRoot]; decide)]
    exact (congrArg (insert 3) (hdone 4 (by decide))).trans (insert_empty_eq 3)
  have h₂ : walkPath nested 2 = {2, 3} := by
    rw [walkPath, climb_of_not_done (by rw [UnderRoot]; decide)]
    exact congrArg (insert 2) h₃
  have h₅ : walkPath nested 5 = {5} := by
    rw [walkPath, climb_of_not_done (by rw [UnderRoot]; decide)]
    exact (congrArg (insert 5) (hdone 6 (by decide))).trans (insert_empty_eq 5)
  intro d hd _
  by_cases hthree : d = 3
  · subst hthree
    exact .inl ⟨2, by decide, by decide, by rw [h₂]; exact .inr rfl⟩
  refine .inr fun d' hlt _ ↦ ?_
  by_cases hstart : d = 2 ∨ d = 5
  · by_cases hpass : d' = 2 ∨ d' = 3
    · obtain rfl : d = 5 := by omega
      rw [h₅, Set.disjoint_singleton_left]
      rcases hpass with rfl | rfl
      · rw [h₂]
        decide
      · rw [h₃]
        decide
    · rw [hdone d' (by omega)]
      exact Set.disjoint_empty _
  · rw [hdone d (by omega)]
    exact Set.empty_disjoint _

/-- Directories 2, 3 and 4, each in the one before and the first in the root. -/
def chain (d : ℕ) : ℕ := if d ≤ 2 then 1 else d - 1

/-- The chain leads to the root from everywhere, and its last directory is reported. -/
theorem loopCheck_chain :
    (∀ x < 5, chain x < 5) ∧ (∀ d < 5, ∃ n, chain^[n] d = rootino) ∧
      loopCheck 6 5 (fun d ↦ if d = 0 then 0 else 1) chain = .error (.report .inaccessible) := by
  refine ⟨by decide, fun d hd ↦ ⟨4, ?_⟩, rfl⟩
  have hall : ∀ d < 5, chain^[4] d = rootino := by decide
  exact hall d hd

end Fsck
