import Cs537OS.FileSys.Names

/-!
# The elements of a path

A path is cut at its slashes; empty elements do not count, and of a long one only the first
`DIRSIZ` bytes do. `skipelem` takes the elements one by one. The path is given up to the zero byte
that ends it.

* `pieces_eq` — the elements, one by one;
* `skipelem_none_iff`, `skipelem_some` — and so are they taken.
-/

namespace FileSys

def slash : UInt8 := 47

/-- Copy the next path element from `path` into `name`. The path after it has no leading slashes. -/
def skipelem (path : List UInt8) (name : ℕ → UInt8) : Option (List UInt8 × (ℕ → UInt8)) :=
  let path := path.dropWhile (· = slash)
  if path = [] then none
  else
    let s := path.takeWhile (· ≠ slash)
    let name :=
      if s.length ≥ DIRSIZ then Patch.write name ⟨0, s.take DIRSIZ⟩
      else Patch.write name ⟨0, s ++ [0]⟩
    some ((path.dropWhile (· ≠ slash)).dropWhile (· = slash), name)

/-- What is between the slashes of a path. -/
def pieces (path : List UInt8) : List (List UInt8) := (path.splitOn slash).filter (· ≠ [])

/-- The elements of a path. -/
def elems (path : List UInt8) : List (List UInt8) := (pieces path).map (·.take DIRSIZ)

variable {path path' s : List UInt8} {name name' : ℕ → UInt8}

theorem pieces_nil : pieces [] = [] := rfl

theorem pieces_cons_slash (path : List UInt8) : pieces (slash :: path) = pieces path := by
  have hsplit : (slash :: path).splitOn slash = [] :: path.splitOn slash :=
    List.splitOn_append_cons_self [] path
  rw [pieces, hsplit, List.filter_cons_of_neg (by simp), pieces]

/-- Leading slashes do not count. -/
theorem pieces_dropWhile (path : List UInt8) :
    pieces (path.dropWhile (· = slash)) = pieces path := by
  induction path with
  | nil => rfl
  | cons c path ih =>
    rw [List.dropWhile_cons]
    split_ifs with hc
    · rw [ih, of_decide_eq_true hc, pieces_cons_slash]
    · rfl

/-- An element, and what follows it. -/
theorem pieces_append (hs : slash ∉ s) (hne : s ≠ [])
    (hpath : path = [] ∨ path.head? = some slash) : pieces (s ++ path) = s :: pieces path := by
  cases path with
  | nil =>
    rw [List.append_nil, pieces, List.splitOn_eq_singleton hs, pieces_nil,
      List.filter_cons_of_pos (by simpa using hne), List.filter_nil]
  | cons c path =>
    obtain rfl : c = slash := by
      rcases hpath with hnil | hhead
      · cases hnil
      · exact Option.some.inj hhead
    rw [pieces, List.splitOn_append_cons_self_of_not_mem hs, List.filter_cons_of_pos
      (by simpa using hne), pieces_cons_slash, pieces]

/-- What a `dropWhile` leaves begins with something else. -/
theorem dropWhile_cases (p : UInt8 → Bool) (l : List UInt8) :
    l.dropWhile p = [] ∨ ∃ c l', l.dropWhile p = c :: l' ∧ p c = false := by
  induction l with
  | nil => exact .inl rfl
  | cons c l ih =>
    rw [List.dropWhile_cons]
    split_ifs with hc
    · exact ih
    · exact .inr ⟨c, l, rfl, by simpa using hc⟩

/-- **The elements, one by one.** -/
theorem pieces_eq (hne : path.dropWhile (· = slash) ≠ []) :
    pieces path = (path.dropWhile (· = slash)).takeWhile (· ≠ slash) ::
      pieces ((path.dropWhile (· = slash)).dropWhile (· ≠ slash)) := by
  rw [← pieces_dropWhile path]
  generalize hp : path.dropWhile (· = slash) = p at hne
  have hsplit := List.takeWhile_append_dropWhile (p := fun c : UInt8 ↦ decide (c ≠ slash)) (l := p)
  have hs : slash ∉ p.takeWhile (· ≠ slash) := fun hmem ↦ by
    have hslash := List.all_eq_true.mp List.all_takeWhile slash hmem
    simp at hslash
  have hfirst : p.takeWhile (· ≠ slash) ≠ [] := by
    obtain hnil | ⟨c, l, hcons, hc⟩ := dropWhile_cases (· = slash) path
    · exact absurd (hp.symm.trans hnil) hne
    · rw [← hp, hcons, List.takeWhile_cons_of_pos (by simpa using hc)]
      exact List.cons_ne_nil _ _
  have hrest : p.dropWhile (· ≠ slash) = [] ∨ (p.dropWhile (· ≠ slash)).head? = some slash := by
    obtain hnil | ⟨c, l, hcons, hc⟩ := dropWhile_cases (· ≠ slash) p
    · exact .inl hnil
    · refine .inr ?_
      rw [hcons, List.head?_cons]
      simpa using hc
  conv_lhs => rw [← hsplit]
  exact pieces_append hs hfirst hrest

theorem skipelem_none_iff : skipelem path name = none ↔ elems path = [] := by
  rw [skipelem, elems, List.map_eq_nil_iff]
  split_ifs with hnil
  · rw [← pieces_dropWhile, hnil]
    exact iff_of_true rfl pieces_nil
  · rw [pieces_eq hnil]
    exact iff_of_false (by simp) (List.cons_ne_nil _ _)

/-- A string is read up to its zero byte. -/
theorem cstr_of_bytes {n : ℕ} {p : ℕ → UInt8} (hzero : 0 ∉ s)
    (h : ∀ i < n, i ≤ s.length → p i = bytesOf s i) : cstr n p = s.take n := by
  induction n generalizing s p with
  | zero => rfl
  | succ n ih =>
    rw [cstr, h 0 (Nat.succ_pos n) (Nat.zero_le _)]
    cases s with
    | nil => rfl
    | cons c s =>
      obtain ⟨hc, hzero⟩ := not_or.mp fun hor ↦ hzero (List.mem_cons.mpr hor)
      have hrest : cstr n (fun i ↦ p (i + 1)) = s.take n :=
        ih hzero fun i hi hle ↦ h (i + 1) (Nat.succ_lt_succ hi) (Nat.succ_le_succ hle)
      rw [hrest, List.take_succ_cons]
      exact if_neg (Ne.symm hc)

/-- The name that is copied. -/
theorem cstr_copied (hzero : 0 ∉ s) (name : ℕ → UInt8) :
    cstr DIRSIZ (if s.length ≥ DIRSIZ then Patch.write name ⟨0, s.take DIRSIZ⟩
      else Patch.write name ⟨0, s ++ [0]⟩) = s.take DIRSIZ := by
  refine cstr_of_bytes hzero fun i hi hle ↦ ?_
  rw [bytesOf, List.getD_eq_getElem?_getD]
  split_ifs with hlong
  · have hcopy := Patch.holds_write (p := ⟨0, s.take DIRSIZ⟩) name i (by simp; omega)
    simp only [Nat.zero_add, List.getElem_take] at hcopy
    rw [hcopy, List.getElem?_eq_getElem (by omega), Option.getD_some]
  · have hcopy := Patch.holds_write (p := ⟨0, s ++ [0]⟩) name i (by simp; omega)
    simp only [Nat.zero_add, List.getElem_append] at hcopy
    rw [hcopy]
    split_ifs with hin
    · rw [List.getElem?_eq_getElem hin, Option.getD_some]
    · rw [List.getElem?_eq_none (by omega), Option.getD_none, List.getElem_singleton]

/-- Only slashes are left out. -/
theorem elems_eq_nil_iff (hhead : path.head? ≠ some slash) : elems path = [] ↔ path = [] := by
  cases path with
  | nil => exact iff_of_true rfl rfl
  | cons c path =>
    have hc : ¬ c = slash := fun h ↦ hhead (congrArg some h)
    have hkeep : (c :: path).dropWhile (· = slash) = c :: path :=
      List.dropWhile_cons_of_neg (by simpa using hc)
    rw [elems, pieces_eq (by rw [hkeep]; exact List.cons_ne_nil c path)]
    exact iff_of_false (by simp) (List.cons_ne_nil c path)

/-- **`skipelem`** takes the first element. -/
theorem skipelem_some (hzero : 0 ∉ path) (h : skipelem path name = some (path', name')) :
    elems path = cstr DIRSIZ name' :: elems path' ∧ 0 ∉ path' ∧ path'.length < path.length ∧
      (elems path' = [] ↔ path' = []) := by
  have hnil : path.dropWhile (· = slash) ≠ [] := fun hnil ↦ by
    rw [skipelem, if_pos hnil] at h
    cases h
  rw [skipelem, if_neg hnil] at h
  obtain ⟨rfl, rfl⟩ := Prod.mk.inj (Option.some.inj h)
  have hpieces := pieces_eq hnil
  obtain hcontra | ⟨c, l, hcons, hc⟩ := dropWhile_cases (· = slash) path
  · exact absurd hcontra hnil
  have hsub : path.dropWhile (· = slash) <:+ path := List.dropWhile_suffix _
  rw [hcons] at hpieces hsub ⊢
  have hrest : (l.dropWhile (· ≠ slash)).dropWhile (· = slash) <:+ l :=
    (List.dropWhile_suffix _).trans (List.dropWhile_suffix _)
  have hdrop : (c :: l).dropWhile (· ≠ slash) = l.dropWhile (· ≠ slash) :=
    List.dropWhile_cons_of_pos (by simpa using hc)
  have hname : 0 ∉ (c :: l).takeWhile (· ≠ slash) := fun hmem ↦
    hzero (hsub.subset ((List.takeWhile_prefix _).subset hmem))
  rw [hdrop] at hpieces ⊢
  refine ⟨?_, fun hmem ↦ ?_, ?_, elems_eq_nil_iff ?_⟩
  · rw [elems, hpieces, List.map_cons, cstr_copied hname, elems, pieces_dropWhile]
  · exact hzero (hsub.subset (List.mem_cons_of_mem c (hrest.subset hmem)))
  · have hlength := hsub.length_le
    rw [List.length_cons] at hlength
    exact Nat.lt_of_le_of_lt hrest.length_le hlength
  · obtain hempty | ⟨c', l', hcons', hc'⟩ := dropWhile_cases (· = slash) (l.dropWhile (· ≠ slash))
    · rw [hempty]
      exact nofun
    · rw [hcons', List.head?_cons]
      exact fun h ↦ of_decide_eq_false hc' (Option.some.inj h)

end FileSys
