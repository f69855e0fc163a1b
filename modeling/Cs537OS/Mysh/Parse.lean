import Cs537OS.Mysh.Operators

/-!
# What `mysh` makes of a command

A command is read correctly (`Sound`) when a child that calls `execvp` gets the tokens before the
first operator, and opens the tokens behind the redirection operators. The lists of tokens for which
this fails are of three kinds:

* `DropsLast`: in the background the last token is removed, whether or not it is the `&`;
* `Doubled`: the number of operands that the shell counts for `< < &` is that of a single file, and
  the file is the `&`;
* `Tangled`: with both redirections the shell refuses too many operands only. What is left has the
  right form, or an operator where a file should be.

`execute_sound_iff` says that there are no others.
-/

namespace Mysh

open Operands

/-- One of `<`, `>` and `&`. -/
def isOperator (t : Token) : Bool := t == less || t == greater || t == ampersand

/-- What a child executes is what the tokens say. -/
structure Faithful (ts argv : List Token) (opens : List Redirect) : Prop where
  /-- The arguments are the tokens before the first operator. -/
  argv_eq : argv = ts.takeWhile (!isOperator ·)
  argv_ne : argv ≠ []
  /-- A file is the token behind its operator, and not an operator. -/
  path : ∀ r ∈ opens, ∃ k path, ts[k]? = some r.operator ∧ ts[k + 1]? = some path ∧
    r.path = some path ∧ isOperator path = false

/-- The shell executes what the tokens say, or nothing. -/
def Sound (ts : List Token) : Outcome → Prop
  | .executes argv opens _ => Faithful ts argv opens
  | .pipeline _ _ => False
  | .builtin _ | .ignored | .refused | .quits => True

/-! ### The commands that are misread -/

/-- No redirection before the `&`, which is the first token or not the last one. -/
def DropsLast (ts : List Token) : Prop :=
  less ∉ front ts ∧ greater ∉ front ts ∧ ampersand ∈ ts ∧
    (front ts = [] ∨ (front ts).length + 1 ≠ ts.length)

/-- Nothing but one redirection operator, twice, right before the `&`. -/
def Doubled (ts : List Token) : Prop :=
  ampersand ∈ ts ∧ ∃ op pre, (op = less ∨ op = greater) ∧ less ∉ pre ∧ greater ∉ pre ∧
    front ts = pre ++ [op, op]

/-- The operator stands before the first `&`, not only in the first place, and the line does not
end with it. -/
def Placed (op : Token) (ts : List Token) : Prop :=
  op ∈ (front ts).tail ∧ (ampersand ∈ ts ∨ ts.getLast? ≠ some op)

/-- Words, a redirection of the one kind, and a redirection of the other kind. -/
def Complete (op other : Token) (l : List Token) : Prop :=
  ∃ pre x y, pre ≠ [] ∧ (∀ t ∈ pre, isOperator t = false) ∧ isOperator x = false ∧
    isOperator y = false ∧ l = pre ++ [op, x, other, y]

/-- Both redirections, with at most one operand each, but not in the proper form. -/
def Tangled (ts : List Token) : Prop :=
  Placed less ts ∧ Placed greater ts ∧ ¬ Crowded less greater (front ts) ∧
    ¬ Crowded greater less (front ts) ∧ ¬ Complete less greater (front ts) ∧
    ¬ Complete greater less (front ts)

/-- The shell makes something else of the command. -/
def Misread (ts : List Token) : Prop := DropsLast ts ∨ Doubled ts ∨ Tangled ts

variable {ts argv pre : List Token} {op other t x : Token} {i : ℕ}

theorem isOperator_eq_false_iff :
    isOperator t = false ↔ t ≠ less ∧ t ≠ greater ∧ t ≠ ampersand := by
  simp [isOperator, and_assoc]

/-- The two redirection operators, in either order. -/
def Kinds (op other : Token) : Prop :=
  op = less ∧ other = greater ∨ op = greater ∧ other = less

theorem Kinds.symm (h : Kinds op other) : Kinds other op :=
  (Or.symm h).imp And.symm And.symm

theorem Kinds.isOperator_eq_false_iff (h : Kinds op other) :
    isOperator t = false ↔ t ≠ op ∧ t ≠ other ∧ t ≠ ampersand := by
  rw [Mysh.isOperator_eq_false_iff]
  rcases h with ⟨rfl, rfl⟩ | ⟨rfl, rfl⟩
  · rfl
  · exact and_left_comm

theorem Kinds.isOperator_left (h : Kinds op other) : isOperator op = true := by
  rw [← Bool.not_eq_false, h.isOperator_eq_false_iff]
  exact fun hno ↦ hno.1 rfl

theorem Kinds.notMem_iff (h : Kinds op other) :
    less ∉ pre ∧ greater ∉ pre ↔ op ∉ pre ∧ other ∉ pre := by
  rcases h with ⟨rfl, rfl⟩ | ⟨rfl, rfl⟩
  · rfl
  · exact and_comm

/-- What stands before the first operator. -/
theorem Kinds.forall_words (h : Kinds op other) {post : List Token} (heq : front ts = pre ++ post)
    (hop : op ∉ pre) (hother : other ∉ pre) : ∀ t ∈ pre, isOperator t = false := by
  intro t ht
  have hmem : t ∈ front ts := heq ▸ List.mem_append_left _ ht
  exact h.isOperator_eq_false_iff.2 ⟨ne_of_mem_of_not_mem ht hop, ne_of_mem_of_not_mem ht hother,
    ne_of_mem_of_not_mem hmem ampersand_notMem_front⟩

theorem takeWhile_append (hpre : ∀ t ∈ pre, isOperator t = false) (hop : isOperator op = true)
    (rest : List Token) : (pre ++ op :: rest).takeWhile (!isOperator ·) = pre := by
  rw [List.takeWhile_append_of_pos fun t ht ↦ by rw [hpre t ht]; rfl, List.takeWhile_cons,
    if_neg (by rw [hop]; decide), List.append_nil]

/-- What the scan leaves for `execute`. -/
theorem scan_eq (h : bar ∉ front ts) :
    Scan.init.run 0 ts =
      ⟨lastPlace greater (front ts), lastPlace less (front ts), none,
        if ampersand ∈ ts then some (front ts).length else none,
        operands greater less (front ts), operands less greater (front ts)⟩ := by
  rw [Scan.run_eq _ h]
  simp [Scan.init]

/-- Without redirections the arguments are the tokens before the first operator. -/
theorem faithful_nil_iff :
    Faithful ts argv [] ↔ argv = ts.takeWhile (!isOperator ·) ∧ argv ≠ [] :=
  ⟨fun h ↦ ⟨h.argv_eq, h.argv_ne⟩, fun h ↦ ⟨h.1, h.2, nofun⟩⟩

/-! ### No redirection -/

/-- What the shell makes of a command without operators but `&`, -/
theorem execute_of_none (hbar : bar ∉ front ts) (hin : less ∉ front ts)
    (hout : greater ∉ front ts) :
    execute ts = if ampersand ∈ ts then .executes (ts.take (ts.length - 1)) [] true
      else .executes ts [] false := by
  simp only [execute, scan_eq hbar, lastPlace_eq_none_iff.2 hin, lastPlace_eq_none_iff.2 hout]
  by_cases hamp : ampersand ∈ ts <;> simp [hamp]

/-- which is right unless it drops the last token. -/
theorem sound_iff_of_none (hbar : bar ∉ ts) (hne : ts ≠ []) (hin : less ∉ front ts)
    (hout : greater ∉ front ts) : Sound ts (execute ts) ↔ ¬ DropsLast ts := by
  have hwords : ∀ t ∈ front ts, isOperator t = false := fun t ht ↦
    isOperator_eq_false_iff.2 ⟨ne_of_mem_of_not_mem ht hin, ne_of_mem_of_not_mem ht hout,
      ne_of_mem_of_not_mem ht ampersand_notMem_front⟩
  rw [execute_of_none (notMem_front hbar) hin hout]
  by_cases hamp : ampersand ∈ ts
  · obtain ⟨rest, heq⟩ := exists_eq_front_append hamp
    have htake : ts.takeWhile (!isOperator ·) = front ts :=
      (congrArg (List.takeWhile (!isOperator ·)) heq).trans (takeWhile_append hwords rfl rest)
    have hlen := congrArg List.length heq
    rw [List.length_append, List.length_cons] at hlen
    rw [if_pos hamp]
    show Faithful ts (ts.take (ts.length - 1)) [] ↔ _
    rw [faithful_nil_iff, htake]
    constructor
    · rintro ⟨hargv, hargv_ne⟩ ⟨-, -, -, hnil | hlast⟩
      · exact hargv_ne (hargv.trans hnil)
      · have hcut := congrArg List.length hargv
        rw [List.length_take] at hcut
        omega
    · intro hno
      have hlast : (front ts).length + 1 = ts.length := by
        by_contra hlast
        exact hno ⟨hin, hout, hamp, .inr hlast⟩
      have hargv : ts.take (ts.length - 1) = front ts := by
        rw [← hlast, Nat.add_sub_cancel]
        exact (List.prefix_iff_eq_take.1 (front_isPrefix ts)).symm
      exact ⟨hargv, fun hnil ↦ hno ⟨hin, hout, hamp, .inl (hargv.symm.trans hnil)⟩⟩
  · rw [front_eq_self hamp] at hwords
    rw [if_neg hamp]
    show Faithful ts ts [] ↔ _
    rw [faithful_nil_iff]
    refine ⟨fun _ h ↦ hamp h.2.2.1, fun _ ↦ ⟨?_, hne⟩⟩
    exact (List.takeWhile_eq_self_iff.2 fun t ht ↦ by rw [hwords t ht]; rfl).symm

/-! ### One redirection -/

/-- The arrays of the shell are large enough for the place of an operator. -/
private theorem lt_length_of_lastPlace (h : lastPlace op (front ts) = some i) : i < ts.length := by
  obtain ⟨pre, post, heq, -, rfl⟩ := lastPlace_eq_some_iff.1 h
  have hle := (front_isPrefix ts).length_le
  rw [heq, List.length_append, List.length_cons] at hle
  omega

/-- What the shell makes of a command that redirects its input only, -/
theorem execute_of_in (hbar : bar ∉ front ts) (hlen : ts.length ≤ 100)
    (hin : lastPlace less (front ts) = some i) (hout : greater ∉ front ts) :
    execute ts = if i = 0 then .ignored
      else if i = ts.length - 1 ∨ operands less greater (front ts) ≠ 1 then .refused
      else .executes (ts.take i) [.inp ts[i + 1]?] (decide (ampersand ∈ ts)) := by
  have hlt := lt_length_of_lastPlace hin
  simp only [execute, scan_eq hbar, hin, lastPlace_eq_none_iff.2 hout,
    Nat.min_eq_right (show i ≤ 100 by omega)]
  by_cases hamp : ampersand ∈ ts <;> simp [hamp]

/-- its output only, -/
theorem execute_of_out (hbar : bar ∉ front ts) (hin : less ∉ front ts)
    (hout : lastPlace greater (front ts) = some i) :
    execute ts = if i = 0 then .ignored
      else if i = ts.length - 1 ∨ operands greater less (front ts) ≠ 1 then .refused
      else .executes (ts.take i) [.out ts[i + 1]?] (decide (ampersand ∈ ts)) := by
  simp only [execute, scan_eq hbar, lastPlace_eq_none_iff.2 hin, hout]
  by_cases hamp : ampersand ∈ ts <;> simp [hamp]

/-- or both. -/
theorem execute_of_both {o : ℕ} (hbar : bar ∉ front ts) (hin : lastPlace less (front ts) = some i)
    (hout : lastPlace greater (front ts) = some o) :
    execute ts = if o = 0 ∨ i = 0 then .ignored
      else if o = ts.length - 1 ∨ i = ts.length - 1 ∨ 1 < operands greater less (front ts) ∨
          1 < operands less greater (front ts) then
        if ampersand ∈ ts then .quits else .refused
      else .executes (ts.take (min o i)) [.out ts[o + 1]?, .inp ts[i + 1]?]
        (decide (ampersand ∈ ts)) := by
  simp only [execute, scan_eq hbar, hin, hout]
  by_cases hamp : ampersand ∈ ts <;> simp [hamp]

/-- The last operator and what is in front of and behind it, in the whole command. -/
theorem exists_of_lastPlace (h : lastPlace op (front ts) = some i) :
    ∃ pre post, front ts = pre ++ op :: post ∧ op ∉ post ∧ pre.length = i ∧ ts.take i = pre ∧
      ts[i]? = some op := by
  obtain ⟨pre, post, heq, hpost, rfl⟩ := lastPlace_eq_some_iff.1 h
  obtain ⟨tail, htail⟩ := front_isPrefix ts
  rw [heq, List.append_assoc] at htail
  refine ⟨pre, post, heq, hpost, rfl, ?_, ?_⟩
  · rw [← htail, List.take_left]
  · rw [← htail, List.getElem?_append_right (Nat.le_refl _), Nat.sub_self]
    rfl

/-- What stands behind the operator, if it is not the `&`. -/
theorem head?_of_getElem? {post : List Token} (heq : front ts = pre ++ op :: post)
    (hx : ts[pre.length + 1]? = some x) (hamp : x ≠ ampersand) : post.head? = some x := by
  have hfront : (front ts)[pre.length + 1]? = post.head? := by
    rw [heq, List.getElem?_append_right (Nat.le_add_right _ 1), Nat.add_sub_cancel_left,
      List.getElem?_cons_succ, List.head?_eq_getElem?]
  rw [← hfront]
  by_cases hmem : ampersand ∈ ts
  · obtain ⟨rest, hts⟩ := exists_eq_front_append hmem
    have hlen := congrArg List.length heq
    rw [List.length_append, List.length_cons] at hlen
    rw [hts] at hx
    rcases Nat.lt_or_ge (pre.length + 1) (front ts).length with hlt | hge
    · rwa [List.getElem?_append_left hlt] at hx
    · -- the operator is the last token before the `&`
      have heq' : pre.length + 1 = (front ts).length := by omega
      rw [heq', List.getElem?_append_right (Nat.le_refl _), Nat.sub_self] at hx
      exact absurd (Option.some.inj hx).symm hamp
  · rwa [front_eq_self hmem]

/-- Of two operators at the end the second one is the last. -/
theorem lastPlace_of_doubled (heq : front ts = pre ++ [op, op]) :
    lastPlace op (front ts) = some (pre.length + 1) :=
  lastPlace_eq_some_iff.2 ⟨pre ++ [op], [], by rw [heq, List.append_assoc]; rfl,
    List.not_mem_nil, List.length_append⟩

/-- One operator with a word behind it is executed as the tokens say. -/
theorem faithful_of_word {r : Redirect} (hkinds : Kinds op other) (heq : front ts = pre ++ [op, x])
    (hop : op ∉ pre) (hother : other ∉ front ts) (hx : x ≠ op) (hne : pre ≠ [])
    (hr : r.operator = op) (hpath : r.path = ts[pre.length + 1]?) :
    Faithful ts (ts.take pre.length) [r] := by
  obtain ⟨tail, hts⟩ := front_isPrefix ts
  have hts : ts = pre ++ op :: x :: tail := hts.symm.trans (by rw [heq, List.append_assoc]; rfl)
  have hno : other ∉ pre := fun hmem ↦ hother (heq ▸ List.mem_append_left _ hmem)
  have hmem : x ∈ front ts := by
    rw [heq]
    simp
  have hword : isOperator x = false := hkinds.isOperator_eq_false_iff.2
    ⟨hx, ne_of_mem_of_not_mem hmem hother, ne_of_mem_of_not_mem hmem ampersand_notMem_front⟩
  have hget : ts[pre.length]? = some op := by
    rw [hts, List.getElem?_append_right (Nat.le_refl _), Nat.sub_self]
    rfl
  have hxget : ts[pre.length + 1]? = some x := by
    rw [hts, List.getElem?_append_right (Nat.le_add_right _ 1), Nat.add_sub_cancel_left]
    rfl
  refine ⟨?_, ?_, ?_⟩
  · rw [hts, takeWhile_append (hkinds.forall_words heq hop hno) hkinds.isOperator_left,
      List.take_left]
  · rwa [hts, List.take_left]
  · intro r' hr'
    obtain rfl := List.mem_singleton.1 hr'
    exact ⟨_, x, by rw [hget, hr], hxget, by rw [hpath, hxget], hword⟩

/-- A command with operators of one kind. -/
theorem sound_iff_of_one {b : Bool} {r : Redirect} (hkinds : Kinds op other)
    (hplace : lastPlace op (front ts) = some i) (hother : other ∉ front ts)
    (hr : r.operator = op) (hpath : r.path = ts[i + 1]?)
    (hex : execute ts = if i = 0 then .ignored
      else if i = ts.length - 1 ∨ operands op other (front ts) ≠ 1 then .refused
      else .executes (ts.take i) [r] b) : Sound ts (execute ts) ↔ ¬ Doubled ts := by
  rw [hex]
  constructor
  · rintro hsound ⟨hamp, op', pre, hop', hless, hgreater, heq⟩
    obtain ⟨hop, hno⟩ := hkinds.notMem_iff.1 ⟨hless, hgreater⟩
    obtain rfl : op' = op := by
      rcases hkinds with ⟨rfl, rfl⟩ | ⟨rfl, rfl⟩ <;> rcases hop' with rfl | rfl <;>
        first | rfl | exact absurd (by rw [heq]; simp) hother
    obtain rfl := Option.some.inj (hplace.symm.trans (lastPlace_of_doubled heq))
    obtain ⟨rest, hts⟩ := exists_eq_front_append hamp
    have hts : ts = pre ++ op' :: op' :: ampersand :: rest :=
      hts.trans (by rw [heq, List.append_assoc]; rfl)
    have hlen := congrArg List.length hts
    rw [List.length_append, List.length_cons, List.length_cons, List.length_cons] at hlen
    -- the shell counts one operand, and executes
    have hone : operands op' other (front ts) = 1 :=
      (operands_eq_one_iff hother).2 ⟨pre, op', hop, heq⟩
    rw [if_neg (Nat.succ_ne_zero _), if_neg (by omega)] at hsound
    have hsound : Faithful ts (ts.take (pre.length + 1)) [r] := hsound
    -- with the operator among the arguments
    have hargv : ts.take (pre.length + 1) = pre := by
      rw [hsound.argv_eq, hts]
      exact takeWhile_append (hkinds.forall_words heq hop hno) hkinds.isOperator_left _
    have hcut := congrArg List.length hargv
    rw [List.length_take] at hcut
    omega
  · intro hno
    rcases eq_or_ne i 0 with hzero | hzero
    · rw [if_pos hzero]
      trivial
    by_cases hpass : i = ts.length - 1 ∨ operands op other (front ts) ≠ 1
    · rw [if_neg hzero, if_pos hpass]
      trivial
    rw [if_neg hzero, if_neg hpass]
    show Faithful ts (ts.take i) [r]
    rw [not_or, Classical.not_not] at hpass
    obtain ⟨hlast, hone⟩ := hpass
    obtain ⟨pre, x, hop, heq⟩ := (operands_eq_one_iff hother).1 hone
    have hno_other : other ∉ pre := fun hmem ↦ hother (heq ▸ List.mem_append_left _ hmem)
    rcases eq_or_ne x op with rfl | hx
    · -- the operand is the operator itself: refused if the command ends here
      by_cases hamp : ampersand ∈ ts
      · obtain ⟨hless, hgreater⟩ := hkinds.notMem_iff.2 ⟨hop, hno_other⟩
        exact absurd ⟨hamp, x, pre, hkinds.imp And.left And.left, hless, hgreater, heq⟩ hno
      · obtain rfl := Option.some.inj (hplace.symm.trans (lastPlace_of_doubled heq))
        have hlen := congrArg List.length heq
        rw [front_eq_self hamp, List.length_append, List.length_cons, List.length_singleton] at hlen
        omega
    · have hi : lastPlace op (front ts) = some pre.length :=
        lastPlace_eq_some_iff.2 ⟨pre, [x], heq, by simpa using hx.symm, rfl⟩
      obtain rfl := Option.some.inj (hplace.symm.trans hi)
      have hne : pre ≠ [] := fun hnil ↦ hzero (List.length_eq_zero_iff.2 hnil)
      exact faithful_of_word hkinds heq hop hother hx hne hr hpath

/-! ### Both redirections -/

/-- The shell looks whether there is anything behind an operator. -/
theorem lastPlace_eq_last_iff (h : lastPlace op (front ts) = some i) :
    i = ts.length - 1 ↔ ampersand ∉ ts ∧ ts.getLast? = some op := by
  obtain ⟨pre, post, heq, hpost, rfl⟩ := lastPlace_eq_some_iff.1 h
  by_cases hamp : ampersand ∈ ts
  · obtain ⟨rest, hts⟩ := exists_eq_front_append hamp
    have hlen := congrArg List.length hts
    rw [heq, List.length_append, List.length_append, List.length_cons, List.length_cons] at hlen
    exact iff_of_false (by omega) fun hno ↦ hno.1 hamp
  · rw [front_eq_self hamp] at heq
    have hlen := congrArg List.length heq
    rw [List.length_append, List.length_cons] at hlen
    rw [and_iff_right hamp]
    refine ⟨fun hlast ↦ ?_, fun hlast ↦ ?_⟩
    · obtain rfl : post = [] := List.eq_nil_of_length_eq_zero (by omega)
      rw [heq, List.getLast?_append]
      rfl
    · -- the last token is the operator, so nothing is behind its last place
      rcases List.eq_nil_or_concat post with rfl | ⟨init, t, rfl⟩
      · rw [List.length_nil] at hlen
        omega
      · have ht : ts.getLast? = some t := by
          rw [heq, List.concat_eq_append, ← List.cons_append, ← List.append_assoc]
          exact List.getLast?_concat
        obtain rfl := Option.some.inj (ht.symm.trans hlast)
        exact absurd (by simp) hpost

/-- The checks of the shell on the place of an operator. -/
theorem placed_iff (h : lastPlace op (front ts) = some i) :
    Placed op ts ↔ i ≠ 0 ∧ i ≠ ts.length - 1 := by
  refine and_congr ?_ ?_
  · obtain ⟨pre, post, heq, hpost, rfl⟩ := lastPlace_eq_some_iff.1 h
    rw [heq]
    cases pre with
    | nil => simpa using hpost
    | cons t pre => simp
  · have hlast := not_congr (lastPlace_eq_last_iff h)
    rw [not_and_or, Classical.not_not] at hlast
    exact hlast.symm

/-- A command that is executed faithfully has the proper form. -/
theorem complete_of_faithful {o : ℕ} {opens : List Redirect} (hkinds : Kinds op other)
    (hi : lastPlace op (front ts) = some i) (ho : lastPlace other (front ts) = some o)
    (hlt : i < o) (hfaithful : Faithful ts (ts.take i) opens)
    (hri : ∃ r ∈ opens, r.path = ts[i + 1]?) (hro : ∃ r ∈ opens, r.path = ts[o + 1]?)
    (hin : operands op other (front ts) ≤ 1) (hout : operands other op (front ts) ≤ 1) :
    Complete op other (front ts) := by
  obtain ⟨pre, post, heq, hpost, rfl, htake, -⟩ := exists_of_lastPlace hi
  obtain ⟨pre', post', heq', -, rfl, -, -⟩ := exists_of_lastPlace ho
  have hpath : ∀ k : ℕ, (∃ r ∈ opens, r.path = ts[k]?) →
      ∃ x, ts[k]? = some x ∧ isOperator x = false := by
    rintro k ⟨r, hr, hpath⟩
    obtain ⟨-, x, -, -, hx, hword⟩ := hfaithful.path r hr
    exact ⟨x, hpath.symm.trans hx, hword⟩
  obtain ⟨x, hx, hxword⟩ := hpath _ hri
  obtain ⟨y, hy, hyword⟩ := hpath _ hro
  obtain ⟨hxop, hxother, hxamp⟩ := hkinds.isOperator_eq_false_iff.1 hxword
  obtain ⟨-, -, hyamp⟩ := hkinds.isOperator_eq_false_iff.1 hyword
  obtain ⟨rest, rfl⟩ := List.head?_eq_some_iff.1 (head?_of_getElem? heq hx hxamp)
  obtain ⟨rest', rfl⟩ := List.head?_eq_some_iff.1 (head?_of_getElem? heq' hy hyamp)
  have hwords : ∀ t ∈ pre, isOperator t = false := by
    intro t ht
    rw [← htake, hfaithful.argv_eq] at ht
    simpa using List.mem_takeWhile_imp ht
  have hnotop : ∀ {t}, isOperator t = true → t ∉ pre := by
    intro t ht hmem
    rw [hwords t hmem] at ht
    cases ht
  have hother_ne : op ≠ other := by
    rintro rfl
    rw [Option.some.inj (hi.symm.trans ho)] at hlt
    exact Nat.lt_irrefl _ hlt
  have hpre : other ∉ pre ++ [op, x] := by
    simp [hnotop hkinds.symm.isOperator_left, hother_ne.symm, hxother.symm]
  refine ⟨pre, x, y, htake ▸ hfaithful.argv_ne, hwords, hxword, hyword, ?_⟩
  exact eq_of_operands_le_one heq hpre (hnotop hkinds.isOperator_left) hpost heq' hin hout

/-- A command of the proper form is executed faithfully. -/
theorem Complete.faithful {o : ℕ} {opens : List Redirect} (hkinds : Kinds op other)
    (h : Complete op other (front ts)) (hi : lastPlace op (front ts) = some i)
    (ho : lastPlace other (front ts) = some o)
    (hopens : ∀ r ∈ opens, r.operator = op ∧ r.path = ts[i + 1]? ∨
      r.operator = other ∧ r.path = ts[o + 1]?) :
    i < o ∧ Faithful ts (ts.take i) opens := by
  obtain ⟨pre, x, y, hne, hwords, hx, hy, heq⟩ := h
  have hop_ne : op ≠ other := by rcases hkinds with ⟨rfl, rfl⟩ | ⟨rfl, rfl⟩ <;> decide
  obtain ⟨hxop, hxother, -⟩ := hkinds.isOperator_eq_false_iff.1 hx
  obtain ⟨hyop, hyother, -⟩ := hkinds.isOperator_eq_false_iff.1 hy
  have hi' : lastPlace op (front ts) = some pre.length :=
    lastPlace_eq_some_iff.2 ⟨pre, [x, other, y], heq, by simp [hxop.symm, hop_ne, hyop.symm], rfl⟩
  have ho' : lastPlace other (front ts) = some (pre.length + 2) :=
    lastPlace_eq_some_iff.2 ⟨pre ++ [op, x], [y], by rw [heq, List.append_assoc]; rfl,
      by simp [hyother.symm], List.length_append⟩
  obtain rfl := Option.some.inj (hi.symm.trans hi')
  obtain rfl := Option.some.inj (ho.symm.trans ho')
  obtain ⟨tail, hts⟩ := front_isPrefix ts
  have hts : ts = pre ++ op :: x :: other :: y :: tail :=
    hts.symm.trans (by rw [heq, List.append_assoc]; rfl)
  have hget : ∀ k t, (op :: x :: other :: y :: tail)[k]? = some t →
      ts[pre.length + k]? = some t := by
    intro k t hk
    rw [hts, List.getElem?_append_right (Nat.le_add_right _ _), Nat.add_sub_cancel_left, hk]
  refine ⟨by omega, ?_, ?_, fun r hr ↦ ?_⟩
  · rw [hts, takeWhile_append hwords hkinds.isOperator_left, List.take_left]
  · rw [hts, List.take_left]
    exact hne
  · rcases hopens r hr with ⟨hop, hpath⟩ | ⟨hop, hpath⟩
    · exact ⟨pre.length, x, by rw [hop]; exact hget 0 op rfl, hget 1 x rfl,
        hpath.trans (hget 1 x rfl), hx⟩
    · exact ⟨pre.length + 2, y, by rw [hop]; exact hget 2 other rfl, hget 3 y rfl,
        hpath.trans (hget 3 y rfl), hy⟩

/-- A command with operators of both kinds. -/
theorem sound_iff_of_both {o : ℕ} (hbar : bar ∉ ts) (hi : lastPlace less (front ts) = some i)
    (ho : lastPlace greater (front ts) = some o) : Sound ts (execute ts) ↔ ¬ Tangled ts := by
  rw [execute_of_both (notMem_front hbar) hi ho, Tangled, placed_iff hi, placed_iff ho, crowded_iff,
    crowded_iff]
  by_cases hzero : o = 0 ∨ i = 0
  · rw [if_pos hzero]
    exact iff_of_true trivial fun h ↦ by omega
  by_cases hpass : o = ts.length - 1 ∨ i = ts.length - 1 ∨ 1 < operands greater less (front ts) ∨
      1 < operands less greater (front ts)
  · rw [if_neg hzero, if_pos hpass]
    refine iff_of_true ?_ fun h ↦ by omega
    by_cases hamp : ampersand ∈ ts
    · rw [if_pos hamp]
      trivial
    · rw [if_neg hamp]
      trivial
  rw [if_neg hzero, if_neg hpass]
  show Faithful ts (ts.take (min o i)) [.out ts[o + 1]?, .inp ts[i + 1]?] ↔ _
  have hkinds : Kinds less greater := .inl ⟨rfl, rfl⟩
  have hne : i ≠ o := by
    rintro rfl
    obtain ⟨-, -, -, -, -, -, hless⟩ := exists_of_lastPlace hi
    obtain ⟨-, -, -, -, -, -, hgreater⟩ := exists_of_lastPlace ho
    exact absurd (hless.symm.trans hgreater) (by decide)
  constructor
  · rintro hfaithful ⟨-, -, -, -, hno, hno'⟩
    rcases Nat.lt_or_gt_of_ne hne with hlt | hlt
    · rw [Nat.min_eq_right (Nat.le_of_lt hlt)] at hfaithful
      exact hno (complete_of_faithful hkinds hi ho hlt hfaithful
        ⟨.inp ts[i + 1]?, by simp, rfl⟩ ⟨_, List.mem_cons_self, rfl⟩ (by omega) (by omega))
    · rw [Nat.min_eq_left (Nat.le_of_lt hlt)] at hfaithful
      exact hno' (complete_of_faithful hkinds.symm ho hi hlt hfaithful
        ⟨_, List.mem_cons_self, rfl⟩ ⟨.inp ts[i + 1]?, by simp, rfl⟩ (by omega) (by omega))
  · intro hno
    by_cases hin : Complete less greater (front ts)
    · have hopens : ∀ r ∈ [Redirect.out ts[o + 1]?, .inp ts[i + 1]?],
          r.operator = less ∧ r.path = ts[i + 1]? ∨ r.operator = greater ∧ r.path = ts[o + 1]? := by
        simp [Redirect.operator, Redirect.path]
      obtain ⟨hlt, hfaithful⟩ := hin.faithful hkinds hi ho hopens
      rwa [Nat.min_eq_right (Nat.le_of_lt hlt)]
    · by_cases hout : Complete greater less (front ts)
      · have hopens : ∀ r ∈ [Redirect.out ts[o + 1]?, .inp ts[i + 1]?],
            r.operator = greater ∧ r.path = ts[o + 1]? ∨
              r.operator = less ∧ r.path = ts[i + 1]? := by
          simp [Redirect.operator, Redirect.path]
        obtain ⟨hlt, hfaithful⟩ := hout.faithful hkinds.symm ho hi hopens
        rwa [Nat.min_eq_left (Nat.le_of_lt hlt)]
      · exact absurd ⟨by omega, by omega, by omega, by omega, hin, hout⟩ hno

/-! ### All commands -/

/-- The kinds exclude each other. -/
theorem Doubled.less_mem_iff (h : Doubled ts) : less ∈ front ts ↔ greater ∉ front ts := by
  have hne : less ≠ greater := by decide
  obtain ⟨-, op, pre, rfl | rfl, hless, hgreater, heq⟩ := h
  · simp [heq, hgreater, hne.symm]
  · simp [heq, hless, hne]

/-- Without a `|` the shell does what the command says unless it misreads it. -/
theorem execute_sound_iff (hbar : bar ∉ ts) (hne : ts ≠ []) (hlen : ts.length ≤ 100) :
    Sound ts (execute ts) ↔ ¬ Misread ts := by
  rw [Misread]
  by_cases hin : less ∈ front ts <;> by_cases hout : greater ∈ front ts
  · obtain ⟨i, hi⟩ := exists_lastPlace hin
    obtain ⟨o, ho⟩ := exists_lastPlace hout
    rw [sound_iff_of_both hbar hi ho, or_iff_right fun h ↦ h.1 hin,
      or_iff_right fun h ↦ h.less_mem_iff.1 hin hout]
  · obtain ⟨i, hi⟩ := exists_lastPlace hin
    rw [sound_iff_of_one (.inl ⟨rfl, rfl⟩) hi hout rfl rfl
        (execute_of_in (notMem_front hbar) hlen hi hout),
      or_iff_right fun h ↦ h.1 hin, or_iff_left fun h ↦ hout (List.mem_of_mem_tail h.2.1.1)]
  · obtain ⟨o, ho⟩ := exists_lastPlace hout
    rw [sound_iff_of_one (.inr ⟨rfl, rfl⟩) ho hin rfl rfl
        (execute_of_out (notMem_front hbar) hin ho),
      or_iff_right fun h ↦ h.2.1 hout, or_iff_left fun h ↦ hin (List.mem_of_mem_tail h.1.1)]
  · rw [sound_iff_of_none hbar hne hin hout, or_iff_left]
    rintro (h | h)
    · exact hin (h.less_mem_iff.2 hout)
    · exact hin (List.mem_of_mem_tail h.1.1)

/-- **When the shell reads a command correctly**: exactly if it is of none of the three kinds. -/
theorem respond_sound_iff {input : List UInt8} (hts : command input = some ts) (hbar : bar ∉ ts)
    (hcommand : isBuiltin ts = false) : Sound ts (respond input) ↔ ¬ Misread ts := by
  have hlen := length_le_of_command hts
  rw [respond, hts]
  show Sound ts (if isBuiltin ts then .builtin ts else execute ts) ↔ _
  rw [hcommand]
  exact execute_sound_iff hbar (ne_nil_of_command hts) (by omega)

/-- The line `ls & foo`. -/
def lsFoo : List UInt8 := [108, 115, 32, 38, 32, 102, 111, 111, 10]

/-- The shell removes `foo` from it and executes `ls &`. -/
theorem lsFoo_not_sound : ∃ ts, command lsFoo = some ts ∧ bar ∉ ts ∧ isBuiltin ts = false ∧
    ¬ Sound ts (respond lsFoo) := by
  refine ⟨[[108, 115], ampersand, [102, 111, 111]], by decide +kernel, by decide, by decide, ?_⟩
  have hrespond : respond lsFoo = .executes [[108, 115], ampersand] [] true := by decide +kernel
  rw [hrespond]
  exact fun h ↦ absurd h.argv_eq (by decide)

/-- The line `ls < foo`. -/
theorem lsIn_sound_iff :
    Sound [[108, 115], less, [102, 111, 111]]
        (respond [108, 115, 32, 60, 32, 102, 111, 111, 10]) ↔
      ¬ Misread [[108, 115], less, [102, 111, 111]] :=
  respond_sound_iff (by decide +kernel) (by decide) (by decide)

end Mysh
