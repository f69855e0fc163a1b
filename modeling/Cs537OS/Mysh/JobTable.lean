import Cs537OS.Mysh.Jobs
import Mathlib.Data.List.Nodup
import Mathlib.Tactic.SplitIfs

/-!
# When the job table is right

Five things go wrong with the table:

* compaction leaves a copy of every entry that it moves, and the next scan takes the copy for a job
  of its own;
* children that have terminated are not waited for, and a table full of them takes no new job;
* a free entry holds the id of `init`, an old entry one that another process may have by now, and
  whether `kill` succeeds for them is all that `exit` asks;
* in one of the branches a failed `fork` is recorded, and `kill(-1,..)` is for all processes;
* in another one the child is not recorded.

`Harmless` excludes them step by step. In the runs that are left the first `processnum` entries are
different jobs, among them every background child that has not been waited for (`Inv`).
-/

namespace Mysh.Shell

variable {s t : Shell} {kill : ℕ → Bool} {p : ℤ} {c : Child}

/-- `kill` fails for `init`, and for jobs that have been waited for: no other process has their
id. -/
def KillFails (s : Shell) (kill : ℕ → Bool) : Prop :=
  ∀ i < 20, s.processtable i = 1 ∨
    s.processtable i ∈ s.started ∧ ¬ s.IsChild (s.processtable i) → kill i = false

/-- No two entries, in use or not, hold the id of one child. -/
def NoCopies (s : Shell) : Prop :=
  ∀ i < 20, ∀ j < 20, s.IsChild (s.processtable i) → s.processtable i = s.processtable j → i = j

/-- The steps that keep the table right. -/
def Harmless (s : Shell) : JobAct → Prop
  | .prompt kill => s.KillFails kill ∧ s.NoCopies
  | .exit kill => s.KillFails kill
  | .background branch childid =>
    if childid = -1 then branch ≠ .both else branch ≠ .output ∧ s.processnum < 20
  | _ => True

/-- At most twenty background children run at once. -/
def AtMostTwenty (s : Shell) : JobAct → Prop
  | .background _ _ => (s.children.filter fun c ↦ c.background && c.running).length < 20
  | _ => True

/-- What is expected of the table. -/
structure JobsOk (s : Shell) : Prop where
  /-- The live prefix holds no id twice. -/
  distinct : ((List.range s.processnum).map s.processtable).Nodup
  /-- `exit` sends `SIGTERM` to every background child that runs. -/
  signals : s.phase = .exited → ∀ c ∈ s.children, c.background = true → c.running = true →
    c.pid ∈ s.signalled
  /-- It sends it to no process that is not a child. -/
  own : s.phase = .exited → ∀ p ∈ s.signalled, s.IsChild p

/-- The table and the children fit together. -/
structure Inv (s : Shell) : Prop where
  num_le : s.processnum ≤ 20
  entries : ∀ i < 20, s.processtable i = 1 ∨ s.processtable i ∈ s.started
  distinct : ((List.range s.processnum).map s.processtable).Nodup
  recorded : ∀ c ∈ s.children, c.background = true → ∃ i < s.processnum, s.processtable i = c.pid
  /-- Right after a scan every entry of the prefix is a child. -/
  live : s.phase = .line → ∀ i < s.processnum, s.IsChild (s.processtable i)
  signals : s.phase = .exited → ∀ c ∈ s.children, c.background = true → c.pid ∈ s.signalled
  own : s.phase = .exited → ∀ p ∈ s.signalled, s.IsChild p

/-- What `kill` finds is what has not been waited for. -/
theorem Inv.kill_iff (h : s.Inv) (hfinds : s.Finds kill) (hfails : s.KillFails kill) {i : ℕ}
    (hi : i < 20) : kill i = true ↔ s.IsChild (s.processtable i) := by
  refine ⟨fun hkill ↦ ?_, fun hchild ↦ hfinds i hi (.inl hchild)⟩
  by_contra hno
  have hfail : kill i = false := by
    refine hfails i hi ?_
    rcases h.entries i hi with hone | hmem
    · exact .inl hone
    · exact .inr ⟨hmem, hno⟩
  rw [hfail] at hkill
  cases hkill

/-- A step that does not touch the table. -/
theorem Inv.of_table (h : s.Inv) (htable : t.processtable = s.processtable)
    (hnum : t.processnum = s.processnum) (hstarted : t.started = s.started)
    (hchildren : ∀ c ∈ t.children, c.background = true →
      ∃ c' ∈ s.children, c'.background = true ∧ c'.pid = c.pid)
    (hline : t.phase = .line → s.phase = .line ∧ ∀ p, s.IsChild p → t.IsChild p)
    (hexited : t.phase ≠ .exited) : t.Inv := by
  refine ⟨hnum ▸ h.num_le, fun i hi ↦ ?_, ?_, fun c hc hback ↦ ?_, fun hphase i hi ↦ ?_,
    fun hphase ↦ absurd hphase hexited, fun hphase ↦ absurd hphase hexited⟩
  · rw [htable, hstarted]
    exact h.entries i hi
  · rw [htable, hnum]
    exact h.distinct
  · obtain ⟨c', hc', hback', hpid⟩ := hchildren c hc hback
    rw [htable, hnum, ← hpid]
    exact h.recorded c' hc' hback'
  · obtain ⟨hphase, hkeep⟩ := hline hphase
    rw [htable]
    rw [hnum] at hi
    exact hkeep _ (h.live hphase i hi)

/-- The scan. -/
theorem Inv.scan (h : s.Inv) (hfinds : s.Finds kill) (hfails : s.KillFails kill)
    (hcopies : s.NoCopies) : (s.scan kill).Inv := by
  have hkept : ∀ p, (∃ i < (s.scan kill).processnum, (s.scan kill).processtable i = p) ↔
      ∃ i < 20, kill i = true ∧ s.processtable i = p := fun p ↦ Compaction.mem_prefix_iff
  refine ⟨Compaction.snd_compact_le 20, fun i hi ↦ ?_, ?_, fun c hc hback ↦ ?_,
    fun _ i hi ↦ ?_, nofun, nofun⟩
  · -- a kept entry, or an old one
    rcases Nat.lt_or_ge i (s.scan kill).processnum with hlt | hge
    · obtain ⟨j, hj, -, heq⟩ := (hkept _).1 ⟨i, hlt, rfl⟩
      rw [← heq]
      exact h.entries j hj
    · rw [show (s.scan kill).processtable i = s.processtable i from Compaction.compact_of_le hge]
      exact h.entries i hi
  · show ((List.range (Compaction.compact kill s.processtable 20).2).map
      (Compaction.compact kill s.processtable 20).1).Nodup
    rw [Compaction.map_compact]
    refine List.Nodup.map_on (fun i hi j hj heq ↦ ?_) (List.nodup_range.filter _)
    obtain ⟨hi, hkill⟩ := List.mem_filter.1 hi
    obtain ⟨hj, -⟩ := List.mem_filter.1 hj
    rw [List.mem_range] at hi hj
    exact hcopies i hi j hj ((h.kill_iff hfinds hfails hi).1 hkill) heq
  · obtain ⟨i, hi, heq⟩ := h.recorded c hc hback
    have hi : i < 20 := Nat.lt_of_lt_of_le hi h.num_le
    exact (hkept _).2 ⟨i, hi, (h.kill_iff hfinds hfails hi).2 (heq ▸ ⟨c, hc, rfl⟩), heq⟩
  · obtain ⟨j, hj, hkill, heq⟩ := (hkept _).1 ⟨i, hi, rfl⟩
    rw [← heq]
    exact (h.kill_iff hfinds hfails hj).1 hkill

/-- A `fork` that fails leaves no record in the branches that look at it. -/
theorem recordIn_of_failed {branch : Branch} (hb : branch ≠ .both) :
    s.recordIn branch (-1) = s := by
  cases branch with
  | plain => rfl
  | input => rfl
  | output => rfl
  | both => exact absurd rfl hb

/-- After a `fork` that succeeds every branch but the one for output records the child. -/
theorem recordIn_of_ne {branch : Branch} {childid : ℤ} (hb : branch ≠ .output)
    (hne : childid ≠ -1) : s.recordIn branch childid = s.record childid := by
  cases branch with
  | plain => exact if_neg hne
  | input => exact if_neg hne
  | output => exact absurd rfl hb
  | both => rfl

/-- A command in the background. -/
theorem Inv.launch {branch : Branch} {childid : ℤ} (h : s.Inv) (hline : s.phase = .line)
    (hfresh : childid = -1 ∨ s.Fresh childid)
    (hharmless : s.Harmless (.background branch childid)) : (s.launch branch childid).Inv := by
  have hharmless : if childid = -1 then branch ≠ .both else branch ≠ .output ∧ s.processnum < 20 :=
    hharmless
  rw [Shell.launch]
  split_ifs at hharmless ⊢ with hfail
  · rw [hfail, recordIn_of_failed hharmless]
    exact h.of_table rfl rfl rfl (fun c hc hback ↦ ⟨c, hc, hback, rfl⟩) nofun nofun
  · obtain ⟨hpos, hnew⟩ := hfresh.resolve_left hfail
    obtain ⟨hb, hharmless⟩ := hharmless
    rw [recordIn_of_ne hb hfail, record, if_pos hharmless]
    have hold : ∀ i < s.processnum,
        Function.update s.processtable s.processnum childid i = s.processtable i :=
      fun i hi ↦ Function.update_of_ne (Nat.ne_of_lt hi) ..
    refine ⟨hharmless, fun i hi ↦ ?_, ?_, fun c hc hback ↦ ?_, nofun, nofun, nofun⟩
    · show Function.update s.processtable s.processnum childid i = 1 ∨
        Function.update s.processtable s.processnum childid i ∈ childid :: s.started
      rcases eq_or_ne i s.processnum with rfl | hne
      · rw [Function.update_self]
        exact .inr List.mem_cons_self
      · rw [Function.update_of_ne hne]
        exact (h.entries i hi).imp id (List.mem_cons_of_mem _)
    · show ((List.range (s.processnum + 1)).map
        (Function.update s.processtable s.processnum childid)).Nodup
      rw [List.range_succ, List.map_append,
        List.map_congr_left fun i hi ↦ hold i (List.mem_range.1 hi)]
      refine List.nodup_append.2 ⟨h.distinct, List.nodup_singleton _, fun p hp q hq ↦ ?_⟩
      -- the entries of the prefix are children, the new process was none
      obtain ⟨i, hi, rfl⟩ := List.mem_map.1 hp
      rw [List.mem_singleton.1 hq, Function.update_self]
      rintro rfl
      exact hnew (h.live hline i (List.mem_range.1 hi))
    · rcases List.mem_cons.1 hc with rfl | hc
      · exact ⟨s.processnum, Nat.lt_succ_self _, Function.update_self ..⟩
      · obtain ⟨i, hi, heq⟩ := h.recorded c hc hback
        exact ⟨i, Nat.lt_succ_of_lt hi, (hold i hi).trans heq⟩

/-- `exit`. -/
theorem Inv.exit (h : s.Inv) (hfinds : s.Finds kill) (hfails : s.KillFails kill) :
    Inv { s with
      signalled := ((List.range 20).filter kill).map s.processtable, phase := .exited } := by
  have hmem : ∀ p, p ∈ ((List.range 20).filter kill).map s.processtable ↔
      ∃ i < 20, kill i = true ∧ s.processtable i = p := by
    intro p
    simp [and_assoc]
  refine ⟨h.num_le, h.entries, h.distinct, h.recorded, nofun, fun _ c hc hback ↦ ?_,
    fun _ p hp ↦ ?_⟩
  · obtain ⟨i, hi, heq⟩ := h.recorded c hc hback
    have hi : i < 20 := Nat.lt_of_lt_of_le hi h.num_le
    exact (hmem _).2 ⟨i, hi, (h.kill_iff hfinds hfails hi).2 (heq ▸ ⟨c, hc, rfl⟩), heq⟩
  · obtain ⟨i, hi, hkill, heq⟩ := (hmem p).1 hp
    exact heq ▸ (h.kill_iff hfinds hfails hi).1 hkill

/-- The forks of a pipeline. Its children are not in the background. -/
theorem Inv.pipe {firstson secondson : ℤ} (h : s.Inv) : (s.pipe firstson secondson).Inv := by
  rw [Shell.pipe]
  split_ifs
  · exact h.of_table rfl rfl rfl (fun c hc hback ↦ ⟨c, hc, hback, rfl⟩) nofun nofun
  · refine h.of_table rfl rfl rfl (fun c hc hback ↦ ?_) nofun nofun
    rcases List.mem_cons.1 hc with rfl | hc
    · cases hback
    · exact ⟨c, hc, hback, rfl⟩
  · refine h.of_table rfl rfl rfl (fun c hc hback ↦ ?_) nofun nofun
    rcases List.mem_cons.1 hc with rfl | hc
    · cases hback
    rcases List.mem_cons.1 hc with rfl | hc
    · cases hback
    · exact ⟨c, hc, hback, rfl⟩

/-- A child terminates. It has not been waited for. -/
theorem Inv.terminate (h : s.Inv) (hphase : s.phase ≠ .exited) :
    Inv { s with
      children := s.children.map fun c ↦
        if c.pid = p then { c with running := false } else c } := by
  have hsame : ∀ c : Child,
      (if c.pid = p then { c with running := false } else c).pid = c.pid ∧
        (if c.pid = p then { c with running := false } else c).background = c.background := by
    intro c
    split <;> exact ⟨rfl, rfl⟩
  refine h.of_table rfl rfl rfl (fun c hc hback ↦ ?_) (fun hline ↦ ⟨hline, ?_⟩) hphase
  · obtain ⟨c', hc', rfl⟩ := List.mem_map.1 hc
    obtain ⟨hpid, hb⟩ := hsame c'
    exact ⟨c', hc', hb.symm.trans hback, hpid.symm⟩
  · rintro q ⟨c, hc, rfl⟩
    exact ⟨_, List.mem_map.2 ⟨c, hc, rfl⟩, (hsame c).1⟩

/-- A harmless step keeps the invariant. -/
theorem Inv.step {a : JobAct} (h : s.Inv) (ha : s.Harmless a) (ht : s.step a = .ok t) :
    t.Inv := by
  cases a with
  | prompt kill =>
    rw [Shell.step] at ht
    split_ifs at ht with hguard
    obtain rfl := Except.ok.inj ht
    exact h.scan hguard.2 ha.1 ha.2
  | command =>
    rw [Shell.step] at ht
    split_ifs at ht
    obtain rfl := Except.ok.inj ht
    exact h.of_table rfl rfl rfl (fun c hc hback ↦ ⟨c, hc, hback, rfl⟩) nofun nofun
  | waitAny reid =>
    rw [Shell.step] at ht
    split_ifs at ht
    obtain rfl := Except.ok.inj ht
    exact h.of_table rfl rfl rfl
      (fun c hc hback ↦ ⟨c, List.mem_of_mem_filter hc, hback, rfl⟩) nofun nofun
  | quit =>
    rw [Shell.step] at ht
    split_ifs at ht
    obtain rfl := Except.ok.inj ht
    exact h.of_table rfl rfl rfl (fun c hc hback ↦ ⟨c, hc, hback, rfl⟩) nofun nofun
  | background branch childid =>
    rw [Shell.step] at ht
    split_ifs at ht with hguard
    obtain rfl := Except.ok.inj ht
    exact h.launch hguard.1 hguard.2 ha
  | pipeline firstson secondson =>
    rw [Shell.step] at ht
    split_ifs at ht
    obtain rfl := Except.ok.inj ht
    exact h.pipe
  | reap reid exited =>
    rw [Shell.step] at ht
    split at ht
    next secondson hphase =>
      split_ifs at ht with hguard hlast
      all_goals
        obtain rfl := Except.ok.inj ht
        exact h.of_table rfl rfl rfl
          (fun c hc hback ↦ ⟨c, List.mem_of_mem_filter hc, hback, rfl⟩) nofun nofun
    next => cases ht
  | noChild =>
    rw [Shell.step] at ht
    split at ht
    next =>
      split_ifs at ht
      obtain rfl := Except.ok.inj ht
      exact h.of_table rfl rfl rfl (fun c hc hback ↦ ⟨c, hc, hback, rfl⟩) nofun nofun
    next => cases ht
  | terminate pid =>
    rw [Shell.step] at ht
    split_ifs at ht with hguard
    obtain rfl := Except.ok.inj ht
    exact h.terminate hguard.1
  | exit kill =>
    rw [Shell.step] at ht
    split_ifs at ht with hguard
    obtain rfl := Except.ok.inj ht
    exact h.exit hguard.2 ha

/-- The invariant holds at the start, -/
theorem inv_of_starts (h : s.Starts) : s.Inv := by
  obtain ⟨htable, hnum, hchildren, hphase, hstarted, hsignalled⟩ := h
  refine ⟨by omega, fun i _ ↦ .inl (htable i), ?_, ?_, ?_, ?_, ?_⟩
  · rw [hnum]
    exact List.nodup_nil
  · rw [hchildren]
    exact fun c hc ↦ absurd hc List.not_mem_nil
  · rw [hphase]
    exact nofun
  · rw [hphase]
    exact nofun
  · rw [hphase]
    exact nofun

/-- and in every state of a run with harmless steps only. -/
theorem inv_of_reachable (h : (jobs.restrict Harmless).Reachable s) : s.Inv :=
  h.invariant (fun _ ↦ inv_of_starts) fun _ _ _ hinv hstep ↦ hinv.step hstep.1 hstep.2

instance (s : Shell) (kill : ℕ → Bool) : Decidable (s.KillFails kill) :=
  inferInstanceAs (Decidable (∀ i < 20, _))

instance (s : Shell) : Decidable s.NoCopies :=
  inferInstanceAs (Decidable (∀ i < 20, ∀ j < 20, _))

instance (s : Shell) (a : JobAct) : Decidable (s.Harmless a) :=
  match a with
  | .prompt _ => inferInstanceAs (Decidable (KillFails _ _ ∧ NoCopies _))
  | .exit _ => inferInstanceAs (Decidable (KillFails _ _))
  | .background branch childid => inferInstanceAs
    (Decidable (if childid = -1 then branch ≠ .both else branch ≠ .output ∧ s.processnum < 20))
  | .command | .waitAny _ | .quit | .pipeline _ _ | .reap _ _ | .noChild | .terminate _ =>
    isTrue trivial

instance (s : Shell) (a : JobAct) : Decidable (s.AtMostTwenty a) :=
  match a with
  | .background _ _ => inferInstanceAs (Decidable (_ < _))
  | .prompt _ | .exit _ | .command | .waitAny _ | .quit | .pipeline _ _ | .reap _ _ | .noChild
  | .terminate _ => isTrue trivial

/-- A shell that has just been started. -/
def new : Shell where
  processtable _ := 1
  processnum := 0
  children := []
  phase := .prompt
  started := []
  signalled := []

theorem new_starts : new.Starts := ⟨fun _ ↦ rfl, rfl, rfl, rfl, rfl, rfl⟩

/-- Two jobs, and `exit`. -/
def twoJobs : List JobAct :=
  [.prompt (fun _ ↦ false), .background .plain 10, .prompt (· < 1), .background .both 11,
    .terminate 10, .prompt (· < 2), .exit (· < 2)]

/-- The first of two jobs is waited for by a pipeline. -/
def copiedJob : List JobAct :=
  [.prompt (fun _ ↦ false), .background .plain 10, .prompt (· < 1), .background .plain 11,
    .terminate 10, .prompt (· < 2), .pipeline 12 13, .terminate 12, .terminate 13, .reap 10 true,
    .reap 12 true, .reap 13 true, .prompt (· == 1), .command, .prompt (· < 2), .exit (· < 2)]

end Mysh.Shell
