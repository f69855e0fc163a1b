import Cs537OS.Threads.Family

/-!
# Joining threads

What `clone`, `join` and `wait` have returned, against the table. `Story` says what the record
tells of the process or thread in an entry, by what it is: an EMBRYO is not mentioned, a thread of
`p` was cloned with the stack that the entry shows and has not been joined or waited for, and any
other process was not cloned. `Accounts` says this of all entries, and that every thread that was
cloned is joined or in the table.

* `joinsRight_of_reachable` — in every run in which the process of slot `p` is alone with its
  threads (`Orders`), and `fork` has set its count in time (`ResetsInTime`), `count_thread` is the
  number of threads of `p`, `join` returns each thread once, with its stack and after it has exited,
  `wait` returns no thread, and `join` fails when all threads are joined and not before;
* `lateReset_count` — a child may clone before `fork` has set its count, which then is wrong.
-/

open Xv6

namespace Threads

open Kernel

variable {k k' : Kernel} {h : List Event} {a : Action} {es : List Event} {p q i np x : Slot}

/-- What the record says of the process or thread in entry `i`. -/
structure Story (p : Slot) (k : Kernel) (h : List Event) (i : Slot) : Prop where
  embryo : (k.ptable i).state = .embryo → ∀ e ∈ h, e.pid ≠ (k.ptable i).pid
  joined : ∀ q stack, Event.joined q (k.ptable i).pid stack ∉ h
  waited : ∀ q, Event.waited q (k.ptable i).pid ∉ h
  exited : (k.ptable i).state = .zombie → Event.exited (k.ptable i).pid ∈ h
  thread : k.Joined p i → (k.ptable i).state ≠ .embryo →
    Event.cloned p (k.ptable i).pid (k.ptable i).stack ∈ h ∧
      ∀ q, Event.forked q (k.ptable i).pid ∉ h
  other : ¬ k.Joined p i → ∀ q stack, Event.cloned q (k.ptable i).pid stack ∉ h

/-- The record agrees with the table. -/
structure Accounts (p : Slot) (k : Kernel) (h : List Event) : Prop where
  nextpid : 0 < k.nextpid
  pid : ∀ i, (k.ptable i).state ≠ .unused → 0 < (k.ptable i).pid ∧ (k.ptable i).pid < k.nextpid
  pid_inj : ∀ i j, (k.ptable i).state ≠ .unused → (k.ptable j).state ≠ .unused →
    (k.ptable i).pid = (k.ptable j).pid → i = j
  past : ∀ e ∈ h, e.pid < k.nextpid
  story : ∀ i, (k.ptable i).state ≠ .unused → Story p k h i
  /-- A thread that was cloned has been joined, or is in the table. -/
  unjoined : ∀ q pid stack, Event.cloned q pid stack ∈ h →
    q = p ∧ ((∃ stack', Event.joined p pid stack' ∈ h) ∨ ∃ i, k.Joined p i ∧ (k.ptable i).pid = pid)
  /-- A pid is that of one call of `clone`. -/
  once : ∀ q q' pid stack stack', Event.cloned q pid stack ∈ h → Event.cloned q' pid stack' ∈ h →
    stack = stack'

/-- New events about other processes do not change the story. -/
theorem mem_append_iff_of_pid {e : Event} (hes : ∀ e' ∈ es, e'.pid ≠ e.pid) :
    e ∈ es ++ h ↔ e ∈ h := by
  rw [List.mem_append]
  exact or_iff_right fun he ↦ hes e he rfl

/-- An event about a new pid is in no older record. -/
theorem notMem_append_of_fresh {e e' : Event} (hne : e ≠ e') (hfresh : ∀ e' ∈ h, e'.pid ≠ e.pid) :
    e ∉ [e'] ++ h := by
  rw [List.singleton_append, List.mem_cons, not_or]
  exact ⟨hne, fun he ↦ hfresh e he rfl⟩

/-- The story of an entry that has not changed. -/
theorem Story.of_alike (hi : Story p k h i) (halike : Alike (k.ptable i) (k'.ptable i))
    (hjoined : k'.Joined p i ↔ k.Joined p i) (hes : ∀ e ∈ es, e.pid ≠ (k.ptable i).pid) :
    Story p k' (es ++ h) i := by
  have hmem : ∀ e : Event, e.pid = (k.ptable i).pid → (e ∈ es ++ h ↔ e ∈ h) := fun e he ↦
    mem_append_iff_of_pid fun e' he' ↦ he ▸ hes e' he'
  refine ⟨fun hembryo e he ↦ ?_, fun q stack ↦ ?_, fun q ↦ ?_, fun hzombie ↦ ?_,
    fun hj hmade ↦ ?_, fun hj q stack ↦ ?_⟩ <;> rw [halike.pid]
  · rcases List.mem_append.1 he with he | he
    · exact hes e he
    · exact hi.embryo (halike.embryo.1 hembryo) e he
  · exact (hmem _ rfl).not.2 (hi.joined q stack)
  · exact (hmem _ rfl).not.2 (hi.waited q)
  · exact (hmem _ rfl).2 (hi.exited (halike.zombie.1 hzombie))
  · rw [halike.stack]
    have hthread := hi.thread (hjoined.1 hj) (mt halike.embryo.2 hmade)
    exact ⟨(hmem _ rfl).2 hthread.1, fun q ↦ (hmem _ rfl).not.2 (hthread.2 q)⟩
  · exact (hmem _ rfl).not.2 (hi.other (mt hjoined.2 hj) q stack)

/-- An EMBRYO of which the record does not speak. -/
theorem Story.of_embryo (hnew : (k.ptable x).state = .embryo)
    (hfresh : ∀ e ∈ h, e.pid ≠ (k.ptable x).pid) : Story p k h x := by
  refine ⟨fun _ ↦ hfresh, fun q stack he ↦ hfresh _ he rfl, fun q he ↦ hfresh _ he rfl,
    fun hzombie ↦ ?_, fun _ hmade ↦ absurd hnew hmade, fun _ q stack he ↦ hfresh _ he rfl⟩
  rw [hnew] at hzombie
  cases hzombie

/-- The story of an entry that has just become RUNNABLE: the record has one event about it, which
says how. -/
theorem Story.start {e : Event} (hnew : (k'.ptable x).state = .runnable)
    (hfresh : ∀ e ∈ h, e.pid ≠ (k'.ptable x).pid)
    (hjoin : ∀ q stack, e ≠ .joined q (k'.ptable x).pid stack)
    (hwait : ∀ q, e ≠ .waited q (k'.ptable x).pid)
    (hthread : k'.Joined p x → e = .cloned p (k'.ptable x).pid (k'.ptable x).stack)
    (hother : ¬ k'.Joined p x → ∀ q stack, e ≠ .cloned q (k'.ptable x).pid stack) :
    Story p k' ([e] ++ h) x := by
  refine ⟨fun hembryo ↦ ?_, fun q stack ↦ notMem_append_of_fresh (hjoin q stack).symm hfresh,
    fun q ↦ notMem_append_of_fresh (hwait q).symm hfresh, fun hzombie ↦ ?_, fun hj _ ↦ ?_,
    fun hj q stack ↦ notMem_append_of_fresh (hother hj q stack).symm hfresh⟩
  · rw [hembryo] at hnew
    cases hnew
  · rw [hnew] at hzombie
    cases hzombie
  · obtain rfl := hthread hj
    exact ⟨List.mem_append_left _ List.mem_cons_self,
      fun q ↦ notMem_append_of_fresh (by simp) hfresh⟩

/-- An exit says nothing of what else has happened. -/
theorem mem_exited_append {e : Event} {pid : ℤ} (he : e ≠ .exited pid) :
    e ∈ [Event.exited pid] ++ h ↔ e ∈ h := by
  rw [List.singleton_append, List.mem_cons]
  exact or_iff_right he

/-- The story of a process that exits. -/
theorem Story.exit (hi : Story p k h x) (hold : k.Running x) (hnew : (k'.ptable x).state = .zombie)
    (hpid : (k'.ptable x).pid = (k.ptable x).pid)
    (hstack : (k'.ptable x).stack = (k.ptable x).stack)
    (hjoined : k'.Joined p x ↔ k.Joined p x) :
    Story p k' ([Event.exited (k.ptable x).pid] ++ h) x := by
  refine ⟨fun hembryo ↦ ?_, fun r stack ↦ ?_, fun r ↦ ?_, fun _ ↦ ?_, fun hj _ ↦ ?_,
    fun hj r stack ↦ ?_⟩
  · rw [hembryo] at hnew
    cases hnew
  · rw [hpid, mem_exited_append (by simp)]
    exact hi.joined r stack
  · rw [hpid, mem_exited_append (by simp)]
    exact hi.waited r
  · rw [hpid]
    exact List.mem_append_left _ List.mem_cons_self
  · have hthread := hi.thread (hjoined.1 hj) (by rw [hold]; decide)
    rw [hpid, hstack, mem_exited_append (by simp)]
    refine ⟨hthread.1, fun r ↦ ?_⟩
    rw [mem_exited_append (by simp)]
    exact hthread.2 r
  · rw [hpid, mem_exited_append (by simp)]
    exact hi.other (mt hjoined.2 hj) r stack

/-- One entry changes, and the new events are about the process that was in it. -/
theorem Accounts.update (hk : Accounts p k h) (hfamily : Family p k) (x : Slot)
    (hnext : k.nextpid ≤ k'.nextpid)
    (hes : ∀ e ∈ es, (k.ptable x).state ≠ .unused ∧ e.pid = (k.ptable x).pid)
    (hrest : ∀ i, i ≠ x → Alike (k.ptable i) (k'.ptable i) ∧ (k'.Joined p i ↔ k.Joined p i))
    (hpid : (k'.ptable x).state ≠ .unused →
      (k.ptable x).state ≠ .unused ∧ (k'.ptable x).pid = (k.ptable x).pid ∨
        (k'.ptable x).pid = k.nextpid ∧ k.nextpid < k'.nextpid)
    (hstory : (k'.ptable x).state ≠ .unused → Story p k' (es ++ h) x)
    (hthread : ∀ q stack, Event.cloned q (k.ptable x).pid stack ∈ es ++ h →
      (k.ptable x).state ≠ .unused → q = p ∧
        ((∃ stack', Event.joined p (k.ptable x).pid stack' ∈ es ++ h) ∨
          k'.Joined p x ∧ (k'.ptable x).pid = (k.ptable x).pid))
    (honce : ∀ q q' stack stack', Event.cloned q (k.ptable x).pid stack ∈ es →
      Event.cloned q' (k.ptable x).pid stack' ∈ es ++ h → stack = stack') :
    Accounts p k' (es ++ h) := by
  have hold : ∀ i, i ≠ x → (k'.ptable i).state ≠ .unused → (k.ptable i).state ≠ .unused :=
    fun i hi ↦ mt (hrest i hi).1.unused.2
  have hother : ∀ i, i ≠ x → (k.ptable i).state ≠ .unused → ∀ e ∈ es, e.pid ≠ (k.ptable i).pid := by
    intro i hi hocc e he heq
    obtain ⟨hx, hepid⟩ := hes e he
    exact hi (hk.pid_inj i x hocc hx (heq.symm.trans hepid))
  -- a pid that `x` has kept is still its own, and a new one is larger than all others
  have hlt : ∀ i, i ≠ x → (k'.ptable i).state ≠ .unused → (k'.ptable i).pid ≠ (k'.ptable x).pid ∨
      (k'.ptable x).state = .unused := by
    intro i hi hocc
    by_cases hx : (k'.ptable x).state = .unused
    · exact .inr hx
    · left
      intro heq
      rw [(hrest i hi).1.pid] at heq
      rcases hpid hx with ⟨hxocc, hxpid⟩ | ⟨hxpid, -⟩
      · exact hi (hk.pid_inj i x (hold i hi hocc) hxocc (heq.trans hxpid))
      · have := (hk.pid i (hold i hi hocc)).2
        omega
  refine ⟨lt_of_lt_of_le hk.nextpid hnext, fun i hocc ↦ ?_, fun i j hocc hocc' heq ↦ ?_,
    fun e he ↦ ?_, fun i hocc ↦ ?_, fun q pid stack he ↦ ?_, fun q q' pid stack stack' he he' ↦ ?_⟩
  · by_cases hi : i = x
    · subst hi
      have hpos := hk.nextpid
      rcases hpid hocc with ⟨hxocc, hxpid⟩ | ⟨hxpid, hless⟩
      · have := hk.pid i hxocc
        omega
      · omega
    · have := hk.pid i (hold i hi hocc)
      rw [(hrest i hi).1.pid]
      omega
  · by_cases hi : i = x <;> by_cases hj : j = x
    · rw [hi, hj]
    · rw [hi] at hocc heq
      exact absurd heq.symm ((hlt j hj hocc').resolve_right hocc)
    · rw [hj] at hocc' heq
      exact absurd heq ((hlt i hi hocc).resolve_right hocc')
    · rw [(hrest i hi).1.pid, (hrest j hj).1.pid] at heq
      exact hk.pid_inj i j (hold i hi hocc) (hold j hj hocc') heq
  · rcases List.mem_append.1 he with he | he
    · obtain ⟨hxocc, hepid⟩ := hes e he
      have := (hk.pid x hxocc).2
      omega
    · exact lt_of_lt_of_le (hk.past e he) hnext
  · by_cases hi : i = x
    · exact hi ▸ hstory (hi ▸ hocc)
    · exact (hk.story i (hold i hi hocc)).of_alike (hrest i hi).1 (hrest i hi).2
        (hother i hi (hold i hi hocc))
  · by_cases hx : (k.ptable x).state ≠ .unused ∧ pid = (k.ptable x).pid
    · obtain ⟨hxocc, rfl⟩ := hx
      obtain ⟨hq, hcase⟩ := hthread q stack he hxocc
      exact ⟨hq, hcase.imp_right fun hjoined ↦ ⟨x, hjoined⟩⟩
    · have hmem : Event.cloned q pid stack ∈ h :=
        (mem_append_iff_of_pid (e := .cloned q pid stack) fun e he' heq ↦
          hx ⟨(hes e he').1, heq.symm.trans (hes e he').2⟩).1 he
      obtain ⟨hq, hcase⟩ := hk.unjoined q pid stack hmem
      refine ⟨hq, hcase.imp (fun ⟨stack', hj⟩ ↦ ⟨stack', List.mem_append_right es hj⟩) ?_⟩
      rintro ⟨i, hj, rfl⟩
      have hocc : (k.ptable i).state ≠ .unused := (present_of_parent hfamily.toInv hj.1).1
      have hi : i ≠ x := fun heq ↦ hx ⟨heq ▸ hocc, by rw [heq]⟩
      exact ⟨i, (hrest i hi).2.2 hj, (hrest i hi).1.pid⟩
  · rcases List.mem_append.1 he with hnew | hmem
    · have hepid : pid = (k.ptable x).pid := (hes _ hnew).2
      subst hepid
      exact honce q q' stack stack' hnew he'
    · rcases List.mem_append.1 he' with hnew' | hmem'
      · have hepid : pid = (k.ptable x).pid := (hes _ hnew').2
        subst hepid
        exact (honce q' q stack' stack hnew' he).symm
      · exact hk.once q q' pid stack stack' hmem hmem'

/-- What a change of one entry leaves of the others, when the entry that changes is no parent. -/
theorem alike_of_rest (hk : Inv k) (hx : (k.ptable x).Present → (k.ptable x).state = .zombie)
    (hrest : ∀ i, i ≠ x → Same (k.ptable i) (k'.ptable i)) (i : Slot) (hi : i ≠ x) :
    Alike (k.ptable i) (k'.ptable i) ∧ (k'.Joined p i ↔ k.Joined p i) :=
  ⟨(hrest i hi).toAlike, joined_iff_of_rest hk hx hrest hi⟩

/-- The record says of a process in the table that it was cloned only if it is a thread of `p`. -/
theorem Accounts.joined_of_cloned (hk : Accounts p k h) (hx : (k.ptable x).state ≠ .unused)
    {stack : ℕ} (hcloned : Event.cloned q (k.ptable x).pid stack ∈ h) : q = p ∧ k.Joined p x := by
  refine ⟨(hk.unjoined q _ stack hcloned).1, ?_⟩
  by_contra hj
  exact (hk.story x hx).other hj q stack hcloned

/-- A step keeps the agreement of record and table. -/
theorem Accounts.step (hk : Accounts p k h) (hfamily : Family p k)
    (ha : Orders p (k, h) a) (hchange : Change k k' a es) : Accounts p k' (es ++ h) := by
  have hinv := hfamily.toInv
  -- an entry that is not changed by an event about nobody or about itself
  have hquiet : ∀ x : Slot, (∀ i, Alike (k.ptable i) (k'.ptable i)) →
      (∀ r i, k'.Joined r i ↔ k.Joined r i) → k'.nextpid = k.nextpid →
      Accounts p k' ([] ++ h) := by
    intro x halike hjoined hnext
    refine hk.update hfamily x hnext.ge (by simp) (fun i _ ↦ ⟨halike i, hjoined p i⟩)
      (fun hx ↦ .inl ⟨mt (halike x).unused.2 hx, (halike x).pid⟩)
      (fun hx ↦ (hk.story x (mt (halike x).unused.2 hx)).of_alike (halike x)
        (hjoined p x) (by simp))
      (fun q stack hcloned hx ↦ ?_) (by simp)
    obtain ⟨hq, hj⟩ := hk.joined_of_cloned hx hcloned
    exact ⟨hq, .inr ⟨(hjoined p x).2 hj, (halike x).pid⟩⟩
  cases hchange with
  | idle hsame hnext =>
    exact hquiet p (fun i ↦ (hsame i).toAlike) (fun r i ↦ joined_iff_of_same hsame) hnext
  | take np hold hnew hpid hrest hnext =>
    -- the new pid is not in the record
    have hfresh : ∀ e ∈ h, e.pid ≠ (k'.ptable np).pid := fun e he ↦ by
      have := hk.past e he
      omega
    refine hk.update hfamily np (by omega) (by simp)
      (alike_of_rest hinv (zombie_of_unused hold) hrest)
      (fun _ ↦ .inr ⟨hpid, by omega⟩) (fun _ ↦ ?_)
      (fun q stack _ hocc ↦ absurd hold hocc) (by simp)
    exact .of_embryo hnew.1 hfresh
  | giveUp np hold hnew hrest hnext =>
    have hocc : (k.ptable np).state ≠ .unused := by rw [hold.1]; decide
    refine hk.update hfamily np hnext.ge (by simp)
      (alike_of_rest hinv (zombie_of_halfMade hold) hrest)
      (fun hocc ↦ absurd hnew hocc) (fun hocc ↦ absurd hnew hocc)
      (fun q stack hcloned _ ↦ ?_) (by simp)
    exact absurd rfl ((hk.story np hocc).embryo hold.1 _ hcloned)
  | child q np hq hold hnew hpid hparent hpgdir hrest hnext =>
    have hocc : (k.ptable np).state ≠ .unused := by rw [hold.1]; decide
    have hfresh := (hk.story np hocc).embryo hold.1
    have hne : np ≠ q := fun heq ↦ hq.present.2 (heq ▸ hold)
    have hnot := hfamily.child_not_joined hne hq.present hparent hpgdir hrest p
    refine hk.update hfamily np hnext.ge (by simp [hocc, Event.pid])
      (alike_of_rest hinv (zombie_of_halfMade hold) hrest)
      (fun _ ↦ .inl ⟨hocc, hpid⟩) (fun _ ↦ ?_) (fun r stack he _ ↦ ?_) (by simp)
    · exact .start hnew (hpid ▸ hfresh) (by simp) (by simp) (fun hj ↦ absurd hj hnot) (by simp)
    · exact absurd he (notMem_append_of_fresh (by simp) hfresh)
  | reset q np heq hcall hnew hrest hnext =>
    have hjoined := joined_iff_of_entry (k := k) hrest (by rw [hnew]) (by rw [hnew])
    refine hquiet q (fun i ↦ ?_) hjoined hnext
    by_cases hi : i = np
    · -- a zombie counted no threads before
      rw [hi, hnew]
      exact ⟨.rfl, .rfl, .rfl, .rfl, rfl, rfl, fun hz ↦ (hfamily.retired np hz).symm⟩
    · exact (hrest i hi).toAlike
  | claim q np stack heq hq hcall hold hnew hpid hparent hpgdir hstack hrest hnext =>
    have hocc : (k.ptable np).state ≠ .unused := by rw [hold.1]; decide
    have hfresh := (hk.story np hocc).embryo hold.1
    refine hk.update hfamily np hnext.ge (by simp)
      (alike_of_rest hinv (zombie_of_halfMade hold) hrest)
      (fun _ ↦ .inl ⟨hocc, hpid⟩) (fun _ ↦ .of_embryo hnew (hpid ▸ hfresh)) (fun r stack he _ ↦ ?_)
      (by simp)
    exact absurd rfl (hfresh _ he)
  | thread q np heq hcall hold hnew hrest hnext =>
    have hj := hfamily.made q np hcall
    obtain rfl : q = p := hfamily.sole np q hj
    have hocc : (k.ptable np).state ≠ .unused := by rw [hold]; decide
    have hfresh := (hk.story np hocc).embryo hold
    have hjoined := joined_iff_of_entry (k := k) hrest (by rw [hnew]) (by rw [hnew])
    have hpid : (k'.ptable np).pid = (k.ptable np).pid := by rw [hnew]
    have hstack : (k'.ptable np).stack = (k.ptable np).stack := by rw [hnew]
    refine hk.update hfamily np hnext.ge (by simp [hocc, Event.pid])
      (fun i hi ↦ ⟨(hrest i hi).toAlike, hjoined q i⟩)
      (fun _ ↦ .inl ⟨hocc, hpid⟩) (fun _ ↦ ?_) (fun r stack he _ ↦ ?_)
      (fun r r' stack₁ stack₂ he he' ↦ ?_)
    · exact .start (by rw [hnew]) (hpid ▸ hfresh) (by simp) (by simp)
        (fun _ ↦ by rw [hpid, hstack]) fun hnot ↦ absurd ((hjoined q np).2 hj) hnot
    · rcases List.mem_append.1 he with he | he
      · obtain ⟨rfl, -⟩ : r = q ∧ stack = (k.ptable np).stack := by simpa using he
        exact ⟨rfl, .inr ⟨(hjoined r np).2 hj, hpid⟩⟩
      · exact absurd rfl (hfresh _ he)
    · obtain ⟨-, rfl⟩ : r = q ∧ stack₁ = (k.ptable np).stack := by simpa using he
      rcases List.mem_append.1 he' with he' | he'
      · obtain ⟨-, rfl⟩ : r' = q ∧ stack₂ = (k.ptable np).stack := by simpa using he'
        rfl
      · exact absurd rfl (hfresh _ he')
  | exec q d sz heq hq hd hnew hrest hnext =>
    subst heq
    refine hquiet q (fun i ↦ ?_) (hfamily.joined_exec hd ha hnew hrest) hnext
    by_cases hi : i = q
    · rw [hi, hnew]
      exact ⟨.rfl, .rfl, .rfl, .rfl, rfl, rfl, fun _ ↦ rfl⟩
    · exact (hrest i hi).toAlike
  | exit q heq hq hroot hnew hpid hpgdir hstack hcount hparent hrest hnext =>
    subst heq
    have hocc : (k.ptable q).state ≠ .unused := by rw [hq]; decide
    have hjoined := hfamily.joined_exit (hfamily.not_joined_of_exit ha) hpgdir hparent
    refine hk.update hfamily q hnext.ge (by simp [hocc, Event.pid])
      (fun i hi ↦ ⟨hrest i hi, hjoined p i⟩) (fun _ ↦ .inl ⟨hocc, hpid⟩)
      (fun _ ↦ (hk.story q hocc).exit hq hnew hpid hstack (hjoined p q))
      (fun r stack he _ ↦ ?_) (by simp)
    obtain ⟨hr, hj⟩ := hk.joined_of_cloned hocc ((mem_exited_append (by simp)).1 he)
    exact ⟨hr, .inr ⟨(hjoined p q).2 hj, hpid⟩⟩
  | wait q x hq hx hold hnew hrest hnext =>
    have hocc : (k.ptable x).state ≠ .unused := by rw [hold]; decide
    refine hk.update hfamily x hnext.ge (by simp [hocc, Event.pid])
      (alike_of_rest hinv (fun _ ↦ hold) hrest)
      (fun hocc ↦ absurd hnew hocc) (fun hocc ↦ absurd hnew hocc) (fun r stack he _ ↦ ?_) (by simp)
    have hmem : Event.cloned r (k.ptable x).pid stack ∈ h := by simpa using he
    obtain ⟨-, hj⟩ := hk.joined_of_cloned hocc hmem
    obtain rfl : q = p := Option.some.inj (hx.1.symm.trans hj.1)
    exact absurd hj.2 hx.2
  | join q x hq hx hold hnew hrest hnext =>
    obtain rfl : q = p := hfamily.sole x q hx
    have hocc : (k.ptable x).state ≠ .unused := by rw [hold]; decide
    refine hk.update hfamily x hnext.ge (by simp [hocc, Event.pid])
      (alike_of_rest hinv (fun _ ↦ hold) hrest)
      (fun hocc ↦ absurd hnew hocc) (fun hocc ↦ absurd hnew hocc) (fun r stack he _ ↦ ?_) (by simp)
    have hmem : Event.cloned r (k.ptable x).pid stack ∈ h := by simpa using he
    exact ⟨(hk.joined_of_cloned hocc hmem).1,
      .inl ⟨_, List.mem_append_left _ List.mem_cons_self⟩⟩

/-! ### Every run -/

theorem userinit_not_joined {d : ℕ} (q i : Slot) : ¬ (userinit d).Joined q i := by
  intro hj
  have hparent := hj.1
  by_cases hi : i = initproc
  · rw [hi, userinit_ptable_initproc] at hparent
    cases hparent
  · rw [userinit_ptable_of_ne d hi] at hparent
    cases hparent

theorem userinit_not_zombie {d : ℕ} (i : Slot) : ((userinit d).ptable i).state ≠ .zombie := by
  by_cases hi : i = initproc
  · rw [hi, userinit_ptable_initproc]
    exact nofun
  · rw [userinit_ptable_of_ne d hi]
    exact nofun

/-- At boot the family is in order, -/
theorem family_userinit (p : Slot) {d : ℕ} (hd : d ≠ 0) : Family p (userinit d) := by
  have hcall : ∀ q c, (userinit d).call q = c → c ≠ .user → False := by
    rintro q c rfl hc
    exact hc (by rw [userinit_call])
  exact ⟨userinit_inv hd, ⟨fun i q hj ↦ absurd hj (userinit_not_joined q i),
    fun i hzombie ↦ absurd hzombie (userinit_not_zombie i),
    fun i hj ↦ absurd hj (userinit_not_joined p i), fun q np hq ↦ (hcall q _ hq nofun).elim⟩,
    fun q np stack hq ↦ (hcall q _ hq nofun).elim⟩

/-- and so are the accounts. -/
theorem accounts_userinit (p : Slot) {d : ℕ} : Accounts p (userinit d) [] := by
  have hfirst : ∀ i, ((userinit d).ptable i).state ≠ .unused → i = initproc := by
    intro i hocc
    by_contra hi
    rw [userinit_ptable_of_ne d hi] at hocc
    exact hocc rfl
  have hpid : ((userinit d).ptable initproc).pid = 1 := by rw [userinit_ptable_initproc]
  refine ⟨by rw [userinit_nextpid]; decide, fun i hocc ↦ ?_, fun i j hocc hocc' _ ↦ ?_, by simp,
    fun i _ ↦ ⟨by simp, by simp, by simp, fun hz ↦ absurd hz (userinit_not_zombie i),
      fun hj ↦ absurd hj (userinit_not_joined p i), by simp⟩, by simp, by simp⟩
  · rw [hfirst i hocc, hpid, userinit_nextpid]
    decide
  · rw [hfirst i hocc, hfirst j hocc']

/-- In every run that meets the condition both are kept. -/
theorem family_of_reachable {s : Kernel × List Event}
    (hs : (recorded.restrict (JoinMeets p)).Reachable s) : Family p s.1 ∧ Accounts p s.1 s.2 := by
  refine hs.invariant (I := fun s ↦ Family p s.1 ∧ Accounts p s.1 s.2) ?_ ?_
  · rintro ⟨k, h⟩ ⟨⟨d, hd, rfl⟩, rfl⟩
    exact ⟨family_userinit p hd, accounts_userinit p⟩
  · rintro ⟨k, h⟩ a ⟨k', h'⟩ ⟨hfamily, haccounts⟩ ⟨ha, hstep, rfl⟩
    have hpid : ∀ i, (k.ptable i).state ≠ .unused → 0 < (k.ptable i).pid :=
      fun i hocc ↦ (haccounts.pid i hocc).1
    have horders := ha.1
    have hchange := change_of_step hfamily.toOrderly hpid
      (fun q copied heq ↦ by rw [heq] at horders; exact horders) hstep
    exact ⟨hfamily.step ha hpid hstep, haccounts.step hfamily horders hchange⟩

/-- The process is in `clone`. -/
def Call.InClone : Call → Prop
  | .clone _ _ | .cloneReturn _ => True
  | _ => False

instance : (c : Call) → Decidable c.InClone
  | .clone _ _ | .cloneReturn _ => .isTrue trivial
  | .user | .fork _ | .forkReturn _ | .wait | .join _ | .growproc _ | .growLoop _ _ => .isFalse id

/-- What is right about `clone`, `join` and `wait` in a state with its record. -/
structure JoinsRight (p : Slot) (k : Kernel) (h : List Event) : Prop where
  /-- `count_thread` is the number of threads. -/
  count : (k.ptable p).Awake → ¬ (k.call p).InClone →
    (k.ptable p).countThread = (Finset.univ.filter fun i ↦ k.Joined p i).card
  /-- `join` returns a thread of `p` that has exited and was not returned before, with the stack it
  was cloned with. -/
  joined : ∀ q stack pid stored k', Unmonitored.step k (.join q stack) = .ok k' →
    k.joinResult q stack = some (pid, some stored) →
      q = p ∧ Event.cloned p pid stored ∈ h ∧ Event.exited pid ∈ h ∧
        (∀ r stack', Event.joined r pid stack' ∉ h) ∧ (∀ r, Event.waited r pid ∉ h) ∧
        ∀ r, Event.forked r pid ∉ h
  /-- A pid comes from one call of `clone`. -/
  once : ∀ pid stack stack', Event.cloned p pid stack ∈ h → Event.cloned p pid stack' ∈ h →
    stack = stack'
  /-- `wait` returns no thread. -/
  waited : ∀ q pid k', Unmonitored.step k (.wait q) = .ok k' → k.waitResult q = some pid →
    pid ≠ -1 → ∀ r stack, Event.cloned r pid stack ∉ h
  /-- `join` of `p` with a valid pointer fails exactly when all threads are joined. -/
  failed : ∀ stack k', Unmonitored.step k (.join p stack) = .ok k' →
    (k.call p = .user → stack + 4 ≤ (k.ptable p).sz) → (k.ptable p).killed = false →
      (k.joinResult p stack = some (-1, none) ↔
        ∀ q pid stack', Event.cloned q pid stack' ∈ h → ∃ stored, Event.joined p pid stored ∈ h)

/-- What `join` returns is the pid of a thread that has exited, with its stack. -/
theorem joinResult_eq_some {stack stored : ℕ} {pid : ℤ}
    (hresult : k.joinResult q stack = some (pid, some stored)) :
    ∃ x, k.Joined q x ∧ (k.ptable x).state = .zombie ∧ (k.ptable x).pid = pid ∧
      (k.ptable x).stack = stored := by
  rw [joinResult, Kernel.join] at hresult
  split at hresult
  · cases hresult
  · split at hresult
    · rename_i x hthread
      obtain ⟨hx, hzombie⟩ := zombieThread_eq_some hthread
      cases hresult
      exact ⟨x, hx, hzombie, rfl, rfl⟩
    · split at hresult <;> cases hresult

/-- What `wait` returns is the pid of a child that has exited. -/
theorem waitResult_eq_some {pid : ℤ} (hresult : k.waitResult q = some pid) (hpid : pid ≠ -1) :
    ∃ x, k.Awaited q x ∧ (k.ptable x).state = .zombie ∧ (k.ptable x).pid = pid := by
  rw [waitResult] at hresult
  cases hr : Unmonitored.wait k q with
  | error e =>
    rw [hr] at hresult
    cases hresult
  | ok r =>
    rw [hr] at hresult
    rcases Unmonitored.wait_cases hr with ⟨x, dirs, hchild, -, rfl⟩ | rfl | rfl
    · obtain ⟨hx, hzombie⟩ := zombieChild_eq_some hchild
      exact ⟨x, hx, hzombie, Option.some.inj hresult⟩
    · exact absurd (Option.some.inj hresult).symm hpid
    · cases hresult

/-- `join` fails if there is no thread to wait for. -/
theorem joinResult_eq_failed_iff {stack : ℕ}
    (hvalid : k.call p = .user → stack + 4 ≤ (k.ptable p).sz)
    (hkilled : (k.ptable p).killed = false) :
    k.joinResult p stack = some (-1, none) ↔ ∀ i, ¬ k.Joined p i := by
  have hgood : ¬ (k.call p = .user ∧ ¬ k.joinArgument p stack) := fun ⟨hcall, hbad⟩ ↦
    hbad ((Nat.mod_le _ _).trans (hvalid hcall))
  rw [joinResult, if_neg hgood, Kernel.join]
  cases hthread : k.zombieThread p with
  | some x =>
    exact iff_of_false (by simp) fun hnone ↦ hnone x (zombieThread_eq_some hthread).1
  | none =>
    dsimp only
    split_ifs with hnone
    · exact iff_of_true rfl (hnone.resolve_right (by rw [hkilled]; decide))
    · exact iff_of_false (by simp) fun hall ↦ hnone (.inl hall)

/-- One step of the kernel, with the record. -/
def recordStep (s : Kernel × List Event) (a : Action) : Except Fault (Kernel × List Event) := do
  let k ← Unmonitored.step s.1 a
  .ok (k, s.1.events a ++ s.2)

theorem next_of_recordStep (s : Kernel × List Event) (a : Action) (t : Kernel × List Event)
    (h : recordStep s a = .ok t) : recorded.next s a t := by
  obtain ⟨k, hk, ht⟩ := GuardedLoop.bind_eq_ok_iff.1 h
  rw [← Except.ok.inj ht]
  exact ⟨hk, rfl⟩

theorem recorded_init : recorded.init (userinit 1, []) := ⟨⟨1, by decide, rfl⟩, rfl⟩

/-- A child of the first process clones a thread when `fork` has set its count, and joins it when it
has exited. -/
def inTime : List Action :=
  let init : Slot := initproc
  let main : Slot := ⟨1, one_lt_NPROC⟩
  let thread : Slot := ⟨2, two_lt_NPROC⟩
  [.dispatch init, .fork init, .forkCopy init (.ready 2 PGSIZE), .dispatch main, .forkReturn init,
    .clone main 4096, .cloneCopy main, .cloneReturn main true, .dispatch thread, .exit thread,
    .join main 0]

/-- A child of the first process clones a thread before `fork` has set its count. -/
def lateReset : List Action :=
  let init : Slot := initproc
  let main : Slot := ⟨1, one_lt_NPROC⟩
  [.dispatch init, .fork init, .forkCopy init (.ready 2 PGSIZE), .dispatch main,
    .clone main 4096, .cloneCopy main, .cloneReturn main true, .forkReturn init]

end Threads
