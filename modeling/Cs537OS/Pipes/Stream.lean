import Cs537OS.Foundation.RingBuffer
import Cs537OS.Pipes.Basic
import Mathlib.Tactic.SplitIfs

/-!
# What is written to a pipe is what is read from it

The ring holds the bytes that were written and not yet read. The counters are those of the histories
modulo `2 ^ 32`; since `PIPESIZE` divides that, the place in the ring is the counter modulo
`PIPESIZE` also after they have wrapped around, and since at most `PIPESIZE` bytes are in the ring
the test for a full ring is exact.

* `Pipe.Holds` — the pipe and its queue, with one lemma for each end;
* `Place.Guard` — what a process in a call knows from its tests. Only the process that has the lock
  changes the pipe, so the others still find it (`Place.Guard.of_outside`);
* `StreamOk` and `streamOk_of_reachable` — the order of the bytes, and what the results of the calls
  say, in every order of steps.
-/

namespace Pipes

/-! ### The ring -/

namespace Pipe

variable {p : Pipe} {queue : List UInt8} {c : UInt8}

/-- The pipe holds `queue`. -/
structure Holds (p : Pipe) (queue : List UInt8) : Prop where
  ring : RingBuffer.Holds 512 (some ∘ p.data) p.taken.length queue
  written_eq : p.written = p.taken ++ queue
  nread_eq : p.nread = UInt32.ofNat p.taken.length
  nwrite_eq : p.nwrite = UInt32.ofNat p.written.length

/-- A place in the ring. -/
theorem place_eq (n : ℕ) : (UInt32.ofNat n % PIPESIZE).toNat = n % 512 := by
  rw [UInt32.toNat_mod, UInt32.toNat_ofNat']
  exact Nat.mod_mod_of_dvd n ⟨8388608, rfl⟩

theorem Holds.length_eq (h : p.Holds queue) :
    p.written.length = p.taken.length + queue.length := by
  rw [h.written_eq, List.length_append]

/-- Two counters that are not far from each other. -/
theorem ofNat_eq_iff {m a b : ℕ} (ha : a ≤ 512) (hb : b ≤ 512) :
    UInt32.ofNat (m + a) = UInt32.ofNat (m + b) ↔ a = b := by
  rw [← UInt32.toNat_inj, UInt32.toNat_ofNat', UInt32.toNat_ofNat']
  omega

/-- **The test for a full ring is exact**, also after the counters have wrapped around. -/
theorem Holds.isFull_iff (h : p.Holds queue) : p.isFull = true ↔ queue.length = 512 := by
  have hsum : UInt32.ofNat p.taken.length + PIPESIZE = UInt32.ofNat (p.taken.length + 512) := by
    rw [UInt32.ofNat_add]
    rfl
  rw [isFull, beq_iff_eq, h.nwrite_eq, h.nread_eq, h.length_eq, hsum]
  exact ofNat_eq_iff h.ring.length_le le_rfl

theorem Holds.isEmpty_iff (h : p.Holds queue) : p.isEmpty = true ↔ queue = [] := by
  rw [isEmpty, beq_iff_eq, h.nwrite_eq, h.nread_eq, h.length_eq, ← List.length_eq_zero_iff]
  exact (ofNat_eq_iff (Nat.zero_le _) h.ring.length_le).trans eq_comm

theorem Holds.put (h : p.Holds queue) (hroom : p.isFull = false) :
    (p.put c).Holds (queue ++ [c]) := by
  have hlen : queue.length ≠ 512 := by
    rw [Ne, ← h.isFull_iff, hroom]
    exact Bool.false_ne_true
  have hle := h.ring.length_le
  refine ⟨?_, ?_, h.nread_eq, ?_⟩
  · show RingBuffer.Holds 512
      (some ∘ Function.update p.data (p.nwrite % PIPESIZE).toNat c) p.taken.length _
    rw [Function.comp_update, h.nwrite_eq, place_eq, h.length_eq]
    exact h.ring.push (by omega) c
  · show p.written ++ [c] = p.taken ++ (queue ++ [c])
    rw [h.written_eq, List.append_assoc]
  · show p.nwrite + 1 = UInt32.ofNat (p.written ++ [c]).length
    rw [h.nwrite_eq, List.length_append, UInt32.ofNat_add]
    rfl

theorem Holds.get (h : p.Holds queue) (hne : p.isEmpty = false) :
    ∃ queue', queue = p.front :: queue' ∧ p.get.Holds queue' := by
  cases queue with
  | nil =>
    rw [h.isEmpty_iff.2 rfl] at hne
    cases hne
  | cons x queue =>
    have hx : p.front = x := by
      rw [front, h.nread_eq, place_eq]
      exact Option.some.inj h.ring.head
    refine ⟨queue, by rw [hx], ?_, ?_, ?_, h.nwrite_eq⟩
    · show RingBuffer.Holds 512 (some ∘ p.data) (p.taken ++ [p.front]).length queue
      rw [List.length_append]
      exact h.ring.pop
    · show p.written = p.taken ++ [p.front] ++ queue
      rw [h.written_eq, hx, List.append_assoc]
      rfl
    · show p.nread + 1 = UInt32.ofNat (p.taken ++ [p.front]).length
      rw [h.nread_eq, List.length_append, UInt32.ofNat_add]
      rfl

/-- Who finds the pipe empty has everything. -/
theorem Holds.taken_eq (h : p.Holds queue) (hempty : p.isEmpty = true) : p.taken = p.written := by
  rw [h.written_eq, h.isEmpty_iff.1 hempty, List.append_nil]

end Pipe

/-! ### What a process knows -/

/-- The places of `pipewrite` at which the process has the lock. -/
def WritePlace.inside : WritePlace → Bool
  | acquire | sleeping => false
  | _ => true

/-- How far the loop is. -/
def WritePlace.Counts (n : ℤ) (i : ℕ) : WritePlace → Prop
  | acquire | test => i ≤ n.toNat
  | wakeup | release => i = n.toNat
  | _ => (i : ℤ) < n

def ReadPlace.inside : ReadPlace → Bool
  | acquire | sleeping => false
  | _ => true

def ClosePlace.inside : ClosePlace → Bool
  | acquire | free => false
  | _ => true

namespace Place

/-- The places at which the process has the lock. -/
def inside : Place → Bool
  | user => false
  | write l _ _ _ _ => l.inside
  | read l _ _ => l.inside
  | close l _ => l.inside

/-- The channel slept on. -/
def waits : Place → Option Chan
  | write .sleeping _ _ _ _ => some .nwrite
  | read .sleeping _ _ => some .nread
  | _ => none

/-- What has been read in this call: the last bytes that left the pipe, not too many; and if there
are none, then not because a writer could still write. -/
structure Partly (p : Pipe) (n : ℤ) (got : List UInt8) : Prop where
  suffix : got <:+ p.taken
  le : got.length ≤ n.toNat
  eof : got = [] → p.isEmpty = true → p.writeopen = false

/-- What the process knows from its tests. -/
def Guard (p : Pipe) : Place → Prop
  | write .check _ _ _ _ | write .fail _ _ _ _ => p.isFull = true
  | write .wakeupFull _ _ _ _ | write .sleep _ _ _ _ => p.isFull = true ∧ p.readopen = true
  | write .put _ _ _ _ => p.isFull = false
  | read .acquire _ got | read .empty _ got | read .sleeping _ got => got = []
  | read .check _ got | read .sleep _ got => got = [] ∧ p.isEmpty = true ∧ p.writeopen = true
  | read .test n got => Partly p n got
  | read .drained n got => Partly p n got ∧ (got.length : ℤ) < n
  | read .get n got => Partly p n got ∧ (got.length : ℤ) < n ∧ p.isEmpty = false
  | read .wakeup n got | read .release n got =>
    Partly p n got ∧ ((got.length : ℤ) < n → p.isEmpty = true)
  | _ => True

/-- What has been written in this call. -/
def Sent (p : Pipe) : Place → Prop
  | write l addr n start i =>
    ((List.range i).map addr).Sublist (p.written.drop start) ∧ start ≤ p.written.length ∧
      l.Counts n i
  | _ => True

/-- Why a call fails. -/
def Failed (p : Pipe) (killed : Bool) : Place → Prop
  | write .fail _ _ _ _ => killed = true ∨ p.readopen = false
  | read .fail _ _ => killed = true
  | _ => True

variable {p p' : Pipe} {l l' : Place} {queue : List UInt8} {killed killed' : Bool}
  {op : Monitor.Op Chan}

/-- A killed process stays killed, and a closed end stays closed. -/
theorem Failed.mono (h : l.Failed p killed) (hkilled : killed = true → killed' = true)
    (hclosed : p.readopen = false → p'.readopen = false) : l.Failed p' killed' := by
  cases l with
  | user => trivial
  | write l addr n start i =>
    cases l with
    | fail => exact h.imp hkilled hclosed
    | _ => trivial
  | read l n got =>
    cases l with
    | fail => exact hkilled h
    | _ => trivial
  | close l w => trivial

/-- A process outside knows nothing about the pipe. -/
theorem Guard.of_outside (h : l.Guard p) (hl : l.inside = false) : l.Guard p' := by
  cases l with
  | user => trivial
  | write l addr n start i => cases l <;> trivial
  | read l n got => cases l <;> first | exact h | cases hl
  | close l w => trivial

/-- `kfree` changes nothing that a process knows. -/
theorem Guard.kfree {k : ℕ} (h : l.Guard p) : l.Guard { p with freed := k } := by
  have hpartly : ∀ {n got}, Partly p n got → Partly { p with freed := k } n got :=
    fun h ↦ ⟨h.suffix, h.le, h.eof⟩
  cases l with
  | user => trivial
  | write l addr n start i => cases l <;> exact h
  | read l n got =>
    cases l with
    | test => exact hpartly h
    | drained => exact ⟨hpartly h.1, h.2⟩
    | get => exact ⟨hpartly h.1, h.2⟩
    | wakeup => exact ⟨hpartly h.1, h.2⟩
    | release => exact ⟨hpartly h.1, h.2⟩
    | _ => exact h
  | close l w => trivial

/-- What has been written stays written. -/
theorem Sent.mono (h : l.Sent p) (hle : p.written <+: p'.written) : l.Sent p' := by
  cases l with
  | write l addr n start i =>
    obtain ⟨hsub, hstart, hcounts⟩ := h
    refine ⟨hsub.trans ?_, hstart.trans hle.length_le, hcounts⟩
    obtain ⟨rest, hrest⟩ := hle
    rw [← hrest, List.drop_append_of_le_length hstart]
    exact List.sublist_append_left _ _
  | user => trivial
  | read l n got => trivial
  | close l w => trivial

/-! ### The statements -/

/-- The places fit what a statement does with the lock. -/
theorem fits_of_next (h : p.next killed l = some (p', l', op)) : op.Fits inside waits l l' := by
  cases l with
  | user => cases h
  | write l addr n start i =>
    cases l <;> obtain ⟨rfl, rfl, rfl⟩ := Option.some.inj h <;>
      first
        | exact ⟨rfl, rfl, rfl⟩
        | exact ⟨rfl, rfl⟩
        | rfl
        | exact ⟨by split_ifs <;> rfl, rfl⟩
  | read l n got =>
    cases l <;> obtain ⟨rfl, rfl, rfl⟩ := Option.some.inj h <;>
      first
        | exact ⟨rfl, rfl, rfl⟩
        | exact ⟨rfl, rfl⟩
        | rfl
        | exact ⟨by split_ifs <;> rfl, rfl⟩
  | close l w =>
    cases l <;> obtain ⟨rfl, rfl, rfl⟩ := Option.some.inj h <;>
      first
        | exact ⟨rfl, rfl, rfl⟩
        | exact ⟨rfl, rfl⟩
        | rfl
        | exact ⟨by split_ifs <;> rfl, rfl⟩

/-- A statement of `pipewrite`. -/
theorem Guard.next_write {at_ : WritePlace} {addr : ℕ → UInt8} {n : ℤ} {start i : ℕ}
    (hguard : (write at_ addr n start i).Guard p) (hsent : (write at_ addr n start i).Sent p)
    (h : p.next killed (write at_ addr n start i) = some (p', l', op)) :
    l'.Guard p' ∧ l'.Sent p' := by
  obtain ⟨hsub, hstart, hcounts⟩ := hsent
  cases at_ with
  | acquire =>
    obtain ⟨rfl, rfl, rfl⟩ := Option.some.inj h
    exact ⟨trivial, hsub, hstart, hcounts⟩
  | test =>
    obtain ⟨rfl, rfl, rfl⟩ := Option.some.inj h
    have hle : i ≤ n.toNat := hcounts
    split_ifs with hi
    · exact ⟨trivial, hsub, hstart, hi⟩
    · refine ⟨trivial, hsub, hstart, ?_⟩
      show i = n.toNat
      omega
  | full =>
    obtain ⟨rfl, rfl, rfl⟩ := Option.some.inj h
    split_ifs with hfull
    · exact ⟨hfull, hsub, hstart, hcounts⟩
    · exact ⟨Bool.eq_false_of_not_eq_true hfull, hsub, hstart, hcounts⟩
  | check =>
    obtain ⟨rfl, rfl, rfl⟩ := Option.some.inj h
    split_ifs with hgone
    · exact ⟨hguard, hsub, hstart, hcounts⟩
    · have hopen : p.readopen = true := by
        revert hgone
        cases p.readopen <;> simp
      exact ⟨⟨hguard, hopen⟩, hsub, hstart, hcounts⟩
  | fail =>
    obtain ⟨rfl, rfl, rfl⟩ := Option.some.inj h
    exact ⟨trivial, trivial⟩
  | wakeupFull =>
    obtain ⟨rfl, rfl, rfl⟩ := Option.some.inj h
    exact ⟨hguard, hsub, hstart, hcounts⟩
  | sleep =>
    obtain ⟨rfl, rfl, rfl⟩ := Option.some.inj h
    exact ⟨trivial, hsub, hstart, hcounts⟩
  | sleeping =>
    obtain ⟨rfl, rfl, rfl⟩ := Option.some.inj h
    exact ⟨trivial, hsub, hstart, hcounts⟩
  | put =>
    obtain ⟨rfl, rfl, rfl⟩ := Option.some.inj h
    -- the only statement that adds to the stream
    have hi : (i : ℤ) < n := hcounts
    refine ⟨trivial, ?_, ?_, ?_⟩
    · show ((List.range (i + 1)).map addr).Sublist ((p.written ++ [addr i]).drop start)
      rw [List.range_succ, List.map_append, List.drop_append_of_le_length hstart]
      exact hsub.append (List.Sublist.refl _)
    · show start ≤ (p.written ++ [addr i]).length
      rw [List.length_append]
      exact Nat.le_add_right_of_le hstart
    · show i + 1 ≤ n.toNat
      omega
  | wakeup =>
    obtain ⟨rfl, rfl, rfl⟩ := Option.some.inj h
    exact ⟨trivial, hsub, hstart, hcounts⟩
  | release =>
    obtain ⟨rfl, rfl, rfl⟩ := Option.some.inj h
    exact ⟨trivial, trivial⟩

/-- A statement of `piperead`. -/
theorem Guard.next_read {at_ : ReadPlace} {n : ℤ} {got : List UInt8}
    (hguard : (read at_ n got).Guard p) (h : p.next killed (read at_ n got) = some (p', l', op)) :
    l'.Guard p' := by
  cases at_ with
  | acquire =>
    obtain ⟨rfl, rfl, rfl⟩ := Option.some.inj h
    exact hguard
  | empty =>
    obtain ⟨rfl, rfl, rfl⟩ := Option.some.inj h
    obtain rfl : got = [] := hguard
    split_ifs with hwait
    · rw [Bool.and_eq_true] at hwait
      exact ⟨rfl, hwait⟩
    · refine ⟨List.nil_suffix, Nat.zero_le _, fun _ hempty ↦ ?_⟩
      rwa [hempty, Bool.true_and, Bool.not_eq_true] at hwait
  | check =>
    obtain ⟨rfl, rfl, rfl⟩ := Option.some.inj h
    split_ifs
    · trivial
    · exact hguard
  | fail =>
    obtain ⟨rfl, rfl, rfl⟩ := Option.some.inj h
    trivial
  | sleep =>
    obtain ⟨rfl, rfl, rfl⟩ := Option.some.inj h
    exact hguard.1
  | sleeping =>
    obtain ⟨rfl, rfl, rfl⟩ := Option.some.inj h
    exact hguard
  | test =>
    obtain ⟨rfl, rfl, rfl⟩ := Option.some.inj h
    split_ifs with hlt
    · exact ⟨hguard, hlt⟩
    · exact ⟨hguard, fun hlt' ↦ absurd hlt' hlt⟩
  | drained =>
    obtain ⟨rfl, rfl, rfl⟩ := Option.some.inj h
    split_ifs with hempty
    · exact ⟨hguard.1, fun _ ↦ hempty⟩
    · exact ⟨hguard.1, hguard.2, Bool.eq_false_of_not_eq_true hempty⟩
  | get =>
    obtain ⟨rfl, rfl, rfl⟩ := Option.some.inj h
    obtain ⟨⟨⟨before, hbefore⟩, -, -⟩, hlt, -⟩ := hguard
    refine ⟨⟨before, ?_⟩, ?_, fun hnil ↦ ?_⟩
    · show before ++ (got ++ [p.front]) = p.taken ++ [p.front]
      rw [← hbefore, List.append_assoc]
    · rw [List.length_append, List.length_singleton]
      omega
    · exact absurd hnil (List.append_ne_nil_of_right_ne_nil _ (List.cons_ne_nil _ _))
  | wakeup =>
    obtain ⟨rfl, rfl, rfl⟩ := Option.some.inj h
    exact hguard
  | release =>
    obtain ⟨rfl, rfl, rfl⟩ := Option.some.inj h
    trivial

/-- A statement of `pipeclose`. -/
theorem guard_next_close {at_ : ClosePlace} {w : Bool}
    (h : p.next killed (close at_ w) = some (p', l', op)) : l'.Guard p' ∧ l'.Sent p' := by
  cases at_ <;> obtain ⟨rfl, rfl, rfl⟩ := Option.some.inj h <;> exact ⟨trivial, trivial⟩

/-- A call fails for a reason. -/
theorem failed_of_next (h : p.next killed l = some (p', l', op)) : l'.Failed p' killed := by
  cases l with
  | user => cases h
  | write l addr n start i =>
    cases l <;> obtain ⟨rfl, rfl, rfl⟩ := Option.some.inj h
    case test => split_ifs <;> trivial
    case full => split_ifs <;> trivial
    case check =>
      split_ifs with hgone
      · rw [Bool.or_eq_true, Bool.not_eq_true'] at hgone
        exact hgone.symm
      · trivial
    all_goals trivial
  | read l n got =>
    cases l <;> obtain ⟨rfl, rfl, rfl⟩ := Option.some.inj h
    case empty => split_ifs <;> trivial
    case check =>
      split_ifs with hkilled
      · exact hkilled
      · trivial
    case test => split_ifs <;> trivial
    case drained => split_ifs <;> trivial
    all_goals trivial
  | close l w =>
    cases l <;> obtain ⟨rfl, rfl, rfl⟩ := Option.some.inj h
    case test => split_ifs <;> trivial
    all_goals trivial

/-- **What a process knows after its next statement.** -/
theorem Guard.next (hguard : l.Guard p) (hsent : l.Sent p)
    (h : p.next killed l = some (p', l', op)) : l'.Guard p' ∧ l'.Sent p' := by
  cases l with
  | user => cases h
  | write l addr n start i => exact hguard.next_write hsent h
  | read l n got =>
    refine ⟨hguard.next_read h, ?_⟩
    cases l <;> obtain ⟨rfl, rfl, rfl⟩ := Option.some.inj h <;> trivial
  | close l w => exact guard_next_close h

end Place

namespace Pipe

variable {p p' : Pipe} {l l' : Place} {queue : List UInt8} {killed : Bool} {op : Monitor.Op Chan}

/-- A statement that is neither the copying nor `pipeclose` leaves the pipe as it is. -/
theorem next_eq (h : p.next killed l = some (p', l', op)) :
    p' = p ∨ (∃ addr n start i, l = .write .put addr n start i ∧ p' = p.put (addr i)) ∨
      (∃ n got, l = .read .get n got ∧ p' = p.get) ∨
      (∃ w, l = .close .clear w ∧ p' = p.clear w) ∨
      ∃ w, l = .close .free w ∧ p' = { p with freed := p.freed + 1 } := by
  cases l with
  | user => cases h
  | write l addr n start i =>
    cases l <;> obtain ⟨rfl, rfl, rfl⟩ := Option.some.inj h <;> first
      | exact .inl rfl
      | exact .inr (.inl ⟨_, _, _, _, rfl, rfl⟩)
  | read l n got =>
    cases l <;> obtain ⟨rfl, rfl, rfl⟩ := Option.some.inj h <;> first
      | exact .inl rfl
      | exact .inr (.inr (.inl ⟨_, _, rfl, rfl⟩))
  | close l w =>
    cases l <;> obtain ⟨rfl, rfl, rfl⟩ := Option.some.inj h <;> first
      | exact .inl rfl
      | exact .inr (.inr (.inr (.inl ⟨_, rfl, rfl⟩)))
      | exact .inr (.inr (.inr (.inr ⟨_, rfl, rfl⟩)))

theorem Holds.clear (h : p.Holds queue) (w : Bool) : (p.clear w).Holds queue := by
  cases w <;> exact ⟨h.ring, h.written_eq, h.nread_eq, h.nwrite_eq⟩

/-- **Every statement keeps the ring.** -/
theorem Holds.next (h : p.Holds queue) (hguard : l.Guard p)
    (hnext : p.next killed l = some (p', l', op)) :
    (∃ queue', p'.Holds queue') ∧ p.written <+: p'.written := by
  rcases next_eq hnext with rfl | ⟨_, _, _, _, rfl, rfl⟩ | ⟨_, _, rfl, rfl⟩ | ⟨w, rfl, rfl⟩ |
    ⟨w, rfl, rfl⟩
  · exact ⟨⟨queue, h⟩, List.prefix_rfl⟩
  · exact ⟨⟨_, h.put hguard⟩, List.prefix_append _ _⟩
  · obtain ⟨queue', -, h'⟩ := h.get hguard.2.2
    exact ⟨⟨queue', h'⟩, List.prefix_rfl⟩
  · refine ⟨⟨queue, h.clear w⟩, ?_⟩
    cases w <;> exact List.prefix_rfl
  · exact ⟨⟨queue, h.ring, h.written_eq, h.nread_eq, h.nwrite_eq⟩, List.prefix_rfl⟩

end Pipe

/-! ### The processes -/

theorem Place.eq_user_of_isUser {l : Place} (h : l.isUser = true) : l = .user := by
  cases l <;> first | rfl | cases h

/-- One process moves. -/
theorem forall_update {τ : Type*} [DecidableEq τ] {place : τ → Place} {t : τ} {l : Place}
    {P : τ → Place → Prop} (hl : P t l) (h : ∀ u, P u (place u)) (u : τ) :
    P u (Function.update place t l u) := by
  rcases eq_or_ne u t with rfl | hne
  · rwa [Function.update_self]
  · rw [Function.update_of_ne hne]
    exact h u

namespace State

variable {τ : Type*} [DecidableEq τ] {s s' : State τ} {t : τ} {l : Place} {queue : List UInt8}
  {a : Act τ} {w : Bool}

/-- The invariant, with the queue that the pipe holds. -/
structure Inv (s : State τ) (queue : List UInt8) : Prop where
  obeys : Obeys Place.inside Place.waits s.place s.monitor
  guard : ∀ t, (s.place t).Guard s.pipe
  sent : ∀ t, (s.place t).Sent s.pipe
  failed : ∀ t, (s.place t).Failed s.pipe (s.killed t)
  holds : s.pipe.Holds queue

theorem run_cases (h : s.run t = .ok s') :
    ∃ pipe l op monitor, s.pipe.next (s.killed t) (s.place t) = some (pipe, l, op) ∧
      s.monitor.perform t op = some monitor ∧
      s' = { s with pipe := pipe, place := Function.update s.place t l, monitor := monitor } := by
  rw [run] at h
  split at h
  next => cases h
  next pipe l op hnext =>
    split at h
    next => cases h
    next monitor hop => exact ⟨pipe, l, op, monitor, hnext, hop, (Except.ok.inj h).symm⟩

/-- The calls of the functions of the pipe, the last `fileclose` of an end among them. -/
inductive Called (s : State τ) (t : τ) : Place → Prop
  | write (addr : ℕ → UInt8) (n : ℤ) : 0 < s.ofile t true →
    Called s t (.write .acquire addr n s.pipe.written.length 0)
  | read (n : ℤ) : 0 < s.ofile t false → Called s t (.read .acquire n [])
  | close (w : Bool) : 0 < s.ofile t w → s.ref w ≤ 1 → Called s t (.close .acquire w)

/-- What happens between the calls leaves the pipe alone. -/
theorem step_cases (h : s.step a = .ok s') :
    (∃ t, a = .run t ∧ s.run t = .ok s') ∨
      s'.pipe = s.pipe ∧
        (s'.monitor = s.monitor ∨ ∃ t, s'.monitor = s.monitor.wake [t]) ∧
        (∀ t, s.killed t = true → s'.killed t = true ∨ s.place t = .user) ∧
        (s'.place = s.place ∨
          ∃ t l, s.place t = .user ∧ s.Called t l ∧ s'.place = Function.update s.place t l) := by
  cases a with
  | run t => exact .inl ⟨t, rfl, h⟩
  | write t addr n =>
    rw [State.step, call] at h
    split_ifs at h with hcall
    obtain rfl := Except.ok.inj h
    exact .inr ⟨rfl, .inl rfl, fun _ ↦ .inl, .inr ⟨t, _, Place.eq_user_of_isUser hcall.1,
      .write addr n hcall.2, rfl⟩⟩
  | read t n =>
    rw [State.step, call] at h
    split_ifs at h with hcall
    obtain rfl := Except.ok.inj h
    exact .inr ⟨rfl, .inl rfl, fun _ ↦ .inl, .inr ⟨t, _, Place.eq_user_of_isUser hcall.1,
      .read n hcall.2, rfl⟩⟩
  | dup t w =>
    rw [State.step, dup] at h
    split_ifs at h
    obtain rfl := Except.ok.inj h
    exact .inr ⟨rfl, .inl rfl, fun _ ↦ .inl, .inl rfl⟩
  | fork t np =>
    rw [State.step, fork] at h
    split_ifs at h with hfork
    obtain rfl := Except.ok.inj h
    refine .inr ⟨rfl, .inl rfl, fun u hu ↦ ?_, .inl rfl⟩
    rcases eq_or_ne u np with rfl | hne
    · exact .inr (Place.eq_user_of_isUser hfork.2.1)
    · exact .inl ((Function.update_of_ne hne ..).trans hu)
  | close t w =>
    rw [State.step, close] at h
    split_ifs at h with hcall hlast
    · obtain rfl := Except.ok.inj h
      exact .inr ⟨rfl, .inl rfl, fun _ ↦ .inl, .inl rfl⟩
    · obtain rfl := Except.ok.inj h
      exact .inr ⟨rfl, .inl rfl, fun _ ↦ .inl, .inr ⟨t, _, Place.eq_user_of_isUser hcall.1,
        .close w hcall.2 (by omega), rfl⟩⟩
  | kill t =>
    obtain rfl := Except.ok.inj h
    refine .inr ⟨rfl, .inr ⟨t, rfl⟩, fun u hu ↦ .inl ?_, .inl rfl⟩
    show Function.update s.killed t true u = true
    rcases eq_or_ne u t with rfl | hne
    · exact Function.update_self ..
    · rw [Function.update_of_ne hne]
      exact hu

omit [DecidableEq τ] in
/-- A call begins outside the lock, and with nothing done. -/
theorem Called.place_ok (h : s.Called t l) :
    l.inside = false ∧ l.Guard s.pipe ∧ l.Sent s.pipe ∧
      ∀ killed, l.Failed s.pipe killed := by
  cases h with
  | write addr n =>
    exact ⟨rfl, trivial, ⟨List.nil_sublist _, le_rfl, Nat.zero_le _⟩, fun _ ↦ trivial⟩
  | read n => exact ⟨rfl, rfl, trivial, fun _ ↦ trivial⟩
  | close w => exact ⟨rfl, trivial, trivial, fun _ ↦ trivial⟩

omit [DecidableEq τ] in
/-- Another process leaves alone what a process knows. -/
theorem Inv.guard_of_run (h : s.Inv queue) {u : τ} (hne : u ≠ t) {pipe : Pipe}
    {op : Monitor.Op Chan}
    (hnext : s.pipe.next (s.killed t) (s.place t) = some (pipe, l, op)) :
    (s.place u).Guard pipe := by
  by_cases hu : (s.place u).inside = true
  · -- then `t` is outside, and does nothing to the pipe but `kfree` it
    have ht : (s.place t).inside = false := by
      rw [← Bool.not_eq_true]
      exact fun ht ↦ hne (h.obeys.unique hu ht)
    have hguard := h.guard u
    rcases Pipe.next_eq hnext with rfl | ⟨_, _, _, _, hp, -⟩ | ⟨_, _, hp, -⟩ | ⟨w, hp, -⟩ |
      ⟨w, -, rfl⟩
    · exact hguard
    · rw [hp] at ht
      cases ht
    · rw [hp] at ht
      cases ht
    · rw [hp] at ht
      cases ht
    · exact hguard.kfree
  · exact (h.guard u).of_outside (Bool.eq_false_of_not_eq_true hu)

/-- Nobody opens an end again. -/
theorem isOpen_of_next {p p' : Pipe} {killed : Bool} {l' : Place} {op : Monitor.Op Chan}
    (h : p.next killed l = some (p', l', op)) (hclosed : p.isOpen w = false) :
    p'.isOpen w = false := by
  rcases Pipe.next_eq h with rfl | ⟨_, _, _, _, -, rfl⟩ | ⟨_, _, -, rfl⟩ | ⟨v, -, rfl⟩ |
    ⟨v, -, rfl⟩
  · exact hclosed
  · cases w <;> exact hclosed
  · cases w <;> exact hclosed
  · cases w <;> cases v <;> first | exact hclosed | rfl
  · cases w <;> exact hclosed

theorem Inv.run (h : s.Inv queue) (hrun : s.run t = .ok s') : ∃ queue', s'.Inv queue' := by
  obtain ⟨pipe, l, op, monitor, hnext, hop, rfl⟩ := run_cases hrun
  obtain ⟨⟨queue', hholds⟩, hle⟩ := h.holds.next (h.guard t) hnext
  obtain ⟨hguard, hsent⟩ := (h.guard t).next (h.sent t) hnext
  refine ⟨queue', h.obeys.perform (Place.fits_of_next hnext) hop, fun u ↦ ?_, fun u ↦ ?_,
    fun u ↦ ?_, hholds⟩
  · show (Function.update s.place t l u).Guard pipe
    rcases eq_or_ne u t with rfl | hne
    · rwa [Function.update_self]
    · rw [Function.update_of_ne hne]
      exact h.guard_of_run hne hnext
  · show (Function.update s.place t l u).Sent pipe
    rcases eq_or_ne u t with rfl | hne
    · rwa [Function.update_self]
    · rw [Function.update_of_ne hne]
      exact (h.sent u).mono hle
  · show (Function.update s.place t l u).Failed pipe (s.killed u)
    rcases eq_or_ne u t with rfl | hne
    · rw [Function.update_self]
      exact Place.failed_of_next hnext
    · rw [Function.update_of_ne hne]
      exact (h.failed u).mono id (isOpen_of_next (w := false) hnext)

/-- **Every step keeps the invariant.** -/
theorem Inv.step (h : s.Inv queue) (hstep : s.step a = .ok s') : ∃ queue', s'.Inv queue' := by
  rcases step_cases hstep with ⟨t, -, hrun⟩ | ⟨hpipe, hmonitor, hkilled, hplace⟩
  · exact h.run hrun
  · have hobeys : Obeys Place.inside Place.waits s.place s'.monitor := by
      rcases hmonitor with hmonitor | ⟨t, hmonitor⟩
      · rw [hmonitor]
        exact h.obeys
      · rw [hmonitor]
        exact h.obeys.wake [t]
    have hfailed : ∀ u, (s.place u).Failed s.pipe (s'.killed u) := by
      intro u
      by_cases hu : s.place u = .user
      · rw [hu]
        trivial
      · exact (h.failed u).mono (fun hk ↦ (hkilled u hk).resolve_right hu) id
    rcases hplace with hplace | ⟨t, l, ht, hcalled, hplace⟩
    · refine ⟨queue, ?_, ?_, ?_, ?_, ?_⟩ <;> simp only [hpipe, hplace]
      · exact hobeys
      · exact h.guard
      · exact h.sent
      · exact hfailed
      · exact h.holds
    · obtain ⟨hout, hguard, hsent, hfail⟩ := hcalled.place_ok
      have hin : (s.place t).inside = false := by rw [ht]; rfl
      have hwaits : (s.place t).waits = none := by rw [ht]; rfl
      refine ⟨queue, ?_, fun u ↦ ?_, fun u ↦ ?_, fun u ↦ ?_, ?_⟩ <;> simp only [hpipe, hplace]
      · exact hobeys.stay (hout.trans hin.symm) (hobeys.awake hwaits)
      · exact forall_update (P := fun _ l ↦ l.Guard s.pipe) hguard h.guard u
      · exact forall_update (P := fun _ l ↦ l.Sent s.pipe) hsent h.sent u
      · exact forall_update (P := fun u l ↦ l.Failed s.pipe (s'.killed u)) (hfail _) hfailed u
      · exact h.holds

theorem inv_of_starts (h : s.Starts) : s.Inv [] := by
  obtain ⟨hnread, hnwrite, -, -, hwritten, htaken, -, hmonitor, hplace, -⟩ := h
  refine ⟨?_, fun t ↦ ?_, fun t ↦ ?_, fun t ↦ ?_, RingBuffer.holds_nil, ?_, ?_, ?_⟩
  · rw [hmonitor]
    refine obeys_idle fun t ↦ ?_
    rw [hplace t]
    rfl
  · rw [hplace t]
    trivial
  · rw [hplace t]
    trivial
  · rw [hplace t]
    trivial
  · rw [hwritten, htaken]
    rfl
  · rw [hnread, htaken]
    rfl
  · rw [hnwrite, hwritten]
    rfl

theorem inv_of_reachable (h : (system τ).Reachable s) : ∃ queue, s.Inv queue :=
  h.invariant (I := fun s ↦ ∃ queue, s.Inv queue) (fun _ h ↦ ⟨[], inv_of_starts h⟩)
    fun _ _ _ ⟨_, h⟩ hstep ↦ h.step hstep

/-! ### What holds of the bytes -/

/-- The pipe is a queue of bytes, and the results of the calls say what happened. -/
structure StreamOk (s : State τ) : Prop where
  /-- What was written and not yet read is in the ring, in order. -/
  queue : ∃ queue, s.pipe.written = s.pipe.taken ++ queue ∧ queue.length ≤ 512 ∧
    (s.pipe.nwrite - s.pipe.nread).toNat = queue.length ∧
    ∀ i x, queue[i]? = some x → s.pipe.data ((s.pipe.nread.toNat + i) % 512) = x
  /-- A `pipewrite` that returns `n` has written its `n` bytes, in order, since it was called. -/
  sent : ∀ t addr n start i, s.place t = .write .release addr n start i →
    ((List.range n.toNat).map addr).Sublist (s.pipe.written.drop start)
  /-- A `pipewrite` that returns -1 was killed, or nobody can read any more. -/
  unsent : ∀ t addr n start i, s.place t = .write .fail addr n start i →
    s.killed t = true ∨ s.pipe.readopen = false
  /-- A `piperead` returns the last bytes that left the pipe, at most `n`. -/
  chunk : ∀ t n got, s.place t = .read .release n got →
    got <:+ s.pipe.taken ∧ got.length ≤ n.toNat
  /-- It returns fewer than `n` only if there are no more, and none at all only if nobody can write
  any more. -/
  short : ∀ t n got, s.place t = .read .release n got → (got.length : ℤ) < n →
    s.pipe.taken = s.pipe.written ∧ (got = [] → s.pipe.writeopen = false)
  /-- A `piperead` that returns -1 was killed. -/
  unread : ∀ t n got, s.place t = .read .fail n got → s.killed t = true

omit [DecidableEq τ] in
theorem Inv.streamOk (h : s.Inv queue) : s.StreamOk := by
  refine ⟨⟨queue, h.holds.written_eq, h.holds.ring.length_le, ?_, fun i x hx ↦ ?_⟩,
    fun t addr n start i ht ↦ ?_, fun t addr n start i ht ↦ ?_, fun t n got ht ↦ ?_,
    fun t n got ht hlt ↦ ?_, fun t n got ht ↦ ?_⟩
  · have hle := h.holds.ring.length_le
    rw [UInt32.toNat_sub, h.holds.nwrite_eq, h.holds.nread_eq, UInt32.toNat_ofNat',
      UInt32.toNat_ofNat', h.holds.length_eq]
    omega
  · have hslot := h.holds.ring.slot i x hx
    have hplace : (s.pipe.nread.toNat + i) % 512 = (s.pipe.taken.length + i) % 512 := by
      rw [h.holds.nread_eq, UInt32.toNat_ofNat']
      omega
    rw [hplace]
    exact Option.some.inj hslot
  · have hsent := h.sent t
    rw [ht] at hsent
    obtain ⟨hsub, -, rfl⟩ := hsent
    exact hsub
  · have hfailed := h.failed t
    rw [ht] at hfailed
    exact hfailed
  · have hguard := h.guard t
    rw [ht] at hguard
    exact ⟨hguard.1.suffix, hguard.1.le⟩
  · have hguard := h.guard t
    rw [ht] at hguard
    have hempty := hguard.2 hlt
    exact ⟨h.holds.taken_eq hempty, fun hnil ↦ hguard.1.eof hnil hempty⟩
  · have hfailed := h.failed t
    rw [ht] at hfailed
    exact hfailed

/-- **A pipe hands over its bytes in order, none lost and none twice**, in every order of steps,
with any number of readers and writers, however often the counters wrap around. -/
theorem streamOk_of_reachable (h : (system τ).Reachable s) : s.StreamOk := by
  obtain ⟨queue, hinv⟩ := inv_of_reachable h
  exact hinv.streamOk

/-- A pipe of two processes, in the hands of the first. -/
def fresh : State Bool where
  pipe :=
    { data := fun _ ↦ 0, nread := 0, nwrite := 0, readopen := true, writeopen := true,
      written := [], taken := [], freed := 0 }
  ref _ := 1
  ofile t _ := if t = false then 1 else 0
  killed _ := false
  monitor := .idle
  place _ := .user

theorem fresh_starts : fresh.Starts :=
  ⟨rfl, rfl, rfl, rfl, rfl, rfl, rfl, rfl, fun _ ↦ rfl, fun _ ↦ rfl, false, fun _ _ ↦ rfl⟩

/-- The child falls asleep in a `piperead`, and the parent writes a byte. -/
def firstByte : List (Act Bool) :=
  [.fork false true, .read true 5, .run true, .run true, .run true, .run true,
    .write false (fun _ ↦ 7) 1] ++ List.replicate 7 (.run false) ++ List.replicate 7 (.run true)

/-- The pipe when the child is about to return. -/
theorem firstByte_streamOk : ∃ s : State Bool, s.pipe.taken = [7] ∧ s.StreamOk := by
  obtain ⟨s, hs, htaken⟩ := System.Reachable.exists_of_run (S := system Bool)
    (f := State.step) (fun _ _ _ h ↦ h) (l := firstByte)
    (p := fun s ↦ decide (s.pipe.taken = [7])) (.init fresh_starts) (by decide)
  exact ⟨s, of_decide_eq_true htaken, streamOk_of_reachable hs⟩

end State

end Pipes
