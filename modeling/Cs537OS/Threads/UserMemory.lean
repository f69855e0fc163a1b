import Cs537OS.Threads.CloneFailure

/-!
# What the calls of threads touch

The bytes that the kernel reads and writes through the arguments of the calls of threads. `argptr`
has only checked that a word is below the size of the process, while the kernel goes on to use a
structure of several words there, and a stack frame nearly a page above it. `cond_wait` and
`cond_signal` take an index from the structure, and `cond_signal` a pointer.

What the kernel reads at an address is a parameter (`w`), since other threads may write there at any
time. An access that faults counts like any other. Addresses from `USERTOP` on are no user space.

`checked_iff` says exactly when a call keeps to the memory of its process.
-/

open Xv6

namespace Threads

namespace Paged

/-- What `clone` writes. -/
def cloneBytes (s : Paged) (p : Slot) (stack : ℕ) : List ℕ :=
  match s.allocproc with
  | (none, _) => []
  | (some _, s) => copyoutBytes (s.userPte p) 8 (sptop stack) 8

/-- What `join` writes when it finds a thread that has exited. -/
def joinBytes (s : Paged) (p : Slot) (stack : ℕ) : List ℕ :=
  if uint (stack + 4) > s.sz p then [] else bytes stack 4

end Paged

/-! ### The fields of `cond_t` -/

def thqueueAddr (condvar i : ℕ) : ℕ := uint (condvar + 4 * i)

def headAddr (condvar : ℕ) : ℕ := condvar + 32

def tailAddr (condvar : ℕ) : ℕ := condvar + 36

def flagAddr (condvar : ℕ) : ℕ := condvar + 40

def countAddr (condvar : ℕ) : ℕ := condvar + 44

/-- The state in the entry of the process table that a pointer points to. -/
def stateAddr (proc : ℕ) : ℕ := uint (proc + 12)

def condInitBytes (condvar : ℕ) : List ℕ :=
  bytes (headAddr condvar) 4 ++ bytes (tailAddr condvar) 4 ++ bytes (flagAddr condvar) 4 ++
    bytes (countAddr condvar) 4

/-- The kernel panics when the lock is free, and when the queue is full. -/
def condWaitBytes (w : ℕ → UInt32) (condvar lock : ℕ) : List ℕ :=
  bytes lock 4 ++
    if w lock = 0 then [] else
      bytes (countAddr condvar) 4 ++
        if w (countAddr condvar) = 8 then [] else
          bytes (flagAddr condvar) 4 ++ bytes (tailAddr condvar) 4 ++
            bytes (thqueueAddr condvar (w (tailAddr condvar)).toNat) 4

/-- Nothing more is done for an empty queue. -/
def condSignalBytes (w : ℕ → UInt32) (condvar : ℕ) : List ℕ :=
  bytes (flagAddr condvar) 4 ++ bytes (countAddr condvar) 4 ++
    if w (countAddr condvar) = 0 then [] else
      bytes (headAddr condvar) 4 ++ bytes (thqueueAddr condvar (w (headAddr condvar)).toNat) 4 ++
        bytes (stateAddr (w (thqueueAddr condvar (w (headAddr condvar)).toNat)).toNat) 4

/-- The addresses in user space are in the memory of a process of size `sz`. -/
def Keeps (sz : ℕ) (bs : List ℕ) : Prop := ∀ b ∈ bs, b < USERTOP → b < sz

/-- A system call with the words of its arguments. -/
inductive Syscall where
  | clone (fcn arg stack : UInt32)
  | join (stack : UInt32)
  | condInit (condvar : UInt32)
  | condWait (condvar lock : UInt32)
  | condSignal (condvar : UInt32)

namespace Syscall

/-- The bytes that are touched through the arguments; none when the wrapper returns -1. -/
def touched (s : Paged) (p : Slot) (w : ℕ → UInt32) : Syscall → Option (List ℕ)
  | .clone fcn arg stack => do
    let _ ← argptr (s.sz p) fcn sizeArgument
    let _ ← argptr (s.sz p) arg sizeArgument
    let stack ← argptr (s.sz p) stack sizeArgument
    some (s.cloneBytes p stack)
  | .join stack => do
    let stack ← argptr (s.sz p) stack sizeArgument
    some (s.joinBytes p stack)
  | .condInit condvar => do
    let condvar ← argptr (s.sz p) condvar sizeArgument
    some (condInitBytes condvar)
  | .condWait condvar lock => do
    let condvar ← argptr (s.sz p) condvar sizeArgument
    let lock ← argptr (s.sz p) lock sizeArgument
    some (condWaitBytes w condvar lock)
  | .condSignal condvar => do
    let condvar ← argptr (s.sz p) condvar sizeArgument
    some (condSignalBytes w condvar)

/-- A `clone` is not refused for the value that the thread is to get. -/
def Accepted (s : Paged) (p : Slot) (w : ℕ → UInt32) : Syscall → Prop
  | .clone fcn arg stack => (argptr (s.sz p) fcn sizeArgument).isSome →
      (argptr (s.sz p) stack sizeArgument).isSome → ((clone fcn arg stack).touched s p w).isSome
  | _ => True

/-- The call touches no user space but the memory of the process, and takes every value for a
thread. -/
structure Checked (s : Paged) (p : Slot) (w : ℕ → UInt32) (c : Syscall) : Prop where
  inside : ∀ bs, c.touched s p w = some bs → Keeps (s.sz p) bs
  accepted : c.Accepted s p w

end Syscall

/-- The `n` bytes at `lo`, where addresses go round at 2 ^ 32, are in the memory of a process of
size `sz`, or no user space. -/
def Inside (sz lo n : ℕ) : Prop :=
  lo + n ≤ sz ∨ USERTOP ≤ lo ∧ lo + n ≤ 2 ^ 32 + sz ∨ USERTOP ≤ sz

/-- The top of the stack of a thread is in memory, or not mapped. -/
def StackInside (sz stack : ℕ) : Prop :=
  stack + PGSIZE ≤ sz ∨ (sz + PGSIZE - 1) / PGSIZE * PGSIZE ≤ stack + PGSIZE - 8 ∨ PGSIZE ∣ sz

/-- What the words of a call, the size of the process and what is read at the words have to be. -/
def Syscall.Fits (s : Paged) (p : Slot) (w : ℕ → UInt32) : Syscall → Prop
  | .clone fcn arg stack => fcn.toNat < s.sz p → stack.toNat < s.sz p → arg.toNat < s.sz p ∧
      ((∀ i, (s.kernel.ptable i).state ≠ .unused) ∨ s.freelist = [] ∨
        StackInside (s.sz p) stack.toNat)
  | .join _ => True
  | .condInit condvar => condvar.toNat < s.sz p → Inside (s.sz p) (headAddr condvar.toNat) 16
  | .condWait condvar lock => condvar.toNat < s.sz p → lock.toNat < s.sz p →
      Inside (s.sz p) lock.toNat 4 ∧
        (w lock.toNat ≠ 0 → Inside (s.sz p) (countAddr condvar.toNat) 4 ∧
          (w (countAddr condvar.toNat) ≠ 8 → Inside (s.sz p) (tailAddr condvar.toNat) 8 ∧
            Inside (s.sz p) (thqueueAddr condvar.toNat (w (tailAddr condvar.toNat)).toNat) 4))
  | .condSignal condvar => condvar.toNat < s.sz p → Inside (s.sz p) (flagAddr condvar.toNat) 8 ∧
      (w (countAddr condvar.toNat) ≠ 0 → Inside (s.sz p) (headAddr condvar.toNat) 4 ∧
        Inside (s.sz p) (thqueueAddr condvar.toNat (w (headAddr condvar.toNat)).toNat) 4 ∧
        Inside (s.sz p)
          (stateAddr (w (thqueueAddr condvar.toNat (w (headAddr condvar.toNat)).toNat)).toNat) 4)

/-- The user pages of a process are those of its memory. -/
def Paged.Mapped (s : Paged) (p : Slot) : Prop :=
  s.sz p ≤ USERTOP ∧ ∀ n, (s.userPte p n).isSome ↔ n * PGSIZE < s.sz p

variable {s : Paged} {p : Slot} {w : ℕ → UInt32} {sz lo n : ℕ}

/-! ### Runs of bytes -/

theorem keeps_nil : Keeps sz [] := fun _ hb ↦ absurd hb List.not_mem_nil

theorem keeps_append {bs bs' : List ℕ} : Keeps sz (bs ++ bs') ↔ Keeps sz bs ∧ Keeps sz bs' :=
  List.forall_mem_append

/-- A range of bytes is kept if it lies in the process. -/
theorem keeps_bytes_iff (hlo : lo < 2 ^ 32) (hpos : 0 < n) (hn : n ≤ USERTOP) :
    Keeps sz (bytes lo n) ↔ Inside sz lo n := by
  have hall : Keeps sz (bytes lo n) ↔
      ∀ i < n, uint (lo + i : ℕ) < USERTOP → uint (lo + i : ℕ) < sz := by
    refine ⟨fun h i hi ↦ h _ (mem_bytes.2 ⟨i, hi, rfl⟩), fun h b hb ↦ ?_⟩
    obtain ⟨i, hi, rfl⟩ := mem_bytes.1 hb
    exact h i hi
  have hbyte : ∀ i < n, lo + i < 2 ^ 32 ∧ uint (lo + i : ℕ) = lo + i ∨
      2 ^ 32 ≤ lo + i ∧ uint (lo + i : ℕ) = lo + i - 2 ^ 32 := fun i hi ↦ by
    rw [USERTOP] at hn
    rw [uint]
    omega
  rw [hall, Inside]
  constructor
  · intro h
    by_contra hno
    -- the first byte of user space that is not in memory
    rcases Nat.lt_or_ge lo USERTOP with huser | hkernel
    · have hfirst := h (max lo sz - lo) (by omega)
      have haddr := hbyte (max lo sz - lo) (by omega)
      unfold USERTOP at *
      omega
    · have hfirst := h (2 ^ 32 + sz - lo) (by unfold USERTOP at *; omega)
      have haddr := hbyte (2 ^ 32 + sz - lo) (by unfold USERTOP at *; omega)
      unfold USERTOP at *
      omega
  · intro h i hi huser
    have haddr := hbyte i hi
    unfold USERTOP at *
    omega

/-- Two runs, one behind the other. -/
theorem keeps_bytes_add (lo m n : ℕ) :
    Keeps sz (bytes lo (m + n)) ↔ Keeps sz (bytes lo m) ∧ Keeps sz (bytes (lo + m) n) := by
  constructor
  · refine fun h ↦ ⟨fun b hb ↦ ?_, fun b hb ↦ ?_⟩ <;> obtain ⟨i, hi, rfl⟩ := mem_bytes.1 hb
    · exact h _ (mem_bytes.2 ⟨i, Nat.lt_add_right n hi, rfl⟩)
    · exact h _ (mem_bytes.2 ⟨m + i, Nat.add_lt_add_left hi m, by rw [Nat.add_assoc]⟩)
  · rintro ⟨hm, hn⟩ b hb
    obtain ⟨i, hi, rfl⟩ := mem_bytes.1 hb
    rcases Nat.lt_or_ge i m with hlt | hge
    · exact hm _ (mem_bytes.2 ⟨i, hlt, rfl⟩)
    · obtain ⟨j, rfl⟩ := Nat.exists_eq_add_of_le hge
      exact hn _ (mem_bytes.2 ⟨j, Nat.lt_of_add_lt_add_left hi, by rw [Nat.add_assoc]⟩)

/-- What is touched only in one case. -/
theorem keeps_ite {c : Prop} [Decidable c] {bs : List ℕ} :
    Keeps sz (if c then [] else bs) ↔ (¬ c → Keeps sz bs) := by
  split_ifs with h
  · exact iff_of_true keeps_nil fun hno ↦ absurd h hno
  · exact (imp_iff_right h).symm

/-! ### The condition variables -/

theorem thqueueAddr_lt (condvar i : ℕ) : thqueueAddr condvar i < 2 ^ 32 := uint_lt _

theorem stateAddr_lt (proc : ℕ) : stateAddr proc < 2 ^ 32 := uint_lt _

/-- `cond_init` keeps to the process if the four counters lie in it, -/
theorem keeps_condInitBytes {condvar : ℕ} (hc : condvar < USERTOP) :
    Keeps sz (condInitBytes condvar) ↔ Inside sz (headAddr condvar) 16 := by
  have haddr : headAddr condvar < 2 ^ 32 := by
    rw [USERTOP] at hc
    rw [headAddr]
    omega
  rw [condInitBytes, keeps_append, keeps_append, keeps_append,
    ← keeps_bytes_iff haddr (by decide) (by decide), show 16 = 4 + 4 + 4 + 4 from rfl,
    keeps_bytes_add,
    keeps_bytes_add, keeps_bytes_add]
  rfl

/-- and `cond_wait` if the words do that it comes to. -/
theorem keeps_condWaitBytes {condvar lock : ℕ} (hc : condvar < USERTOP) (hl : lock < USERTOP) :
    Keeps sz (condWaitBytes w condvar lock) ↔ Inside sz lock 4 ∧
      (w lock ≠ 0 → Inside sz (countAddr condvar) 4 ∧ (w (countAddr condvar) ≠ 8 →
        Inside sz (tailAddr condvar) 8 ∧
          Inside sz (thqueueAddr condvar (w (tailAddr condvar)).toNat) 4)) := by
  have hcount : countAddr condvar < 2 ^ 32 := by
    rw [USERTOP] at hc
    rw [countAddr]
    omega
  have htail : tailAddr condvar < 2 ^ 32 := by
    rw [USERTOP] at hc
    rw [tailAddr]
    omega
  have htwo : Keeps sz (bytes (tailAddr condvar) 8) ↔
      Keeps sz (bytes (tailAddr condvar) 4) ∧ Keeps sz (bytes (flagAddr condvar) 4) :=
    keeps_bytes_add (tailAddr condvar) 4 4
  rw [condWaitBytes, keeps_append, keeps_ite, keeps_append, keeps_ite, keeps_append, keeps_append,
    ← keeps_bytes_iff (lt_of_le_USERTOP hl.le) (by decide) (by decide),
    ← keeps_bytes_iff hcount (by decide) (by decide),
    ← keeps_bytes_iff htail (by decide) (by decide),
    ← keeps_bytes_iff (thqueueAddr_lt _ _) (by decide) (by decide), htwo,
    and_comm (a := Keeps sz (bytes (flagAddr condvar) 4))]

/-- `cond_signal` keeps to the process if the words that it comes to lie in it. -/
theorem keeps_condSignalBytes {condvar : ℕ} (hc : condvar < USERTOP) :
    Keeps sz (condSignalBytes w condvar) ↔ Inside sz (flagAddr condvar) 8 ∧
      (w (countAddr condvar) ≠ 0 → Inside sz (headAddr condvar) 4 ∧
        Inside sz (thqueueAddr condvar (w (headAddr condvar)).toNat) 4 ∧
        Inside sz (stateAddr (w (thqueueAddr condvar (w (headAddr condvar)).toNat)).toNat) 4) := by
  have hflag : flagAddr condvar < 2 ^ 32 := by
    rw [USERTOP] at hc
    rw [flagAddr]
    omega
  have hhead : headAddr condvar < 2 ^ 32 := by
    rw [USERTOP] at hc
    rw [headAddr]
    omega
  have htwo : Keeps sz (bytes (flagAddr condvar) 8) ↔
      Keeps sz (bytes (flagAddr condvar) 4) ∧ Keeps sz (bytes (countAddr condvar) 4) :=
    keeps_bytes_add (flagAddr condvar) 4 4
  rw [condSignalBytes, keeps_append, keeps_append, keeps_ite, keeps_append, keeps_append, ← htwo,
    keeps_bytes_iff hflag (by decide) (by decide), keeps_bytes_iff hhead (by decide) (by decide),
    keeps_bytes_iff (thqueueAddr_lt _ _) (by decide) (by decide),
    keeps_bytes_iff (stateAddr_lt _) (by decide) (by decide),
    and_assoc (a := Inside sz (headAddr condvar) 4)]

/-! ### The stack of a thread -/

/-- An entry that is taken maps nothing for the process. -/
theorem taken_userPte (s : Paged) (p np : Slot) (v : ℕ) (next : List ℕ) :
    (s.taken np v next).userPte p = s.userPte p := by
  have hpgdir : ((s.taken np v next).kernel.ptable p).pgdir = (s.kernel.ptable p).pgdir := by
    rcases eq_or_ne p np with rfl | hne
    · show ((s.kernel.allocEntry p).ptable p).pgdir = _
      rw [Paged.allocEntry_ptable_self]
    · rw [Paged.taken_ptable_of_ne hne]
  exact congrArg s.pte hpgdir

/-- The top of the stack, without a wrap. -/
theorem sptop_eq {stack : ℕ} (h : stack < USERTOP) : Paged.sptop stack = stack + PGSIZE - 8 := by
  rw [USERTOP] at h
  unfold Paged.sptop uint PGSIZE
  omega

/-- What `clone` writes: the bytes of the two words up to the first one that is not mapped, when
there is an entry and a kernel stack. -/
theorem mem_cloneBytes_iff {stack b : ℕ} (hm : s.Mapped p) (hstack : stack < s.sz p) :
    b ∈ s.cloneBytes p stack ↔
      ((∃ i, (s.kernel.ptable i).state = .unused) ∧ s.freelist ≠ []) ∧
        stack + PGSIZE - 8 ≤ b ∧ b < stack + PGSIZE ∧
          ∀ a, stack + PGSIZE - 8 ≤ a → a ≤ b → a / PGSIZE * PGSIZE < s.sz p := by
  rcases s.allocproc_cases with ⟨halloc, hnone⟩ |
    ⟨np, hold, -, ⟨hnil, halloc⟩ | ⟨v, next, hfree, halloc⟩⟩
  · rw [Paged.cloneBytes, halloc]
    exact iff_of_false List.not_mem_nil fun ⟨⟨⟨i, hi⟩, _⟩, _⟩ ↦ hnone i hi
  · rw [Paged.cloneBytes, halloc]
    exact iff_of_false List.not_mem_nil fun ⟨⟨_, hne⟩, _⟩ ↦ hne hnil
  · have hcond : (∃ i, (s.kernel.ptable i).state = .unused) ∧ s.freelist ≠ [] :=
      ⟨⟨np, hold⟩, by rw [hfree]; exact List.cons_ne_nil v next⟩
    have hbytes : s.cloneBytes p stack = copyoutBytes (s.userPte p) 8 (stack + PGSIZE - 8) 8 := by
      rw [Paged.cloneBytes, halloc]
      show copyoutBytes ((s.taken np v next).userPte p) 8 (Paged.sptop stack) 8 = _
      rw [taken_userPte, sptop_eq (hstack.trans_le hm.1)]
    have hsmall : stack + PGSIZE < 2 ^ 31 := by
      have htop := hstack.trans_le hm.1
      rw [USERTOP] at htop
      rw [PGSIZE]
      omega
    have haddr : ∀ i < 8, uint (stack + PGSIZE - 8 + i : ℕ) = stack + PGSIZE - 8 + i := fun i hi ↦
      uint_natCast (by omega)
    have hpage : 8 ≤ PGSIZE := by decide
    have hmem := @mem_copyoutBytes_iff (s.userPte p) 8 (stack + PGSIZE - 8) (Paged.ustack 0)
      (by omega) le_rfl b
    have hlen : (Paged.ustack 0).length = 8 := length_flatMap_wordBytes _
    rw [hlen] at hmem
    rw [and_iff_right hcond, hbytes, hmem]
    constructor
    · rintro ⟨i, hi, rfl, hall⟩
      rw [haddr i hi]
      refine ⟨Nat.le_add_right _ _, by omega, fun a ha hai ↦ ?_⟩
      obtain ⟨j, rfl⟩ := Nat.exists_eq_add_of_le ha
      have hj := hall j (Nat.le_of_add_le_add_left hai)
      rwa [haddr j (by omega), hm.2] at hj
    · rintro ⟨hlo, hhi, hall⟩
      obtain ⟨i, rfl⟩ := Nat.exists_eq_add_of_le hlo
      refine ⟨i, by omega, haddr i (by omega), fun j hj ↦ ?_⟩
      rw [haddr j (by omega), hm.2]
      exact hall _ (Nat.le_add_right _ _) (Nat.add_le_add_left hj _)

/-- `clone` keeps to the process if it does not come to the copy, or the stack lies in it. -/
theorem keeps_cloneBytes {stack : ℕ} (hm : s.Mapped p) (hstack : stack < s.sz p) :
    Keeps (s.sz p) (s.cloneBytes p stack) ↔ (∀ i, (s.kernel.ptable i).state ≠ .unused) ∨
      s.freelist = [] ∨ StackInside (s.sz p) stack := by
  have htop := hm.1
  constructor
  · intro h
    by_contra hno
    obtain ⟨hentry, hno⟩ := not_or.1 hno
    obtain ⟨hpage, hno⟩ := not_or.1 hno
    obtain ⟨i, hi⟩ := not_forall.1 hentry
    obtain ⟨hlow, hno⟩ := not_or.1 hno
    obtain ⟨hhigh, hmul⟩ := not_or.1 hno
    -- the first byte of the two words that is not in memory, on a page that has a part of memory
    have hb : max (stack + PGSIZE - 8) (s.sz p) ∈ s.cloneBytes p stack := by
      refine (mem_cloneBytes_iff hm hstack).2 ⟨⟨⟨i, not_not.1 hi⟩, hpage⟩, Nat.le_max_left _ _, ?_,
        fun a ha hab ↦ ?_⟩
      · unfold PGSIZE at *
        omega
      · rw [Nat.dvd_iff_mod_eq_zero] at hmul
        unfold PGSIZE at *
        omega
    have hout := h _ hb
    unfold USERTOP PGSIZE at *
    omega
  · intro h b hb huser
    obtain ⟨⟨⟨i, hi⟩, hpage⟩, hlo, hhi, hall⟩ := (mem_cloneBytes_iff hm hstack).1 hb
    rcases h with hentry | hnil | hlow | hhigh | hmul
    · exact absurd hi (hentry i)
    · exact absurd hnil hpage
    · omega
    · have hfirst := hall _ le_rfl hlo
      unfold PGSIZE at *
      omega
    · have hlast := hall b hlo le_rfl
      rw [Nat.dvd_iff_mod_eq_zero] at hmul
      unfold PGSIZE at *
      omega

/-- The rest of the user memory of the caller is as it was. -/
theorem clone_frame {arg stack b : ℕ} (hinj : Paging.Injective (s.userPte p))
    (hb : b ∉ s.cloneBytes p stack) :
    Paging.view PGSIZE (s.userPte p) (s.clone p arg stack).2.mem b = s.userView p b := by
  rcases s.allocproc_cases with ⟨halloc, -⟩ | ⟨np, -, -, ⟨-, halloc⟩ | ⟨v, next, -, halloc⟩⟩
  · rw [Paged.clone, halloc]
    rfl
  · rw [Paged.clone, halloc]
    rfl
  · rw [Paged.clone_taken arg stack halloc]
    rw [Paged.cloneBytes, halloc] at hb
    have hlen : (Paged.ustack arg).length = 8 := length_flatMap_wordBytes _
    have hout : b ∉ copyoutBytes (s.userPte p) 8 (Paged.sptop stack) (Paged.ustack arg).length := by
      rw [hlen, ← taken_userPte s p np v next]
      exact hb
    show Paging.view PGSIZE (s.userPte p) (s.copied p np v next arg stack).2 b = _
    rw [Paged.copied, taken_userPte, copyout, hlen]
    exact view_of_notMem_copyoutBytes hinj (uint_lt _) hout

/-! ### The calls -/

theorem argptr_cases (sz : ℕ) (i : UInt32) :
    i.toNat < sz ∧ argptr sz i sizeArgument = some i.toNat ∨
      ¬ i.toNat < sz ∧ argptr sz i sizeArgument = none := by
  rcases em (i.toNat < sz) with hlt | hge
  · exact .inl ⟨hlt, argptr_eq_some_iff.2 ⟨hlt, rfl⟩⟩
  · refine .inr ⟨hge, Option.eq_none_iff_forall_ne_some.2 fun j hj ↦
      hge (argptr_eq_some_iff.1 hj).1⟩

/-- A call that uses one word. -/
theorem keeps_argptr_iff {i : UInt32} {f : ℕ → Option (List ℕ)} :
    (∀ bs, (argptr sz i sizeArgument).bind f = some bs → Keeps sz bs) ↔
      (i.toNat < sz → ∀ bs, f i.toNat = some bs → Keeps sz bs) := by
  rcases argptr_cases sz i with ⟨hlt, harg⟩ | ⟨hge, harg⟩ <;> rw [harg]
  · exact (imp_iff_right hlt).symm
  · exact iff_of_true (fun bs hbs ↦ by cases hbs) fun h ↦ absurd h hge

theorem keeps_some_iff {bs : List ℕ} : (∀ bs', some bs = some bs' → Keeps sz bs') ↔ Keeps sz bs :=
  ⟨fun h ↦ h bs rfl, fun h _ hbs ↦ Option.some.inj hbs ▸ h⟩

/-- The calls of `clone` whose arguments are accepted. -/
theorem Syscall.accepted_clone_iff {fcn arg stack : UInt32} :
    (Syscall.clone fcn arg stack).Accepted s p w ↔
      (fcn.toNat < s.sz p → stack.toNat < s.sz p → arg.toNat < s.sz p) := by
  rw [Accepted, touched]
  rcases argptr_cases (s.sz p) fcn with ⟨hf, hfcn⟩ | ⟨hf, hfcn⟩ <;>
    rcases argptr_cases (s.sz p) arg with ⟨ha, harg⟩ | ⟨ha, harg⟩ <;>
      rcases argptr_cases (s.sz p) stack with ⟨ht, hstack⟩ | ⟨ht, hstack⟩ <;>
        simp [hf, ha, ht, hfcn, harg, hstack]

/-- `join` checks the place that it writes to itself. -/
theorem keeps_joinBytes (s : Paged) (p : Slot) {stack : ℕ} (hm : s.Mapped p)
    (hstack : stack < s.sz p) :
    Keeps (s.sz p) (s.joinBytes p stack) := by
  have hsmall : stack + 4 < 2 ^ 32 := by
    have htop := hstack.trans_le hm.1
    rw [USERTOP] at htop
    omega
  rw [Paged.joinBytes, keeps_ite, keeps_bytes_iff (by omega) (by decide) (by decide)]
  intro hfits
  have hword : uint ((stack : ℤ) + 4) = stack + 4 := uint_natCast hsmall
  rw [hword] at hfits
  exact .inl (Nat.not_lt.1 hfits)

/-- **When the calls of threads keep to the memory of the process.** -/
theorem checked_iff (hm : s.Mapped p) (w : ℕ → UInt32) (c : Syscall) :
    c.Checked s p w ↔ c.Fits s p w := by
  have htop : ∀ {a}, a < s.sz p → a < USERTOP := fun h ↦ h.trans_le hm.1
  have hsplit : c.Checked s p w ↔
      (∀ bs, c.touched s p w = some bs → Keeps (s.sz p) bs) ∧ c.Accepted s p w :=
    ⟨fun h ↦ ⟨h.inside, h.accepted⟩, fun h ↦ ⟨h.1, h.2⟩⟩
  rw [hsplit]
  rcases c with ⟨fcn, arg, stack⟩ | stack | condvar | ⟨condvar, lock⟩ | condvar
  · have hinside :
        (∀ bs, (Syscall.clone fcn arg stack).touched s p w = some bs → Keeps (s.sz p) bs) ↔
        (fcn.toNat < s.sz p → arg.toNat < s.sz p → stack.toNat < s.sz p →
          (∀ i, (s.kernel.ptable i).state ≠ .unused) ∨ s.freelist = [] ∨
            StackInside (s.sz p) stack.toNat) := by
      refine keeps_argptr_iff.trans (imp_congr_right fun _ ↦ ?_)
      refine keeps_argptr_iff.trans (imp_congr_right fun _ ↦ ?_)
      refine keeps_argptr_iff.trans (imp_congr_right fun hstack ↦ ?_)
      exact keeps_some_iff.trans (keeps_cloneBytes hm hstack)
    rw [hinside, Syscall.accepted_clone_iff]
    constructor
    · rintro ⟨hkeeps, haccept⟩ hfcn hstack
      exact ⟨haccept hfcn hstack, hkeeps hfcn (haccept hfcn hstack) hstack⟩
    · intro h
      exact ⟨fun hfcn _ hstack ↦ (h hfcn hstack).2, fun hfcn hstack ↦ (h hfcn hstack).1⟩
  · refine iff_of_true ⟨?_, trivial⟩ trivial
    refine keeps_argptr_iff.2 fun hstack ↦ keeps_some_iff.2 (keeps_joinBytes s p hm hstack)
  · refine (and_iff_left trivial).trans (keeps_argptr_iff.trans (imp_congr_right fun hc ↦ ?_))
    exact keeps_some_iff.trans (keeps_condInitBytes (htop hc))
  · refine (and_iff_left trivial).trans (keeps_argptr_iff.trans (imp_congr_right fun hc ↦ ?_))
    refine keeps_argptr_iff.trans (imp_congr_right fun hl ↦ ?_)
    exact keeps_some_iff.trans (keeps_condWaitBytes (htop hc) (htop hl))
  · refine (and_iff_left trivial).trans (keeps_argptr_iff.trans (imp_congr_right fun hc ↦ ?_))
    exact keeps_some_iff.trans (keeps_condSignalBytes (htop hc))

theorem initPages_mapped (freelist : List ℕ) : (Paged.initPages freelist).Mapped initproc := by
  have hsz : 3 * PGSIZE ≤ USERTOP := by decide
  refine ⟨hsz, fun n ↦ ?_⟩
  show (if n < 3 then some (0x100000 + n * PGSIZE) else none).isSome = true ↔
    n * PGSIZE < 3 * PGSIZE
  split_ifs with hlt
  · exact iff_of_true rfl (Nat.mul_lt_mul_of_pos_right hlt (by decide))
  · exact iff_of_false Bool.false_ne_true fun h ↦ hlt (Nat.lt_of_mul_lt_mul_right h)

/-- A condition variable in the last word of memory is initialised behind it, and a value that is no
address in memory is refused for a thread. -/
theorem initPages_unchecked : (Paged.initPages [0x200000]).Mapped initproc ∧
    ¬ (Syscall.condInit 0x2ffc).Checked (Paged.initPages [0x200000]) initproc (fun _ ↦ 0) ∧
    ¬ (Syscall.clone 0 0x3000 0x1000).Checked (Paged.initPages [0x200000]) initproc fun _ ↦ 0 := by
  refine ⟨initPages_mapped _, fun h ↦ ?_, fun h ↦ ?_⟩
  · have hin := h.inside (condInitBytes 0x2ffc) (by decide +kernel) 0x301c (by decide +kernel)
      (by decide)
    exact absurd hin (by decide +kernel)
  · have hsome := h.accepted (by decide +kernel) (by decide +kernel)
    exact absurd hsome (by decide +kernel)

/-- In the middle of memory it is all right. -/
theorem initPages_checked : (Syscall.condInit 0x2000).Checked (Paged.initPages [0x200000]) initproc
    fun _ ↦ 0 := by
  refine (checked_iff (initPages_mapped _) _ _).2 fun _ ↦ .inl ?_
  have hsz : (Paged.initPages [0x200000]).sz initproc = 3 * PGSIZE := by decide +kernel
  have hhead : headAddr (0x2000 : UInt32).toNat = 0x2020 := by decide
  rw [hsz, hhead]
  rw [PGSIZE]
  omega

end Threads
