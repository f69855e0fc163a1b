import Cs537OS.StackReloc.Image

/-!
# The arguments on the new stack

The loop of `exec` that pushes the arguments fails when `copyout` comes to a page that is not
mapped. As a push moves the stack pointer by less than user memory is large, and the page below the
lowest one of the stack is not mapped, it cannot jump over that page: the pushes succeed exactly
when all of them together fit between the lowest page and the top.
-/

open Xv6

namespace StackReloc.Elf

/-- What a push of `n` bytes takes, as the stack pointer is kept a multiple of 4. -/
def padded (n : ℕ) : ℕ := (n + 3) / 4 * 4

/-- What the argument strings take. -/
def argBytes (argv : List ℕ) : ℕ := (argv.map fun len ↦ padded (len + 1)).sum

/-- What is pushed in all: the strings, their addresses and what else `main` finds on the stack. -/
def stackBytes (argv : List ℕ) : ℕ := argBytes argv + (argv.length + 4) * 4

/-- The user pages from `low` to the top of user memory are mapped, and the page below is not. -/
structure MappedFrom (m : Vm) (low : ℕ) : Prop where
  aligned : low % PGSIZE = 0
  pos : PGSIZE ≤ low
  le_top : low ≤ USERTOP
  mapped : ∀ n, low / PGSIZE ≤ n → n < USERTOP / PGSIZE → (m.pte n).isSome
  below : m.pte (low / PGSIZE - 1) = none
  above : ∀ n, USERTOP / PGSIZE ≤ n → m.pte n = none

variable {m : Vm} {low sp n va : ℕ}

/-- A copy within user memory succeeds when all the pages that it touches are mapped. -/
theorem copyout_iff (hn : n ≠ 0) (htop : va + n ≤ USERTOP) :
    copyout m va n = true ↔
      ∀ p, va / PGSIZE ≤ p → p * PGSIZE < va + n → (m.pte p).isSome := by
  have hpage : ∀ p, p * PGSIZE < va + n → uint ((p * PGSIZE : ℕ) : ℤ) / PGSIZE = p := by
    intro p hp
    rw [uint_natCast (lt_of_le_USERTOP (hp.le.trans htop)), Nat.mul_div_cancel p (by decide)]
  rw [copyout, beq_false_of_ne hn, Bool.false_or, List.all_eq_true]
  constructor
  · intro h p hle hp
    have haddr : va / PGSIZE * PGSIZE + (p - va / PGSIZE) * PGSIZE = p * PGSIZE := by
      rw [← Nat.add_mul, Nat.add_sub_cancel' hle]
    have hsome := h (p * PGSIZE) (Vm.mem_pages.2 ⟨p - va / PGSIZE, haddr.symm, hp⟩)
    rwa [hpage p hp] at hsome
  · intro h a ha
    obtain ⟨i, rfl, hi⟩ := Vm.mem_pages.1 ha
    rw [← Nat.add_mul] at hi ⊢
    rw [hpage _ hi]
    exact h _ (Nat.le_add_right _ i) hi

theorem copyout_of_not_mapped (hn : n ≠ 0) (hva : va < 2 ^ 32) (h : m.pte (va / PGSIZE) = none) :
    copyout m va n = false := by
  have hfirst : va / PGSIZE * PGSIZE ∈ Vm.pages (va / PGSIZE * PGSIZE) (va + n) := by
    rw [Vm.pages_of_lt (by unfold PGSIZE; omega)]
    exact List.mem_cons_self
  have hpage : uint ((va / PGSIZE * PGSIZE : ℕ) : ℤ) / PGSIZE = va / PGSIZE := by
    rw [uint_natCast ((Nat.div_mul_le_self va _).trans_lt hva), Nat.mul_div_cancel _ (by decide)]
  rw [copyout, beq_false_of_ne hn, Bool.false_or, List.all_eq_false]
  refine ⟨_, hfirst, ?_⟩
  rw [hpage, h]
  exact Bool.false_ne_true

/-- A push that goes below null ends up above user memory. -/
theorem copyout_of_wrap (hm : MappedFrom m low) (hsp : sp ≤ USERTOP) (hn : n ≤ USERTOP)
    (hlt : sp < n) : copyout m (uint ((sp : ℤ) - n) / 4 * 4) n = false := by
  have hwrap : uint ((sp : ℤ) - n) = 2 ^ 32 + sp - n := by
    rw [USERTOP] at hsp hn
    rw [uint]
    omega
  rw [hwrap]
  refine copyout_of_not_mapped (Nat.ne_zero_of_lt hlt) (by omega) (hm.above _ ?_)
  unfold USERTOP at *
  rw [PGSIZE]
  omega

/-- A push succeeds when it stays above the lowest page of the stack. -/
theorem copyout_push_iff (hm : MappedFrom m low) (hlow : low ≤ sp) (hsp : sp ≤ USERTOP)
    (hmod : sp % 4 = 0) (hpos : n ≠ 0) (hn : n ≤ USERTOP) :
    copyout m (uint ((sp : ℤ) - n) / 4 * 4) n = true ↔ low + padded n ≤ sp := by
  have haligned : low % PGSIZE = 0 := hm.aligned
  have hlow₁ : PGSIZE ≤ low := hm.pos
  rcases Nat.lt_or_ge sp n with hlt | hge
  · rw [copyout_of_wrap hm hsp hn hlt]
    refine ⟨fun h ↦ (by cases h), fun h ↦ ?_⟩
    rw [padded] at h
    omega
  · -- the push goes to `va`, and its last byte is within a word of `sp`
    have hva : uint ((sp : ℤ) - n) / 4 * 4 + padded n = sp := by
      rw [uint_sub hge (lt_of_le_USERTOP hsp)]
      rw [padded]
      omega
    generalize uint ((sp : ℤ) - n) / 4 * 4 = va at hva
    have hpad : n ≤ padded n ∧ padded n < n + 4 ∧ padded n % 4 = 0 := by
      rw [padded]
      omega
    have hiff : low + padded n ≤ sp ↔ low ≤ va := by omega
    rw [copyout_iff hpos (by omega), hiff]
    constructor
    · -- otherwise the bytes reach into the page below `low`, which is not mapped
      intro h
      by_contra hbelow
      have hpage : va / PGSIZE ≤ low / PGSIZE - 1 := by
        unfold PGSIZE at *
        omega
      have hsome := h _ hpage (by unfold PGSIZE at *; omega)
      rw [hm.below] at hsome
      cases hsome
    · intro hle p hp hlt
      have htop : p < USERTOP / PGSIZE := by
        rw [USERTOP] at hsp
        unfold USERTOP PGSIZE at *
        omega
      exact hm.mapped p ((Nat.div_le_div_right hle).trans hp) htop

/-- The stack pointer after a push that succeeds. -/
theorem push_eq (hsp : sp ≤ USERTOP) (hmod : sp % 4 = 0) (h : padded n ≤ sp) :
    uint ((sp : ℤ) - n) / 4 * 4 = sp - padded n := by
  have hle : n ≤ sp := by
    rw [padded] at h
    omega
  rw [uint_sub hle (lt_of_le_USERTOP hsp)]
  rw [padded]
  omega

theorem padded_mod (n : ℕ) : padded n % 4 = 0 := Nat.mul_mod_left _ 4

theorem argBytes_mod (argv : List ℕ) : argBytes argv % 4 = 0 := by
  induction argv with
  | nil => rfl
  | cons len argv ih =>
    have hlen := padded_mod (len + 1)
    show (padded (len + 1) + argBytes argv) % 4 = 0
    omega

theorem pushArgs_cons {len argc : ℕ} {argv : List ℕ} (hargc : argc < MAXARG) :
    pushArgs m (len :: argv) argc sp =
      if copyout m (uint ((sp : ℤ) - (len + 1 : ℕ)) / 4 * 4) (len + 1) then
        pushArgs m argv (argc + 1) (uint ((sp : ℤ) - (len + 1 : ℕ)) / 4 * 4)
      else
        none := by
  rw [pushArgs, if_neg (Nat.not_le.2 hargc), Nat.cast_succ]

/-- The loop that pushes the strings goes through when they fit. -/
theorem pushArgs_eq (hm : MappedFrom m low) {argv : List ℕ} {argc : ℕ} (hlow : low ≤ sp)
    (hsp : sp ≤ USERTOP) (hmod : sp % 4 = 0) (hargc : argc + argv.length ≤ MAXARG)
    (hlen : ∀ len ∈ argv, len < USERTOP) :
    pushArgs m argv argc sp =
      if low + argBytes argv ≤ sp then some (argc + argv.length, sp - argBytes argv) else none := by
  induction argv generalizing argc sp with
  | nil => exact (if_pos hlow).symm
  | cons len argv ih =>
    obtain ⟨hlen₁, hlen⟩ := List.forall_mem_cons.1 hlen
    have hcons : argBytes (len :: argv) = padded (len + 1) + argBytes argv := rfl
    have hlength : (len :: argv).length = argv.length + 1 := rfl
    have hpush := copyout_push_iff hm hlow hsp hmod (Nat.succ_ne_zero len) hlen₁
    rw [pushArgs_cons (by omega), hcons, hlength]
    rcases Nat.lt_or_ge sp (low + padded (len + 1)) with hfull | hroom
    · rw [if_neg fun h ↦ absurd (hpush.1 h) (Nat.not_le.2 hfull), if_neg (by omega)]
    · have hpad := padded_mod (len + 1)
      have hsp' := push_eq (n := len + 1) hsp hmod (by omega)
      rw [if_pos (hpush.2 hroom), hsp',
        ih (by omega) (by omega) (by omega) (by omega) hlen]
      refine if_congr (by omega) (congrArg some (Prod.ext ?_ ?_)) rfl
      · show argc + 1 + argv.length = argc + (argv.length + 1)
        omega
      · show sp - padded (len + 1) - argBytes argv = sp - (padded (len + 1) + argBytes argv)
        omega

/-- The arguments are pushed exactly when the whole of what is pushed fits above `low`. -/
theorem pushStack_isSome_iff (hm : MappedFrom m low) {argv : List ℕ} (hargc : argv.length < MAXARG)
    (hlen : ∀ len ∈ argv, len < USERTOP) :
    (pushStack m argv USERTOP).isSome ↔ low + stackBytes argv ≤ USERTOP := by
  have hargs : pushArgs m argv 0 USERTOP = _ :=
    pushArgs_eq hm hm.le_top le_rfl (by decide) (by omega) hlen
  have hmod := argBytes_mod argv
  rw [pushStack, hargs, Nat.zero_add]
  split_ifs with hfit
  · -- the rest of the stack is one more push, of a multiple of 4 bytes
    have hsp : (USERTOP - argBytes argv) % 4 = 0 := by
      rw [USERTOP]
      omega
    have hrest : padded ((3 + argv.length + 1) * 4) = (3 + argv.length + 1) * 4 := by
      rw [padded]
      omega
    have hword : ∀ n : ℕ, n % 4 = 0 →
        uint (((USERTOP - argBytes argv : ℕ) : ℤ) - n) / 4 * 4 =
          uint (((USERTOP - argBytes argv : ℕ) : ℤ) - n) := by
      intro n hn
      rw [uint]
      omega
    have hsmall : (3 + argv.length + 1) * 4 ≤ USERTOP := by
      rw [MAXARG] at hargc
      rw [USERTOP]
      omega
    have hroom : low ≤ USERTOP - argBytes argv := by omega
    have hcopy := copyout_push_iff hm hroom (Nat.sub_le _ _) hsp (by omega) hsmall
    rw [hword _ (Nat.mul_mod_left _ 4), hrest] at hcopy
    push_cast at hcopy
    have hsum : low + (3 + argv.length + 1) * 4 ≤ USERTOP - argBytes argv ↔
        low + stackBytes argv ≤ USERTOP := by
      rw [stackBytes]
      omega
    rw [← hsum, ← hcopy]
    show (if copyout m _ _ then some _ else none : Option ℕ).isSome ↔ _
    split_ifs with h
    · exact iff_of_true rfl h
    · exact iff_of_false Bool.false_ne_true h
  · refine ⟨fun h ↦ (by cases h), fun h ↦ absurd ?_ hfit⟩
    rw [stackBytes] at h
    omega

end StackReloc.Elf
