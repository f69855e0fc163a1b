import Cs537OS.StackReloc.Caller

/-!
# The arguments of a program

What `main` finds when `exec` has put a new program in the place of the old one. The strings are
pushed one below the other, and below them, in one block, the array of their addresses and the frame
of `main`. The pushes lie apart (`placed_apart`), so each is there in the end as it was written.

* `exec_handed` — for a program that ends two pages below `USERTOP` the page below the stack is not
  mapped, and what is pushed is in the top page. The strings are those of the caller when the data
  of the program lies in user memory;
* `strayData_not_handed` — `exec` does not check this, and a segment whose end wraps can be loaded
  over the arguments before they are pushed.

A larger program may have arguments pushed over it.
-/

open Xv6 Paging

namespace StackReloc.Contents

open Elf (Task File Stop padded argBytes stackBytes)

/-- What is built on the new stack, as addresses and sizes: the frame of `main`, the array of
addresses with its null, and the strings. -/
def areas (esp av : ℕ) (ptrs : List ℕ) (argv : List (List UInt8)) : List (ℕ × ℕ) :=
  (esp, 12) :: (av, 4 * (argv.length + 1)) :: (ptrs.zip argv).map fun x ↦ (x.1, x.2.length + 1)

/-- `main` finds the arguments `argv` when it starts with the stack pointer `esp`: its return
address, `argc` and the array `av` of the addresses `ptrs`. -/
structure Handed (v : ℕ → Option UInt8) (esp : ℕ) (argv : List (List UInt8)) (av : ℕ)
    (ptrs : List ℕ) : Prop where
  returnAddress : word v esp = some 0xffffffff
  argumentCount : word v (esp + 4) = some argv.length
  argumentArray : word v (esp + 8) = some av
  length : ptrs.length = argv.length
  ptr : ∀ i, ∀ h : i < ptrs.length, word v (av + 4 * i) = some ptrs[i]
  null : word v (av + 4 * argv.length) = some 0
  strings : ∀ x ∈ ptrs.zip argv, StringAt v x.1 x.2
  apart : (areas esp av ptrs argv).Pairwise fun x y ↦ x.1 + x.2 ≤ y.1 ∨ y.1 + y.2 ≤ x.1
  top : ∀ x ∈ areas esp av ptrs argv, USERTOP - PGSIZE ≤ x.1 ∧ x.1 + x.2 ≤ USERTOP

/-- The loop over the program headers has loaded a program of size `sz` into the address space
`s`. -/
def Loads (t : Task) (r : Ram) (file : Option File) (sz : ℕ) (s : Space) : Prop :=
  ∃ f d r', file = some f ∧ setupkvm r = (some d, r') ∧
    loadProgram t f f.phdrs (2 * PGSIZE) ⟨d.user, r'⟩ = .ok ⟨some sz, s⟩

variable {v : ℕ → Option UInt8} {a : ℕ}

/-! ### Strings -/

/-- Where the argument strings go: each below the one before, at a multiple of 4. -/
def placed : List (List UInt8) → ℕ → List (Patch UInt8)
  | [], _ => []
  | s :: argv, sp =>
    ⟨sp - padded (s.length + 1), s ++ [0]⟩ :: placed argv (sp - padded (s.length + 1))

theorem length_placed (argv : List (List UInt8)) (sp : ℕ) :
    (placed argv sp).length = argv.length := by
  induction argv generalizing sp with
  | nil => rfl
  | cons s argv ih => exact congrArg (· + 1) (ih _)

theorem le_padded (n : ℕ) : n ≤ padded n := by
  rw [padded]
  omega

/-- The strings are in what the pushes take. -/
theorem placed_bounds {argv : List (List UInt8)} {sp : ℕ}
    (hfit : argBytes (argv.map List.length) ≤ sp) :
    ∀ p ∈ placed argv sp, sp - argBytes (argv.map List.length) ≤ p.off ∧
      p.off + p.vals.length ≤ sp := by
  induction argv generalizing sp with
  | nil => exact fun p hp ↦ absurd hp List.not_mem_nil
  | cons s argv ih =>
    have hcons : argBytes ((s :: argv).map List.length) =
        padded (s.length + 1) + argBytes (argv.map List.length) := rfl
    rw [hcons] at hfit ⊢
    intro p hp
    rcases List.mem_cons.1 hp with rfl | hp
    · have hle := le_padded (s.length + 1)
      show sp - _ ≤ sp - padded (s.length + 1) ∧ sp - padded (s.length + 1) + (s ++ [0]).length ≤ sp
      rw [List.length_append, List.length_singleton]
      omega
    · have hrest := ih (by omega) p hp
      omega

/-- **The strings lie apart**, each below the ones before. -/
theorem placed_apart {argv : List (List UInt8)} {sp : ℕ}
    (hfit : argBytes (argv.map List.length) ≤ sp) : (placed argv sp).Pairwise Patch.Apart := by
  induction argv generalizing sp with
  | nil => exact .nil
  | cons s argv ih =>
    have hcons : argBytes ((s :: argv).map List.length) =
        padded (s.length + 1) + argBytes (argv.map List.length) := rfl
    rw [hcons] at hfit
    have hrest : argBytes (argv.map List.length) ≤ sp - padded (s.length + 1) := by omega
    exact .cons (fun p hp ↦ .inr (placed_bounds hrest p hp).2) (ih hrest)

theorem mem_zip_placed {argv : List (List UInt8)} {sp : ℕ} {x : ℕ × List UInt8}
    (hx : x ∈ ((placed argv sp).map Patch.off).zip argv) :
    (⟨x.1, x.2 ++ [0]⟩ : Patch UInt8) ∈ placed argv sp := by
  induction argv generalizing sp with
  | nil => exact absurd hx List.not_mem_nil
  | cons s argv ih =>
    rcases List.mem_cons.1 hx with rfl | hx
    · exact List.mem_cons_self
    · exact List.mem_cons_of_mem _ (ih hx)

/-- The areas of the strings are those of their patches. -/
theorem map_zip_placed (argv : List (List UInt8)) (sp : ℕ) :
    ((((placed argv sp).map Patch.off).zip argv).map fun x ↦ (x.1, x.2.length + 1)) =
      (placed argv sp).map fun p ↦ (p.off, p.vals.length) := by
  induction argv generalizing sp with
  | nil => rfl
  | cons s argv ih =>
    rw [placed, List.map_cons, List.zip_cons_cons, List.map_cons, List.map_cons, ih,
      List.length_append, List.length_singleton]

/-! ### The pushes -/

variable {t : Task} {pte : ℕ → Option ℕ} {mem mem' : ℕ → Page} {freelist ptrs : List ℕ} {low : ℕ}

/-- What a push within the stack writes. -/
theorem view_push {va : ℕ} {buf : List UInt8} (hinj : Injective pte)
    (hva : va + buf.length ≤ USERTOP)
    (hok : (copyout pte va buf mem).1 = true) :
    view PGSIZE pte (copyout pte va buf mem).2 =
      Patch.writeAll (view PGSIZE pte mem) [seen ⟨va, buf⟩] :=
  view_copyout hinj (lt_of_le_USERTOP hva).le hok

/-- **The loop that pushes the strings**, when it goes through. -/
theorem pushArgs_spec (hm : Elf.MappedFrom ⟨pte, freelist⟩ low) (hinj : Injective pte)
    (hpte : ∀ k pa, pte k = some pa → t.Foreign pa) {argv : List (List UInt8)} {ustack : List ℕ}
    {sp : ℕ} {r : List ℕ × ℕ} (hlow : low ≤ sp) (hsp : sp ≤ USERTOP) (hmod : sp % 4 = 0)
    (hargc : ustack.length + argv.length ≤ Elf.MAXARG) (hargs : ArgsAt t mem ptrs argv)
    (h : pushArgs t pte ptrs ustack sp mem = .ok (some r, mem')) :
    low + argBytes (argv.map List.length) ≤ sp ∧
      r = (ustack ++ (placed argv sp).map Patch.off, sp - argBytes (argv.map List.length)) ∧
      view PGSIZE pte mem' =
        Patch.writeAll (view PGSIZE pte mem) ((placed argv sp).map seen) := by
  induction argv generalizing ptrs ustack sp mem with
  | nil =>
    cases hargs
    obtain ⟨hr, rfl⟩ := Prod.mk.inj (Except.ok.inj h)
    obtain rfl := Option.some.inj hr
    exact ⟨hlow, Prod.ext (List.append_nil ustack).symm rfl, rfl⟩
  | cons s argv ih =>
    cases hargs with
    | cons hs hargs =>
    have hlen₁ : s.length < USERTOP := hs.length_lt
    have hcons : argBytes ((s :: argv).map List.length) =
        padded (s.length + 1) + argBytes (argv.map List.length) := rfl
    have hlength : (s :: argv).length = argv.length + 1 := rfl
    have hbuf : (s ++ [0]).length = s.length + 1 := List.length_append
    have hva : uint ((sp : ℤ) - (s.length + 1 : ℕ)) / 4 * 4 < 2 ^ 32 :=
      (Nat.div_mul_le_self _ 4).trans_lt (uint_lt _)
    have hcopy := copyout_fst pte freelist hva (s ++ [0]) mem
    rw [pushArgs, if_neg (by omega), hs.cstring_eq_ok] at h
    rw [hcons]
    rw [hbuf] at hcopy
    push_cast at hcopy
    dsimp only [bind, Except.bind] at h
    split_ifs at h with hok
    · have hroom : low + padded (s.length + 1) ≤ sp := by
        refine (Elf.copyout_push_iff hm hlow hsp hmod (Nat.succ_ne_zero s.length) hlen₁).1 ?_
        push_cast
        exact hcopy.symm.trans hok
      have hpad := Elf.padded_mod (s.length + 1)
      have hle := le_padded (s.length + 1)
      have hsp' := Elf.push_eq (n := s.length + 1) hsp hmod (by omega)
      push_cast at hsp'
      rw [hsp'] at h hok
      obtain ⟨hfit, hr, hview⟩ := ih (by omega) (by omega) (by omega)
        (by rw [List.length_append, List.length_singleton]; omega)
        (ArgsAt.copyout hargs hpte _ _) h
      refine ⟨by omega, ?_, ?_⟩
      · rw [hr, placed, List.map_cons, List.append_assoc, List.singleton_append, Nat.sub_sub]
      · have hpush := view_push hinj (by rw [hbuf]; omega) hok
        rw [hview, hpush, ← Patch.writeAll_append]
        rfl
    · cases (Prod.mk.inj (Except.ok.inj h)).1

/-- The block that is pushed below the strings. -/
def block (argv : List (List UInt8)) (esp : ℕ) : Patch UInt8 :=
  ⟨esp, ([0xffffffff, argv.length, esp + 12] ++ (placed argv USERTOP).map Patch.off ++ [0]).flatMap
    wordBytes⟩

/-- **All the pushes**, when they go through. -/
theorem pushStack_spec (hm : Elf.MappedFrom ⟨pte, freelist⟩ low) (hinj : Injective pte)
    (hpte : ∀ k pa, pte k = some pa → t.Foreign pa) {argv : List (List UInt8)} {esp : ℕ}
    (hargc : argv.length < Elf.MAXARG) (hargs : ArgsAt t mem ptrs argv)
    (h : pushStack t pte ptrs USERTOP mem = .ok (some esp, mem')) :
    low + stackBytes (argv.map List.length) ≤ USERTOP ∧
      esp = USERTOP - stackBytes (argv.map List.length) ∧
      view PGSIZE pte mem' = Patch.writeAll (view PGSIZE pte mem)
        ((placed argv USERTOP ++ [block argv esp]).map seen) := by
  obtain ⟨c, hc, hfst⟩ := pushStack_fst hpte freelist hargs USERTOP
  obtain rfl := Except.ok.inj (h.symm.trans hc)
  have hfit : low + stackBytes (argv.map List.length) ≤ USERTOP := by
    refine (Elf.pushStack_isSome_iff hm ?_ ?_).1 (by rw [← hfst]; rfl)
    · rwa [List.length_map]
    · exact List.forall_mem_map.2 hargs.length_lt
  have hstack : stackBytes (argv.map List.length) =
      argBytes (argv.map List.length) + (argv.length + 4) * 4 := by
    rw [stackBytes, List.length_map]
  obtain ⟨⟨r, mem₁⟩, hpush, h⟩ := GuardedLoop.bind_eq_ok_iff.1 h
  rcases r with - | r
  · cases h
  obtain ⟨hfit₁, rfl, hview⟩ := pushArgs_spec hm hinj hpte hm.le_top le_rfl (by decide)
    (by rw [List.length_nil]; omega) hargs hpush
  rw [List.nil_append] at h
  have hptrs : ((placed argv USERTOP).map Patch.off).length = argv.length := by
    rw [List.length_map, length_placed]
  have hcopy : ∀ n : ℕ, n ≤ argv.length + 4 →
      uint (((USERTOP - argBytes (argv.map List.length) : ℕ) : ℤ) - n * 4) =
        USERTOP - argBytes (argv.map List.length) - n * 4 := fun n hn ↦ by
    have hsub := uint_sub (x := USERTOP - argBytes (argv.map List.length)) (y := n * 4) (by omega)
      (lt_of_le_USERTOP (Nat.sub_le _ _))
    push_cast at hsub
    exact hsub
  have hesp :
      uint (((USERTOP - argBytes (argv.map List.length) : ℕ) : ℤ) - (3 + argv.length + 1) * 4) =
      USERTOP - stackBytes (argv.map List.length) := by
    have hsub := hcopy (3 + argv.length + 1) (by omega)
    push_cast at hsub
    rw [hsub]
    omega
  have hav : uint (((USERTOP - argBytes (argv.map List.length) : ℕ) : ℤ) - (argv.length + 1) * 4) =
      USERTOP - stackBytes (argv.map List.length) + 12 := by
    have hsub := hcopy (argv.length + 1) (by omega)
    push_cast at hsub
    rw [hsub]
    omega
  have h := Except.ok.inj h
  rw [pushFrame, frame, hptrs, hesp, hav] at h
  obtain ⟨hok, rfl⟩ := Prod.mk.inj h
  split_ifs at hok with hok'
  obtain rfl := Option.some.inj hok
  refine ⟨hfit, rfl, ?_⟩
  have hblock : USERTOP - stackBytes (argv.map List.length) +
      (block argv (USERTOP - stackBytes (argv.map List.length))).vals.length ≤ USERTOP := by
    rw [block, length_flatMap_wordBytes, List.length_append, List.length_append, hptrs]
    show _ + (3 + argv.length + 1) * 4 ≤ _
    omega
  have hpush := view_push hinj hblock hok'
  rw [List.map_append, Patch.writeAll_append, ← hview]
  exact hpush

theorem length_block (argv : List (List UInt8)) (esp : ℕ) :
    (block argv esp).vals.length = (argv.length + 4) * 4 := by
  rw [block, length_flatMap_wordBytes, List.length_append, List.length_append, List.length_map,
    length_placed]
  show (3 + argv.length + 1) * 4 = _
  omega

/-- What is pushed lies apart, from the stack pointer to the top. -/
theorem pushes_apart {argv : List (List UInt8)}
    (hfit : stackBytes (argv.map List.length) ≤ USERTOP) :
    (placed argv USERTOP ++ [block argv (USERTOP - stackBytes (argv.map List.length))]).Pairwise
        Patch.Apart ∧
      ∀ p ∈ placed argv USERTOP ++ [block argv (USERTOP - stackBytes (argv.map List.length))],
        USERTOP - stackBytes (argv.map List.length) ≤ p.off ∧ p.off + p.vals.length ≤ USERTOP := by
  have hstack : stackBytes (argv.map List.length) =
      argBytes (argv.map List.length) + (argv.length + 4) * 4 := by
    rw [stackBytes, List.length_map]
  have hargs : argBytes (argv.map List.length) ≤ USERTOP := by omega
  have hblock := length_block argv (USERTOP - stackBytes (argv.map List.length))
  have hoff : (block argv (USERTOP - stackBytes (argv.map List.length))).off =
      USERTOP - stackBytes (argv.map List.length) := rfl
  constructor
  · refine List.pairwise_append.2 ⟨placed_apart hargs, List.pairwise_singleton _ _,
      fun p hp q hq ↦ ?_⟩
    obtain rfl := List.mem_singleton.1 hq
    have hp := (placed_bounds hargs p hp).1
    exact .inr (by omega)
  · intro p hp
    rcases List.mem_append.1 hp with hp | hp
    · have hp := placed_bounds hargs p hp
      omega
    · obtain rfl := List.mem_singleton.1 hp
      omega

/-- The words of the block are addresses of the stack, or small. -/
theorem words_lt {argv : List (List UInt8)} {esp : ℕ} (hargc : argv.length < Elf.MAXARG)
    (hesp : esp ≤ USERTOP) (hargs : argBytes (argv.map List.length) ≤ USERTOP) :
    ∀ w ∈ [0xffffffff, argv.length, esp + 12] ++ (placed argv USERTOP).map Patch.off ++ [0],
      w < 2 ^ 32 := by
  have hmax : argv.length < 32 := hargc
  have huser : USERTOP < 2 ^ 31 := by decide
  intro w hw
  rcases List.mem_append.1 hw with hw | hw
  · rcases List.mem_append.1 hw with hw | hw
    · simp only [List.mem_cons, List.not_mem_nil, or_false] at hw
      omega
    · obtain ⟨p, hp, rfl⟩ := List.mem_map.1 hw
      have hbound := (placed_bounds hargs p hp).2
      omega
  · rw [List.mem_singleton.1 hw]
    exact Nat.two_pow_pos 32

/-- The frame, the array and the strings lie one above the other. -/
theorem areas_apart {argv : List (List UInt8)} {esp : ℕ}
    (hargs : argBytes (argv.map List.length) ≤ USERTOP)
    (hstrings : ∀ p ∈ placed argv USERTOP, esp + 12 + 4 * (argv.length + 1) ≤ p.off) :
    (areas esp (esp + 12) ((placed argv USERTOP).map Patch.off) argv).Pairwise
      fun x y ↦ x.1 + x.2 ≤ y.1 ∨ y.1 + y.2 ≤ x.1 := by
  rw [areas, map_zip_placed]
  refine .cons (fun x hx ↦ .inl ?_) (.cons (fun x hx ↦ .inl ?_) ?_)
  · rcases List.mem_cons.1 hx with rfl | hx
    · exact le_rfl
    · obtain ⟨p, hp, rfl⟩ := List.mem_map.1 hx
      exact (Nat.le_add_right _ _).trans (hstrings p hp)
  · obtain ⟨p, hp, rfl⟩ := List.mem_map.1 hx
    exact hstrings p hp
  · exact List.pairwise_map.2 (placed_apart hargs)

/-- The frame, the array and the strings are in the top page, when the frame is. -/
theorem areas_top {argv : List (List UInt8)} {esp : ℕ} (hlow : USERTOP - PGSIZE ≤ esp)
    (htop : esp + 12 + 4 * (argv.length + 1) ≤ USERTOP)
    (hstrings : ∀ p ∈ placed argv USERTOP, esp + 12 + 4 * (argv.length + 1) ≤ p.off ∧
      p.off + p.vals.length ≤ USERTOP) :
    ∀ x ∈ areas esp (esp + 12) ((placed argv USERTOP).map Patch.off) argv,
      USERTOP - PGSIZE ≤ x.1 ∧ x.1 + x.2 ≤ USERTOP := by
  rw [areas, map_zip_placed]
  intro x hx
  rcases List.mem_cons.1 hx with rfl | hx
  · show USERTOP - PGSIZE ≤ esp ∧ esp + 12 ≤ USERTOP
    omega
  rcases List.mem_cons.1 hx with rfl | hx
  · show USERTOP - PGSIZE ≤ esp + 12 ∧ esp + 12 + 4 * (argv.length + 1) ≤ USERTOP
    omega
  · obtain ⟨p, hp, rfl⟩ := List.mem_map.1 hx
    have hbound := hstrings p hp
    exact ⟨by omega, hbound.2⟩

/-- The strings and the block below them make up what `main` is to find. -/
theorem handed_of_holds {argv : List (List UInt8)} {esp : ℕ} (hargc : argv.length < Elf.MAXARG)
    (hfit : stackBytes (argv.map List.length) ≤ PGSIZE)
    (hesp : esp = USERTOP - stackBytes (argv.map List.length))
    (hall : ∀ p ∈ placed argv USERTOP ++ [block argv esp], (seen p).Holds v) :
    Handed v esp argv (esp + 12) ((placed argv USERTOP).map Patch.off) := by
  have htop : stackBytes (argv.map List.length) ≤ USERTOP := hfit.trans (by decide)
  have hptrs : ((placed argv USERTOP).map Patch.off).length = argv.length := by
    rw [List.length_map, length_placed]
  have hstack : stackBytes (argv.map List.length) =
      argBytes (argv.map List.length) + (argv.length + 4) * 4 := by
    rw [stackBytes, List.length_map]
  have hargs : argBytes (argv.map List.length) ≤ USERTOP := by omega
  have hblock : (seen (block argv esp)).Holds v :=
    hall _ (List.mem_append_right _ (List.mem_singleton_self _))
  have hword : ∀ i w, ([0xffffffff, argv.length, esp + 12] ++ (placed argv USERTOP).map Patch.off ++
      [0])[i]? = some w → word v (esp + 4 * i) = some w := fun i w hi ↦
    words_of_holds (words_lt hargc (by omega) hargs) hblock hi
  have harray : ∀ i w, ((placed argv USERTOP).map Patch.off ++ [0])[i]? = some w →
      word v (esp + 12 + 4 * i) = some w := fun i w hi ↦ by
    rw [show esp + 12 + 4 * i = esp + 4 * (i + 3) by omega]
    exact hword _ w hi
  have hstrings : ∀ p ∈ placed argv USERTOP, esp + 12 + 4 * (argv.length + 1) ≤ p.off ∧
      p.off + p.vals.length ≤ USERTOP := fun p hp ↦ by
    have hbound := placed_bounds hargs p hp
    omega
  refine ⟨hword 0 _ rfl, hword 1 _ rfl, hword 2 _ rfl, hptrs, fun i hi ↦ ?_, ?_,
    fun x hx ↦ ?_, areas_apart hargs fun p hp ↦ (hstrings p hp).1,
    areas_top (by omega) (by omega) hstrings⟩
  · refine harray i _ ?_
    rw [List.getElem?_append_left hi, List.getElem?_eq_getElem hi]
  · refine harray argv.length 0 ?_
    rw [List.getElem?_append_right hptrs.le, hptrs, Nat.sub_self]
    rfl
  · have hholds := hall _ (List.mem_append_left _ (mem_zip_placed hx))
    intro i hi
    have hbyte := hholds i (by rw [seen, List.length_map]; exact hi)
    exact hbyte.trans (List.getElem_map ..)

end StackReloc.Contents

namespace StackReloc

/-! ### The image below the stack -/

namespace Elf

variable {t : Task} {f : File} {free : List ℕ} {sz k n pa : ℕ}

/-- A program that is loaded is an image of its size. -/
theorem loadProgram_image (hne : ∀ pa ∈ free, pa ≠ 0) {phs : List (Option Elf.Proghdr)} {l : Loaded}
    {last : ℕ} (hlo : 2 * PGSIZE ≤ sz) (hhi : sz ≤ USERTOP) (hk : pagesOf sz ≤ free.length)
    (h : loadProgram t f phs sz (image free (pagesOf sz)) = .ok l) (hlast : l.size = some last) :
    l.vm = image free (pagesOf last) ∧ 2 * PGSIZE ≤ last := by
  induction phs generalizing sz l with
  | nil =>
    cases h
    obtain rfl := Option.some.inj hlast
    exact ⟨rfl, hlo⟩
  | cons oph phs ih =>
    rcases oph with - | ph
    · cases h
      cases hlast
    rw [loadProgram] at h
    split_ifs at h with htype hmem
    · exact ih hlo hhi hk h hlast
    · cases h
      cases hlast
    · obtain ⟨r, hr, h⟩ := GuardedLoop.bind_eq_ok_iff.1 h
      rw [liftPanic_eq_ok_iff] at hr
      rcases em (Grows free sz (uint (ph.va + ph.memsz))) with hgrows | hgrows
      · rw [allocuvm_image hne hlo hhi hgrows] at hr
        cases hr
        split_ifs at h with hzero
        · cases h
          cases hlast
        · obtain ⟨s, -, h⟩ := GuardedLoop.bind_eq_ok_iff.1 h
          split_ifs at h with hneg
          · cases h
            cases hlast
          · obtain ⟨l', hl', h⟩ := GuardedLoop.bind_eq_ok_iff.1 h
            cases h
            exact ih (l := l') (hlo.trans (Nat.le_max_left _ _)) (Nat.max_le.2 ⟨hhi, hgrows.1⟩)
              hgrows.2 hl' hlast
      · obtain ⟨m, hm, -⟩ := allocuvm_image_of_not_grows hne hlo hhi hk hgrows
        rw [hm] at hr
        cases hr
        rw [if_pos rfl] at h
        cases h
        cases hlast

/-- The pages of an image and the page of the stack are all different. -/
theorem withStack_injective (hnodup : free.Nodup) (hk : free[k]? = some pa) :
    Injective (withStack free k pa).pte := by
  have hplace : ∀ n pa', (image free k).pte n = some pa' →
      2 ≤ n ∧ n - 2 < k ∧ free[n - 2]? = some pa' := by
    intro n pa' hn
    obtain ⟨hle, hget⟩ := image_pte_eq_some_iff.1 hn
    rw [List.getElem?_take] at hget
    split_ifs at hget with hlt
    exact ⟨hle, hlt, hget⟩
  have hsame : ∀ {i j pa'}, free[i]? = some pa' → free[j]? = some pa' → i = j := fun hi hj ↦
    (List.getElem?_inj (List.getElem?_eq_some_iff.1 hi).1 hnodup).1 (hi.trans hj.symm)
  intro m n pa' hm hn
  have hstack : ∀ n, (withStack free k pa).pte n = some pa' →
      n = (USERTOP - PGSIZE) / PGSIZE ∧ pa = pa' ∨
        n ≠ (USERTOP - PGSIZE) / PGSIZE ∧ 2 ≤ n ∧ n - 2 < k ∧ free[n - 2]? = some pa' := by
    intro n hn
    have hupdate : Function.update (image free k).pte ((USERTOP - PGSIZE) / PGSIZE) (some pa) n =
        some pa' := hn
    rcases eq_or_ne n ((USERTOP - PGSIZE) / PGSIZE) with rfl | hne
    · rw [Function.update_self] at hupdate
      exact .inl ⟨rfl, Option.some.inj hupdate⟩
    · rw [Function.update_of_ne hne] at hupdate
      exact .inr ⟨hne, hplace n pa' hupdate⟩
  rcases hstack m hm with ⟨rfl, rfl⟩ | ⟨-, hm₂, hmk, hm⟩ <;>
    rcases hstack n hn with ⟨rfl, hpa⟩ | ⟨-, hn₂, hnk, hn⟩
  · rfl
  · exact absurd (hsame hn hk) hnk.ne
  · exact absurd (hsame hm (hpa ▸ hk)) hmk.ne
  · have heq := hsame hm hn
    omega

theorem mem_of_withStack_pte (hk : free[k]? = some pa) {pa' : ℕ}
    (h : (withStack free k pa).pte n = some pa') : pa' ∈ free := by
  have hupdate : Function.update (image free k).pte ((USERTOP - PGSIZE) / PGSIZE) (some pa) n =
      some pa' := h
  rcases eq_or_ne n ((USERTOP - PGSIZE) / PGSIZE) with rfl | hne
  · rw [Function.update_self] at hupdate
    exact Option.some.inj hupdate ▸ List.mem_of_getElem? hk
  · rw [Function.update_of_ne hne] at hupdate
    exact List.mem_of_mem_take (mem_of_image_pte hupdate)

end Elf

namespace Contents

open Elf (Task File Stop padded argBytes stackBytes)

variable {t : Task} {r : Ram} {file : Option File} {ptrs : List ℕ} {argv : List (List UInt8)}
  {o : Outcome}

/-- A page for the stack. -/
theorem allocuvm_stack {s : Space} {x : ℕ × Space}
    (h : s.allocuvm (USERTOP - PGSIZE) USERTOP = .ok x) (hne : x.1 ≠ 0) :
    ∃ v next, s.ram.freelist = v :: next ∧
      x = (USERTOP, ⟨Function.update s.pte ((USERTOP - PGSIZE) / PGSIZE) (some v),
        Ram.zeroPage ⟨next, s.ram.mem⟩ v⟩) := by
  rw [Space.allocuvm, if_neg (lt_irrefl _), if_neg (by decide), Elf.pages_stack, Space.allocPages]
    at h
  obtain ⟨pte, freelist, mem⟩ := s
  rcases freelist with - | ⟨v, next⟩
  · obtain ⟨x', -, h⟩ := GuardedLoop.bind_eq_ok_iff.1 h
    cases h
    exact absurd rfl hne
  · obtain ⟨s', hmap, h⟩ := GuardedLoop.bind_eq_ok_iff.1 h
    rw [Space.mappages_eq (by decide), Space.mapPage] at hmap
    obtain ⟨-, hmap⟩ := GuardedLoop.guard_eq_ok_iff.1 hmap
    cases hmap
    cases h
    exact ⟨v, next, rfl, rfl⟩

/-- A commit comes from a program that was loaded, and from `runLoaded`. -/
theorem exec_commit (h : exec t r file ptrs = .ok o) (hret : o.ret = 0) :
    ∃ f d r' sz s, file = some f ∧ setupkvm r = (some d, r') ∧
      loadProgram t f f.phdrs (2 * PGSIZE) ⟨d.user, r'⟩ = .ok ⟨some sz, s⟩ ∧
      runLoaded t d f.elfhdr.entry sz ptrs s = .ok o := by
  have hfailed : ∀ {t : Task} {r : Ram}, (.ok ⟨-1, t, r⟩ : Except Stop Outcome) ≠ .ok o := by
    rintro t r heq
    rw [← Except.ok.inj heq] at hret
    cases hret
  rcases file with - | f
  · exact absurd h hfailed
  rw [exec] at h
  split_ifs at h
  · exact absurd h hfailed
  · exact absurd h hfailed
  rcases hsetup : setupkvm r with ⟨- | d, r'⟩
  · rw [hsetup] at h
    exact absurd h hfailed
  · rw [hsetup] at h
    obtain ⟨⟨sz, s⟩, hload, h⟩ := GuardedLoop.bind_eq_ok_iff.1 h
    rcases sz with - | sz
    · obtain ⟨ram, -, h⟩ := GuardedLoop.bind_eq_ok_iff.1 h
      exact absurd h hfailed
    · exact ⟨f, d, r', sz, s, rfl, rfl, hload, h⟩

/-- The new stack, the pushes and the commit. -/
theorem runLoaded_commit {d : Elf.Pgdir} {entry sz : ℕ} {s : Space}
    (h : runLoaded t d entry sz ptrs s = .ok o) (hret : o.ret = 0) :
    ∃ v next esp mem, s.ram.freelist = v :: next ∧ o.task.sz = sz ∧ o.task.tf.esp = esp ∧
      o.task.pgdir.user = Function.update s.pte ((USERTOP - PGSIZE) / PGSIZE) (some v) ∧
      pushStack t o.task.pgdir.user ptrs USERTOP (Function.update s.ram.mem v fun _ ↦ 0) =
        .ok (some esp, mem) ∧ freevm t.pgdir ⟨next, mem⟩ = .ok o.ram := by
  rw [runLoaded] at h
  obtain ⟨x, hx, h⟩ := GuardedLoop.bind_eq_ok_iff.1 h
  rw [Elf.liftPanic_eq_ok_iff] at hx
  obtain ⟨hne, h⟩ := GuardedLoop.guard_eq_ok_iff.1 h
  obtain ⟨v, next, hfree, rfl⟩ := allocuvm_stack hx hne
  obtain ⟨⟨- | esp, mem⟩, hpush, h⟩ := GuardedLoop.bind_eq_ok_iff.1 h
  · obtain ⟨ram, -, h⟩ := GuardedLoop.bind_eq_ok_iff.1 h
    cases h
    cases hret
  · obtain ⟨ram, hram, h⟩ := GuardedLoop.bind_eq_ok_iff.1 h
    rw [Elf.liftPanic_eq_ok_iff] at hram
    cases h
    exact ⟨v, next, esp, mem, hfree, rfl, rfl, rfl, hpush, hram⟩

/-- A new address space has its pages from the allocator, and none of them is mapped yet. -/
theorem setupkvm_some {d : Elf.Pgdir} {r' : Ram} (hsetup : setupkvm r = (some d, r')) :
    ∃ rest, d.user = (fun _ ↦ none) ∧ r' = { r with freelist := rest } ∧
      (∀ pa ∈ rest, pa ∈ r.freelist) ∧ (r.freelist.Nodup → rest.Nodup) := by
  have hkvm : Elf.kvmPages ≤ r.freelist.length := by
    refine Nat.le_of_not_lt fun hfew ↦ ?_
    rw [setupkvm_of_lt hfew] at hsetup
    cases (Prod.mk.inj hsetup).1
  obtain ⟨dir, tables, rest, hlist, hsetup'⟩ := setupkvm_of_le hkvm
  obtain ⟨hd, hr'⟩ := Prod.mk.inj (hsetup.symm.trans hsetup')
  obtain rfl := Option.some.inj hd
  refine ⟨rest, rfl, hr', fun pa hpa ↦ ?_, fun hnodup ↦ ?_⟩
  · rw [hlist]
    exact List.mem_append_right (dir :: tables) hpa
  · rw [hlist] at hnodup
    exact (List.nodup_append.1 hnodup).2.1

/-- Without the contents, a program that was loaded is an image of its size. -/
theorem loadProgram_image {f : File} {rest : List ℕ} {sz : ℕ} {s : Space}
    (hne : ∀ pa ∈ rest, pa ≠ 0)
    (hload : loadProgram t f f.phdrs (2 * PGSIZE) ⟨fun _ ↦ none, { r with freelist := rest }⟩ =
      .ok ⟨some sz, s⟩) :
    s.vm = Elf.image rest (Elf.pagesOf sz) ∧ 2 * PGSIZE ≤ sz := by
  obtain ⟨l, hl, hlsize, hlvm⟩ := (loadProgram_agree (t := t) (f := f) f.phdrs (2 * PGSIZE)
    ⟨fun _ ↦ none, { r with freelist := rest }⟩).exists_of_ok hload
  have hzero : Space.vm ⟨fun _ ↦ none, { r with freelist := rest }⟩ =
      Elf.image rest (Elf.pagesOf (2 * PGSIZE)) := (image_zero rest).symm
  rw [hzero] at hl
  have himage := Elf.loadProgram_image hne le_rfl (by decide) (Nat.zero_le _) hl hlsize.symm
  rwa [← hlvm] at himage

/-- Below the stack, the new page and what is written into it change nothing. -/
theorem view_below_stack {s : Space} {user : ℕ → Option ℕ} {v a : ℕ} {ps : List (Patch UInt8)}
    (huser : user = Function.update s.pte ((USERTOP - PGSIZE) / PGSIZE) (some v))
    (hinj : Injective user) (hps : ∀ p ∈ ps, USERTOP - PGSIZE ≤ p.off) (ha : a < USERTOP - PGSIZE) :
    Patch.writeAll (view PGSIZE user (Function.update s.ram.mem v fun _ ↦ 0)) (ps.map seen) a =
      view PGSIZE s.pte s.ram.mem a := by
  have hout : Patch.writeAll (view PGSIZE user (Function.update s.ram.mem v fun _ ↦ 0))
      (ps.map seen) a = view PGSIZE user (Function.update s.ram.mem v fun _ ↦ 0) a := by
    refine Patch.writeAll_of_forall fun q hq w hw ↦ ?_
    obtain ⟨p, hp, rfl⟩ := List.mem_map.1 hq
    have hoff : (seen p).off ≤ a := Patch.off_le_of_at? hw
    have hlow : USERTOP - PGSIZE ≤ (seen p).off := hps p hp
    omega
  have hpage : a / PGSIZE ≠ (USERTOP - PGSIZE) / PGSIZE := by
    unfold USERTOP PGSIZE at *
    omega
  have hentry : user (a / PGSIZE) = s.pte (a / PGSIZE) := by
    rw [huser, Function.update_of_ne hpage]
  rw [hout, view, view, hentry]
  rcases hframe : s.pte (a / PGSIZE) with - | pa
  · rfl
  · have hne : pa ≠ v := by
      rintro rfl
      refine hpage (hinj _ _ pa (hentry.trans hframe) ?_)
      rw [huser, Function.update_self]
    rw [Option.map_some, Option.map_some, Function.update_of_ne hne]

/-- **`exec` hands the arguments over intact** when the data of the program lies in user memory:
when it commits to a program that ends two pages below `USERTOP`, `main` finds the arguments of the
caller in the top page, and below that page memory is as the program was loaded. -/
theorem exec_handed (hwf : Elf.WellFormed t r.freelist) (hfree : Unused t.pgdir r)
    (hdata : ∀ f, file = some f → f.InUser) (hargc : argv.length < Elf.MAXARG)
    (hargs : ArgsAt t r.mem ptrs argv) (h : exec t r file ptrs = .ok o) (hret : o.ret = 0)
    (hsz : o.task.sz ≤ USERTOP - 2 * PGSIZE) :
    (∃ av ps, Handed (view PGSIZE o.task.pgdir.user o.ram.mem) o.task.tf.esp argv av ps) ∧
      ∃ s, Loads t r file o.task.sz s ∧ ∀ a < USERTOP - PGSIZE,
        view PGSIZE o.task.pgdir.user o.ram.mem a = view PGSIZE s.pte s.ram.mem a := by
  obtain ⟨f, d, r', sz, s, hfile, hsetup, hload, hrun⟩ := exec_commit h hret
  obtain ⟨v, next, esp, mem, hfreelist, rfl, rfl, huser, hpush, hold⟩ := runLoaded_commit hrun hret
  have hloads : Loads t r file o.task.sz s := ⟨f, d, r', hfile, hsetup, hload⟩
  obtain ⟨rest, hnone, rfl, hrest, hnodup⟩ := setupkvm_some hsetup
  rw [hnone] at hload
  obtain ⟨hvm, hlo⟩ := loadProgram_image (fun pa hpa ↦ hfree.ne_zero pa (hrest pa hpa)) hload
  have hnodup := hnodup hfree.nodup
  have hstack : o.task.pgdir.user =
      (Elf.withStack rest (Elf.pagesOf o.task.sz) v).pte := by
    rw [huser, show s.pte = (Elf.image rest (Elf.pagesOf o.task.sz)).pte from congrArg Vm.pte hvm]
    rfl
  have hk : rest[Elf.pagesOf o.task.sz]? = some v := by
    have hdrop : rest.drop (Elf.pagesOf o.task.sz) = v :: next :=
      (congrArg Vm.freelist hvm).symm.trans hfreelist
    rw [← Nat.add_zero (Elf.pagesOf o.task.sz), ← List.getElem?_drop, hdrop]
    rfl
  have hmapped : Elf.MappedFrom ⟨o.task.pgdir.user, rest.drop (Elf.pagesOf o.task.sz + 1)⟩
      (USERTOP - PGSIZE) := by
    have hm := Elf.mappedFrom_withStack v hlo
      ⟨(List.getElem?_eq_some_iff.1 hk).1, hsz.trans (by decide)⟩
    rw [Elf.stackLow, if_pos hsz] at hm
    rw [hstack]
    exact hm
  have hinj : Injective o.task.pgdir.user := hstack ▸ Elf.withStack_injective hnodup hk
  have hpte : ∀ k pa, o.task.pgdir.user k = some pa → t.Foreign pa := by
    intro k pa hpa n hn
    rw [hstack] at hpa
    exact hfree.unused pa (hrest pa (Elf.mem_of_withStack_pte hk hpa)) (.inr (.inr ⟨n, hn⟩))
  -- the strings are as they were before the segments were loaded
  have hread : ArgsAt t (Function.update s.ram.mem v fun _ ↦ 0) ptrs argv := by
    refine hargs.congr fun n pa hpa ↦ ?_
    obtain ⟨hall, hmem⟩ := loadProgram_frame_caller hwf hfree (hdata f hfile) hrest hload n pa hpa
    have hne : v ≠ pa := hall.free v (by
      show v ∈ s.ram.freelist
      rw [hfreelist]
      exact List.mem_cons_self)
    exact (Function.update_of_ne hne.symm ..).trans hmem
  obtain ⟨hfit, hesp, hview⟩ := pushStack_spec hmapped hinj hpte hargc hread hpush
  have hpage : stackBytes (argv.map List.length) ≤ PGSIZE := by
    have htop : USERTOP = USERTOP - PGSIZE + PGSIZE := by decide
    omega
  obtain ⟨hapart, hbounds⟩ := pushes_apart (hpage.trans (by decide))
  rw [← hesp] at hapart hbounds
  -- the pages of the caller are freed, and none of them is a page of the new program
  have hseen : view PGSIZE o.task.pgdir.user o.ram.mem = view PGSIZE o.task.pgdir.user mem := by
    refine funext fun a ↦ view_congr fun pa hpa ↦ freevm_frame hold (hfree.unused pa (hrest pa ?_))
    rw [hstack] at hpa
    exact Elf.mem_of_withStack_pte hk hpa
  rw [hseen, hview]
  refine ⟨⟨_, _, handed_of_holds hargc hpage hesp fun p hp ↦ ?_⟩, s, hloads, fun a ha ↦ ?_⟩
  · exact Patch.holds_writeAll _ (List.pairwise_map.2 (hapart.imp seen_apart))
      (List.mem_map_of_mem hp)
  · refine view_below_stack huser hinj (fun p hp ↦ ?_) ha
    have hlow := (hbounds p hp).1
    omega

/-- A process of a page of code and a page of stack that calls `exec`. -/
def twoPagesTask : Task := ⟨twoPages, 3 * PGSIZE, USERTOP - PGSIZE, ⟨2 * PGSIZE, USERTOP - PGSIZE⟩⟩

theorem twoPagesTask_wellFormed : Elf.WellFormed twoPagesTask Elf.pool where
  free := by decide
  user n pa h := by
    have hpte : (if n = 2 then some 0x200000 else if n = 0x9F then some 0x201000 else none) =
        some pa := h
    split_ifs at hpte <;>
    · cases hpte
      decide
  dir := by decide
  tables := by decide
  null := rfl

/-- The arguments `ls` and `-l`, at the bottom of its stack. -/
def argsRam : Ram :=
  { twentyFree with mem := poke twentyFree.mem 0x201000 ⟨0, [108, 115, 0, 45, 108, 0]⟩ }

theorem argsRam_unused : Unused twoPagesTask.pgdir argsRam :=
  ⟨twoPages_unused.nodup, twoPages_unused.ne_zero, twoPages_unused.unused⟩

theorem argsRam_argsAt :
    ArgsAt twoPagesTask argsRam.mem [0x9F000, 0x9F003] [[108, 115], [45, 108]] := by
  refine .cons ⟨by decide, by decide, ?_⟩ (.cons ⟨by decide, by decide, ?_⟩ .nil) <;>
  · unfold StringAt
    decide +kernel

/-- A program of two pages gets them. -/
theorem twoPagesTask_handed : ∃ o,
    exec twoPagesTask argsRam (some (Elf.oneSegment 0 0x2000 84 5000)) [0x9F000, 0x9F003] = .ok o ∧
      (∃ av ps, Handed (view PGSIZE o.task.pgdir.user o.ram.mem) o.task.tf.esp
        [[108, 115], [45, 108]] av ps) := by
  obtain ⟨o, ho, hok⟩ := GuardedLoop.exists_eq_ok
    (x := exec twoPagesTask argsRam (some (Elf.oneSegment 0 0x2000 84 5000)) [0x9F000, 0x9F003])
    (p := fun o ↦ o.ret = 0 ∧ o.task.sz ≤ USERTOP - 2 * PGSIZE) (by decide +kernel)
  obtain ⟨hret, hsz⟩ := of_decide_eq_true hok
  have hdata : ∀ f, some (Elf.oneSegment 0 0x2000 84 5000) = some f → f.InUser := by
    rintro _ ⟨⟩ ph hph -
    have hphdrs : (Elf.oneSegment 0 0x2000 84 5000).phdrs =
        [some ⟨Elf.ELF_PROG_LOAD, 0, 0x2000, 84, 5000⟩] := by decide +kernel
    rw [hphdrs, List.mem_singleton] at hph
    cases hph
    exact .inr (by decide)
  exact ⟨o, ho, (exec_handed twoPagesTask_wellFormed argsRam_unused hdata (by decide)
    argsRam_argsAt ho hret hsz).1⟩

/-- **Arguments that are overwritten.** The end of a segment wraps, and its data goes to the page of
the caller's stack: the first string that is handed over does not begin with `l`. -/
theorem strayData_not_handed : ¬ ∀ (t : Task) (r : Ram) (file : Option File) (ptrs : List ℕ)
    (argv : List (List UInt8)) (o : Outcome), Elf.WellFormed t r.freelist → Unused t.pgdir r →
      argv.length < Elf.MAXARG → ArgsAt t r.mem ptrs argv → exec t r file ptrs = .ok o →
        o.ret = 0 → o.task.sz ≤ USERTOP - 2 * PGSIZE →
          ∃ av ps, Handed (view PGSIZE o.task.pgdir.user o.ram.mem) o.task.tf.esp argv av ps := by
  intro hall
  obtain ⟨o, ho, hok⟩ := GuardedLoop.exists_eq_ok
    (x := exec twoPagesTask argsRam (some (Elf.oneSegment 0 0x201000 84 0xFFE02000))
      [0x9F000, 0x9F003])
    (p := fun o ↦ o.ret = 0 ∧ o.task.sz ≤ USERTOP - 2 * PGSIZE ∧
      ((word (view PGSIZE o.task.pgdir.user o.ram.mem) (o.task.tf.esp + 8)).bind fun av ↦
        (word (view PGSIZE o.task.pgdir.user o.ram.mem) av).bind fun a ↦
          view PGSIZE o.task.pgdir.user o.ram.mem a) = some 0x7F) (by decide +kernel)
  obtain ⟨hret, hsz, hfirst⟩ := of_decide_eq_true hok
  obtain ⟨av, ps, h⟩ := hall _ _ _ _ _ o twoPagesTask_wellFormed argsRam_unused (by decide)
    argsRam_argsAt ho hret hsz
  have hlen : 0 < ps.length := by
    rw [h.length]
    decide
  obtain ⟨a, ps, rfl⟩ := List.exists_cons_of_length_pos hlen
  have hptr : word (view PGSIZE o.task.pgdir.user o.ram.mem) av = some a :=
    h.ptr 0 (Nat.succ_pos _)
  have hbyte : view PGSIZE o.task.pgdir.user o.ram.mem a = some 108 :=
    h.strings (a, [108, 115]) List.mem_cons_self 0 (Nat.succ_pos _)
  rw [h.argumentArray, Option.bind_some, hptr, Option.bind_some, hbyte] at hfirst
  exact absurd hfirst (by decide)

end Contents

end StackReloc
