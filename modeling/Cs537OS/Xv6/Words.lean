import Cs537OS.Foundation.Patches
import Mathlib.Algebra.Order.Ring.Nat

/-!
# Words in memory

The words of the machine are four bytes, the lowest first. They are written as bytes (`wordBytes`)
and read from a memory in which a byte may be missing (`word`); `words_of_holds` reads back what was
written.
-/

namespace Xv6

/-- The bytes of a word, the lowest first. -/
def wordBytes (w : ℕ) : List UInt8 := (List.range 4).map fun i ↦ .ofNat (w / 256 ^ i)

/-- A word of memory, the lowest byte first. -/
def word (v : ℕ → Option UInt8) (a : ℕ) : Option ℕ := do
  let b₀ ← v a
  let b₁ ← v (a + 1)
  let b₂ ← v (a + 2)
  let b₃ ← v (a + 3)
  some (b₀.toNat + 256 * (b₁.toNat + 256 * (b₂.toNat + 256 * b₃.toNat)))

/-- A word is four bytes. -/
theorem length_wordBytes (w : ℕ) : (wordBytes w).length = 4 := by
  rw [wordBytes, List.length_map, List.length_range]

/-- Words one after the other take four bytes each. -/
theorem length_flatMap_wordBytes (ws : List ℕ) : (ws.flatMap wordBytes).length = ws.length * 4 := by
  induction ws with
  | nil => rfl
  | cons w ws ih =>
    rw [List.flatMap_cons, List.length_append, ih, length_wordBytes, List.length_cons, Nat.succ_mul,
      Nat.add_comm]

/-- A patch of a memory in which bytes may be missing. -/
def seen (p : Patch UInt8) : Patch (Option UInt8) := ⟨p.off, p.vals.map some⟩

/-- What is apart stays apart where the bytes are seen. -/
theorem seen_apart {p q : Patch UInt8} (h : p.Apart q) : (seen p).Apart (seen q) := by
  rw [Patch.Apart, seen, seen, List.length_map, List.length_map]
  exact h

variable {v : ℕ → Option UInt8} {a : ℕ}

/-- A word that the memory holds is the word that is read there. -/
theorem word_of_holds {w : ℕ} (hw : w < 2 ^ 32) (h : (seen ⟨a, wordBytes w⟩).Holds v) :
    word v a = some w := by
  have hlen : ((wordBytes w).map some).length = 4 := (List.length_map _).trans (length_wordBytes w)
  have hbyte : ∀ i, i < 4 → v (a + i) = some (.ofNat (w / 256 ^ i)) := fun i hi ↦ by
    refine (h i (hlen.symm ▸ hi)).trans ?_
    show ((wordBytes w).map some)[i] = _
    simp only [wordBytes, List.getElem_map, List.getElem_range]
  rw [word, show v a = _ from hbyte 0 (by decide), hbyte 1 (by decide), hbyte 2 (by decide),
    hbyte 3 (by decide)]
  refine congrArg some ?_
  simp only [UInt8.toNat_ofNat']
  omega

/-- Words one behind the other. -/
theorem words_of_holds {ws : List ℕ} (hws : ∀ w ∈ ws, w < 2 ^ 32)
    (h : (seen ⟨a, ws.flatMap wordBytes⟩).Holds v) {i w : ℕ} (hi : ws[i]? = some w) :
    word v (a + 4 * i) = some w := by
  induction ws generalizing a i with
  | nil => cases hi
  | cons w' ws ih =>
    obtain ⟨hw', hws⟩ := List.forall_mem_cons.1 hws
    have hcons : (seen ⟨a, (w' :: ws).flatMap wordBytes⟩) =
        ⟨a, (wordBytes w').map some ++ (ws.flatMap wordBytes).map some⟩ := by
      rw [seen, List.flatMap_cons, List.map_append]
    rw [hcons, Patch.holds_append, List.length_map, length_wordBytes] at h
    obtain ⟨hfirst, hrest⟩ := h
    rcases i with - | i
    · obtain rfl := Option.some.inj hi
      exact word_of_holds hw' hfirst
    · rw [show a + 4 * (i + 1) = a + 4 + 4 * i by omega]
      exact ih hws hrest hi

end Xv6
