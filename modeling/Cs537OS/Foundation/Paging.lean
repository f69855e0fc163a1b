import Cs537OS.Foundation.Patches
import Mathlib.Logic.Function.Basic

/-!
# Memory behind a page map

Memory that is divided into frames of `n` cells, and a map from page numbers to frames. What is seen
through the map is a partial memory on addresses (`view`). When no frame is mapped twice, a write
into one frame is seen as a write into one page and nowhere else (`view_poke`), so a copy that goes
page by page is seen as one patch (`Patch.write_append`).
-/

namespace Paging

variable {β : Type*} {n k pa : ℕ} {map : ℕ → Option ℕ} {mem : ℕ → ℕ → β} {p : Patch β}

/-- What is seen at an address: nothing where no frame is mapped. -/
def view (n : ℕ) (map : ℕ → Option ℕ) (mem : ℕ → ℕ → β) (a : ℕ) : Option β :=
  (map (a / n)).map fun pa ↦ mem pa (a % n)

/-- No frame is mapped at two pages. -/
def Injective (map : ℕ → Option ℕ) : Prop := ∀ k l pa, map k = some pa → map l = some pa → k = l

/-- Write a patch into the frame `pa`. -/
def poke (mem : ℕ → ℕ → β) (pa : ℕ) (p : Patch β) : ℕ → ℕ → β :=
  Function.update mem pa (p.write (mem pa))

theorem poke_of_ne {pa' : ℕ} (h : pa' ≠ pa) : poke mem pa p pa' = mem pa' :=
  Function.update_of_ne h ..

/-- Frames that are seen at no address do not matter. -/
theorem view_congr {mem' : ℕ → ℕ → β} {a : ℕ} (h : ∀ pa, map (a / n) = some pa → mem' pa = mem pa) :
    view n map mem' a = view n map mem a := by
  rw [view, view]
  rcases hmap : map (a / n) with - | pa
  · rfl
  · rw [Option.map_some, Option.map_some, h pa hmap]

/-- **A write into a frame** is seen in its page, and only there. -/
theorem view_poke (hinj : Injective map) (hmap : map k = some pa)
    (hfit : p.off + p.vals.length ≤ n) :
    view n map (poke mem pa p) =
      Patch.write (view n map mem) ⟨k * n + p.off, p.vals.map some⟩ := by
  refine funext fun a ↦ ?_
  rcases em (a / n = k ∧ p.off ≤ a % n ∧ a % n < p.off + p.vals.length) with hin | hout
  · obtain ⟨rfl, hlo, hhi⟩ := hin
    have haddr : a = a / n * n + p.off + (a % n - p.off) := by
      have hdiv := Nat.div_add_mod' a n
      omega
    have hlen : a % n - p.off < p.vals.length := by omega
    have hframe : p.at? (a % n) = some p.vals[a % n - p.off] := by
      rw [Patch.at?, if_pos hlo, List.getElem?_eq_getElem hlen]
    have hview : (Patch.mk (a / n * n + p.off) (p.vals.map some)).at? a =
        some (some p.vals[a % n - p.off]) := by
      refine Patch.at?_eq_some_iff.2 ⟨a % n - p.off, ?_, haddr, ?_⟩
      · rwa [List.length_map]
      · exact List.getElem_map ..
    rw [Patch.write, hview, Option.getD_some, view, hmap, Option.map_some, poke,
      Function.update_self,
      Patch.write, hframe, Option.getD_some]
  -- outside of the bytes: another page, or another place in this page
  · have hsame : Patch.write (view n map mem) ⟨k * n + p.off, p.vals.map some⟩ a =
      view n map mem a := by
      refine Patch.write_of_outside ?_
      show a < k * n + p.off ∨ k * n + p.off + (p.vals.map some).length ≤ a
      rw [List.length_map]
      by_contra hno
      have hlt : a < k * n + p.off + p.vals.length ∧ k * n + p.off ≤ a := by omega
      have hdiv : a / n = k := Nat.div_eq_of_lt_le (by omega) (by rw [Nat.succ_mul]; omega)
      have hmod := Nat.div_add_mod' a n
      rw [hdiv] at hmod
      exact hout ⟨hdiv, by omega, by omega⟩
    rw [hsame, view, view]
    rcases hother : map (a / n) with - | pa'
    · rfl
    · rw [Option.map_some, Option.map_some]
      rcases eq_or_ne pa' pa with rfl | hne
      · have hpage : a / n = k := hinj _ _ _ hother hmap
        rw [poke, Function.update_self, Patch.write_of_outside]
        by_contra hno
        exact hout ⟨hpage, by omega, by omega⟩
      · rw [poke_of_ne hne]

end Paging
