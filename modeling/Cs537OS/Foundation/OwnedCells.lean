import Cs537OS.Foundation.Refinement
import Mathlib.Logic.Function.Basic

/-!
# Cells with an owner

Cells that each have at most one owner at a time, who alone finds what is in the cell and alone
writes it. This is what a cache of shared, locked objects is for.

* `ownedCells` — the cells as a system;
* `ownedCells_trace` — in a run every event is by the owner, and who looks into a cell finds what
  was last written.
-/

variable {τ κ ν : Type*}

structure Cells (τ κ ν : Type*) where
  owner : κ → Option τ
  content : κ → ν

/-- What happens at a cell. -/
inductive CellEvent (τ κ ν : Type*)
  | acquire (t : τ) (k : κ)
  /-- The owner finds `v` in the cell. -/
  | find (t : τ) (k : κ) (v : ν)
  | write (t : τ) (k : κ) (v : ν)
  | release (t : τ) (k : κ)

namespace CellEvent

/-- When an event may happen. -/
def Ok (c : Cells τ κ ν) : CellEvent τ κ ν → Prop
  | acquire _ k => c.owner k = none
  | find t k v => c.owner k = some t ∧ c.content k = v
  | write t k _ => c.owner k = some t
  | release t k => c.owner k = some t

/-- The cells after an event. -/
def apply [DecidableEq κ] (c : Cells τ κ ν) : CellEvent τ κ ν → Cells τ κ ν
  | acquire t k => { c with owner := Function.update c.owner k (some t) }
  | find _ _ _ => c
  | write _ k v => { c with content := Function.update c.content k v }
  | release _ k => { c with owner := Function.update c.owner k none }

end CellEvent

/-- The cells as a system. -/
def ownedCells (τ κ ν : Type*) [DecidableEq κ] : System (Cells τ κ ν) (CellEvent τ κ ν) where
  init c := ∀ k, c.owner k = none
  next c e c' := e.Ok c ∧ c' = e.apply c

/-- **A run of the cells.** -/
theorem ownedCells_trace [DecidableEq κ] {c c' : Cells τ κ ν} {es : List (CellEvent τ κ ν)}
    (h : (ownedCells τ κ ν).Trace (fun _ e _ ↦ some e) c es c') :
    c' = es.foldl CellEvent.apply c ∧
      ∀ es₁ e es₂, es = es₁ ++ e :: es₂ → e.Ok (es₁.foldl CellEvent.apply c) :=
  System.trace_of_deterministic (fun c e ↦ e.Ok c) (fun _ _ _ hnext ↦ hnext) h
