import TokenWatch.Checkpoint

/-!
Advances of one watermark by several callers at the same time. Each raises the level in memory and
then, if it moved, writes it to the store; between the two the others may go on.
-/
namespace TokenWatch.Checkpoint

/-- The point that one caller has come to. -/
inductive Advance where
  | called (level : UInt64)
  /-- The level moved and is to be written. -/
  | raised (level : UInt64)
  | returned (moved : Bool)
deriving DecidableEq

/-- The callers of one watermark, and what stands in the store under its key. -/
structure Advances where
  watermark : Watermark
  stored : Option String
  callers : List Advance
deriving DecidableEq

namespace Advances

def start (watermark : Watermark) (stored : Option String) (levels : List UInt64) : Advances :=
  ⟨watermark, stored, levels.map .called⟩

/-- The next step of one caller, or `none` if there is none. The flag tells whether a write
succeeds. -/
def step? (s : Advances) (caller : Nat) (written : Bool) : Option Advances :=
  match s.callers[caller]? with
  | some (.called level) =>
    let (watermark, moved) := s.watermark.raise level
    let next := if moved then .raised level else .returned false
    some { s with watermark, callers := s.callers.set caller next }
  | some (.raised level) =>
    some { s with
      stored := if written then some (toText level) else s.stored
      callers := s.callers.set caller (.returned true) }
  | _ => none

def run? (s : Advances) (steps : List (Nat × Bool)) : Option Advances :=
  steps.foldlM (fun s (caller, written) => s.step? caller written) s

def IsOver (s : Advances) : Prop := ∀ c ∈ s.callers, c = .returned true ∨ c = .returned false

instance (s : Advances) : Decidable s.IsOver := by
  unfold IsOver
  infer_instance

end Advances
end TokenWatch.Checkpoint
