import Backtrack.Trace
import Backtrack.Value

/-!
# Contexts

A context holds the input of a parse and how much of it is consumed. A grammar sees it through four calls only: look
at the first item, take it, remember the place, and go back to a remembered place.
-/

namespace Backtrack

/-- A type of items, each of which is seen by a grammar as a value. -/
class Item (ι : Type) where
  value : ι → Value

instance : Item Value := ⟨id⟩
instance : Item Char := ⟨.char⟩
instance : Item Int64 := ⟨.int⟩

/-- A remembered place lies beyond the end of the items that it is applied to. -/
structure OutOfBounds where
  /-- The place to go back to. -/
  position : Nat
  /-- The last place there is. -/
  limit : Nat
deriving DecidableEq, Inhabited

/-- The text shown for a refused place. -/
def OutOfBounds.message (e : OutOfBounds) : String :=
  "cursor snapshot " ++ toString e.position ++ " out of bounds (max " ++ toString e.limit ++ ")"

/-- An input that can be consumed from the front and rewound. -/
class Context (σ : Type) where
  /-- A remembered place. -/
  Snapshot : Type
  backup : σ → Snapshot
  restore : σ → Snapshot → Except OutOfBounds σ
  /-- The first item, left in place. -/
  front : σ → Option Value
  /-- The first item, and the context without it; at the end of the input nothing changes. -/
  popFront : σ → Option Value × σ
  /-- What taking the first item reports. -/
  popEvents : σ → List Event
  /-- The items not yet consumed. -/
  remaining : σ → List Value
  /-- The number of items consumed. -/
  consumed : σ → Nat

end Backtrack
