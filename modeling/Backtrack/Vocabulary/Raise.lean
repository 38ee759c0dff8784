import Backtrack.Action
import Backtrack.Failure

/-!
# Descriptions of hard failures

A failure is described by its kind, the number of items that are taken before it is made, and whether its text shows the
items that are left.
-/

namespace Backtrack

/-- What failure to make, up to the items shown in its text. -/
inductive Raise.Kind where
  | unexpected
  | unbound
  | note (text : String)
  /-- A note whose text is the same everywhere and shows nothing. -/
  | fixedNote
  | tagged (tag : Int64) (causes : List Int64)
  | other (text : String)
deriving Inhabited

/-- How a hard failure is made. -/
structure Raise where
  kind : Raise.Kind
  /-- How many items are taken first. -/
  pops : Nat
  /-- Whether the text ends with the items that are left. -/
  shows : Bool
deriving Inhabited

namespace Raise

/-- The failure of a kind; `shown` ends its text, if it has one of its own. -/
def Kind.failure (shown : String) : Kind → Failure
  | .unexpected => .unexpected
  | .unbound => .unboundRecursion
  | .note text => .note (text ++ shown)
  | .fixedNote => .note "static message"
  | .tagged tag causes => .custom (.tagged tag causes)
  | .other text => .custom (.other (text ++ shown))

/-- The items that are left, as a failure shows them. -/
def shown (items : List Value) : String :=
  "<" ++ Value.joinedList items ++ ">"

/-- Takes the items that go first and makes the failure. -/
def action (r : Raise) : Action Failure := do
  let _ ← Action.popMany r.pops
  if r.shows then
    .remaining fun items => .done (r.kind.failure (shown items))
  else
    return r.kind.failure ""

/-- The failure made where there is no context: nothing is taken and nothing shown. -/
def bare (r : Raise) : Failure :=
  r.kind.failure ""

/-- The failure of a committed sequence whose maker is not given. -/
def orUnexpected : Option Raise → Action Failure
  | some r => r.action
  | none => return .unexpected

end Raise

end Backtrack
