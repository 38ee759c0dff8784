import Backtrack.Grammar
import Backtrack.Vocabulary.Leaf

/-!
# Continuations

What follows a match, selected by its value from a list of units that are built before.
-/

namespace Backtrack

/-- A way to select the unit that follows a match. -/
inductive Continuation where
  /-- An item equal to the value. -/
  | same
  /-- Matches the value again and consumes nothing. -/
  | echo
  | soft
  /-- The unit given, whatever the value. -/
  | unit
  /-- The unit given, whose value is paired with the value before. -/
  | pair
  | fail (f : Raise)
  /-- The unit that stands where the value stands among the keys; one unit more than keys is for all other values. -/
  | cases (keys : List Value)
  /-- The unit given, repeated as often as the value says. -/
  | times

namespace Continuation

/-- How often a value asks for something to be repeated: an integer as often as it says, a digit likewise, and
anything else not at all. -/
def count : Value → Nat
  | .int n => n.toInt.toNat
  | .char c => (Value.digit? c).getD 0
  | _ => 0

/-- The unit that stands where a value stands among the keys, or the unit left over, if there is one. -/
def look (v : Value) : (keys : List Value) → (units : List Grammar) → Grammar
  | key :: keys, g :: units => if v = key then g else look v keys units
  | [], g :: _ => g
  | _, [] => .never

/-- The unit that a continuation selects by a value. -/
def select : Continuation → List Grammar → Value → Grammar
  | .same, _, v => .pop (· = v)
  | .echo, _, v => .always v
  | .soft, _, _ => .never
  | .fail r, _, _ => .apply (Leaf.action ⟨0, .fail r⟩)
  | .cases keys, units, v => look v keys units
  | .unit, g :: _, _ => g
  | .pair, g :: _, v => .map (.pair v) g
  | .times, g :: _, v => g.times (count v)
  | .unit, [], _ | .pair, [], _ | .times, [], _ => .never

end Continuation

end Backtrack
