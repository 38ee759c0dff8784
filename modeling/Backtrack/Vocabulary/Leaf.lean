import Backtrack.Outcome
import Backtrack.Vocabulary.Raise

/-!
# Leaves that act on the context

A leaf takes a number of items and then ends in one of a few ways. What it took stays taken, also when it fails softly.
-/

namespace Backtrack

/-- How a leaf ends once its items are taken. -/
inductive Finish where
  | fail (f : Raise)
  | yields (v : Value)
  | soft
  /-- Matches the last item taken. -/
  | last
  /-- Matches the next item without taking it. -/
  | front
  /-- Matches the list of the items taken. -/
  | list
  /-- Matches if no item is left. -/
  | atEnd

/-- A leaf: how many items it takes, and how it ends. -/
structure Leaf where
  pops : Nat
  finish : Finish

namespace Leaf

/-- What a leaf does. -/
def action (l : Leaf) : Action (Outcome Value) := do
  let taken ← Action.popMany l.pops
  match l.finish with
  | .fail r => return .hard (← r.action)
  | .yields v => return .matched v
  | .soft => return .soft
  | .last => return .ofOption (taken.getLast?.bind id)
  | .front => .front fun item => .done (.ofOption item)
  | .list => return .matched (.list (taken.filterMap id))
  | .atEnd => .front fun
    | none => .done (.matched (.bool true))
    | some _ => .done .soft

end Leaf

end Backtrack
