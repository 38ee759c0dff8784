import Backtrack.Value

/-!
# Actions

An action is a program of the grammar author's own that runs on a context: it may look at the first item, take it, or
view all that is left, any number of times, and ends with a result. It has no other way to touch the context.
-/

namespace Backtrack

/-- A program that reads and consumes items. -/
inductive Action (α : Type) where
  | done (result : α)
  /-- Looks at the first item. -/
  | front (next : Option Value → Action α)
  /-- Takes the first item. -/
  | popFront (next : Option Value → Action α)
  /-- Views the items not yet consumed, without a call on the context. -/
  | remaining (next : List Value → Action α)

namespace Action

variable {α β : Type}

/-- One action after another. -/
def andThen : Action α → (α → Action β) → Action β
  | .done a, f => f a
  | .front k, f => .front fun item => (k item).andThen f
  | .popFront k, f => .popFront fun item => (k item).andThen f
  | .remaining k, f => .remaining fun items => (k items).andThen f

instance : Monad Action where
  pure := .done
  bind := andThen

/-- Takes `n` items more; `taken` are the answers so far, the newest first. -/
def popOnto (taken : List (Option Value)) : (n : Nat) → Action (List (Option Value))
  | 0 => .done taken.reverse
  | n + 1 => .popFront fun item => popOnto (item :: taken) n

/-- Takes `n` items; an answer is listed for each, also where none was left. -/
def popMany (n : Nat) : Action (List (Option Value)) :=
  popOnto [] n

end Action

end Backtrack
