import Backtrack.Grammar

/-!
# Blueprints

A blueprint describes a grammar whose rules have names: they are declared where they are used, or referred to by name.
`Blueprint.build` makes the grammar.
-/

namespace Backtrack

/-- A description of a unit. -/
inductive Blueprint where
  /-- Takes the first item if it satisfies the predicate. -/
  | pop (pred : Value → Bool)
  | apply (f : Action (Outcome Value))
  | seq (head tail : Blueprint) (onMissing : Action Failure)
  /-- A part, and the unit that its value selects. The selection is made among the units of `parts`, or from them. -/
  | bind (base : Blueprint) (parts : List Blueprint) (next : List Grammar → Value → Grammar)
  | choose (first second : Blueprint)
  | oneOf (candidates : List Blueprint)
  | rescue (primary fallback : Blueprint)
  | maybe (base : Blueprint)
  | maybeThen (before next : Blueprint) (onMissing : Action Failure)
  | oneOrMany (base : Blueprint)
  | zeroOrMany (base : Blueprint)
  | map (f : Value → Value) (base : Blueprint)
  | transform (f : Value → Action (Except Failure Value)) (base : Blueprint)
  | wrap (how : Wrapper) (inner : Blueprint)
  /-- One unit, borrowed twice in a sequence. -/
  | twice (base : Blueprint)
  /-- A new rule; inside its body the name stands for a handle to it. -/
  | declare (name : String) (body : Blueprint)
  /-- A new rule without a name, whose body runs a unit. -/
  | running (base : Blueprint)
  /-- A named rule: a handle to it, or, if `shared`, another link of the same kind as the named one. -/
  | ref (name : String) (shared : Bool)

namespace Blueprint

/-- A committed sequence that yields the value of its first part. -/
def first (head tail : Blueprint) (onMissing : Action Failure) : Blueprint :=
  .map Grammar.firstOf (.seq head tail onMissing)

/-- A committed sequence that yields the value of its second part. -/
def second (head tail : Blueprint) (onMissing : Action Failure) : Blueprint :=
  .map Grammar.secondOf (.seq head tail onMissing)

end Blueprint

end Backtrack
