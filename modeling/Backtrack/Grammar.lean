import Backtrack.Action
import Backtrack.Outcome

/-!
# Grammars

A grammar is a description of a parser: leaves, the combinators over them, and links to rules, through which grammars
refer to themselves and to one another.
-/

namespace Backtrack

/-- The number of a rule. -/
abbrev RuleId := Nat

/-- A reference to a rule. An owner keeps the rule alive; a handle does not. -/
structure Link where
  rule : RuleId
  owner : Bool
deriving DecidableEq, Inhabited

/-- A reference to the same rule that does not keep it alive. -/
def Link.handle (l : Link) : Link :=
  { l with owner := false }

/-- The rules kept alive by a link. -/
def Link.owned (l : Link) : List RuleId :=
  if l.owner then [l.rule] else []

/-- The ways of passing a unit on without changing what it does. -/
inductive Wrapper where
  | borrowed | boxed | erased | viaFunction
deriving DecidableEq, Inhabited

/-- A unit of a grammar. -/
inductive Grammar where
  /-- Takes the first item if it satisfies the predicate. -/
  | pop (pred : Value → Bool)
  | apply (f : Action (Outcome Value))
  /-- Two parts, committed after the first; yields a pair. -/
  | seq (head tail : Grammar) (onMissing : Action Failure)
  /-- A part, and the unit that its value selects. `held` are the rules that the selection keeps alive. -/
  | bind (base : Grammar) (next : Value → Grammar) (held : List RuleId)
  | choose (first second : Grammar)
  | oneOf (candidates : List Grammar)
  /-- Goes on with the fallback after any failure of the primary unit. -/
  | rescue (primary fallback : Grammar)
  | maybe (base : Grammar)
  /-- An optional part and a second one, committed if the first is present; yields a pair. -/
  | maybeThen (before next : Grammar) (onMissing : Action Failure)
  | oneOrMany (base : Grammar)
  | zeroOrMany (base : Grammar)
  | map (f : Value → Value) (base : Grammar)
  | transform (f : Value → Action (Except Failure Value)) (base : Grammar)
  | wrap (how : Wrapper) (inner : Grammar)
  | link (target : Link)

namespace Grammar

/-- Matches a value and consumes nothing. -/
def always (v : Value) : Grammar :=
  .apply (.done (.matched v))

/-- Never matches and consumes nothing. -/
def never : Grammar :=
  .apply (.done .soft)

/-- The first part of a pair, and any other value unchanged. -/
def firstOf : Value → Value
  | .pair a _ => a
  | v => v

/-- The second part of a pair, and any other value unchanged. -/
def secondOf : Value → Value
  | .pair _ b => b
  | v => v

/-- `n` matches of a unit in a committed sequence, yielding the list of their values. -/
def times (u : Grammar) : Nat → Grammar
  | 0 => always (.list [])
  | n + 1 => .map snoc (.seq (times u n) u (.done .unexpected))
where
  /-- Appends the second part of a pair to the list that is its first. -/
  snoc : Value → Value
    | .pair (.list vs) v => .list (vs ++ [v])
    | v => v

mutual

/-- The rules that a grammar keeps alive. -/
def owned : Grammar → List RuleId
  | .pop _ | .apply _ => []
  | .seq a b _ | .choose a b | .rescue a b | .maybeThen a b _ => owned a ++ owned b
  | .bind a _ held => owned a ++ held
  | .oneOf gs => ownedList gs
  | .maybe a | .oneOrMany a | .zeroOrMany a | .map _ a | .transform _ a | .wrap _ a => owned a
  | .link l => l.owned

/-- The rules that the units of a list keep alive. -/
def ownedList : List Grammar → List RuleId
  | [] => []
  | g :: gs => owned g ++ ownedList gs

end

end Grammar

end Backtrack
