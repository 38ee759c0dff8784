import Backtrack.Rule.Store

/-!
# The lifetime of rules

A rule lives as long as some owner of it does: a link held outside the store, or one in the body of a living rule.
When an owner goes, its rule may go with it, and then the rules that only that one owned. Rules that own one another
in a ring keep each other alive for good.
-/

namespace Backtrack.Store

/-- The rules owned from outside or by a living rule. -/
def ownedFrom (s : Store) (held : List RuleId) : List RuleId :=
  held ++ s.cells.toList.flatMap Cell.owned

/-- Whether a rule is there, with or without a body. -/
def isAlive (s : Store) (r : RuleId) : Bool :=
  match s.cell r with
  | .dropped => false
  | .unbound | .bound _ => true

/-- The living rules that nobody owns. -/
def orphans (held : List RuleId) (s : Store) : List RuleId :=
  let owned := s.ownedFrom held
  (List.range s.cells.size).filter fun r => s.isAlive r && !owned.contains r

/-- Drops rules. -/
def drop (s : Store) (rules : List RuleId) : Store :=
  rules.foldl (fun t r => ⟨t.cells.setIfInBounds r .dropped⟩) s

/-- Drops the rules that nobody owns, and then those whose owners went with them, for at most `rounds` rounds. -/
def sweepFor (held : List RuleId) : (rounds : Nat) → Store → Store
  | 0, s => s
  | n + 1, s => match s.orphans held with
    | [] => s
    | rules => sweepFor held n (s.drop rules)

/-- Drops rules until each one left is owned from outside or by another that is left. Each round but the last drops a
rule, so there are no more rounds than rules. -/
def sweep (held : List RuleId) (s : Store) : Store :=
  sweepFor held s.cells.size s

end Backtrack.Store
