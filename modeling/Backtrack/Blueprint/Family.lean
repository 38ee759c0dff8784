import Backtrack.Blueprint.Build

/-!
# Families of rules

A family gives names to rules, with or without definitions, and a grammar that starts from them. All rules are created
before any is defined, so definitions may refer to one another in any order.
-/

namespace Backtrack

/-- Named rules, some of them without a definition, and the grammar to start from. -/
structure Family where
  rules : List (String × Option Blueprint)
  start : Blueprint

namespace Family

/-- Creates a rule for each name; a later rule of the same name hides an earlier one. -/
def create (scope : Scope) : List (String × Option Blueprint) → Builder Scope
  | [] => return scope
  | (name, _) :: rest => do create ((name, ← Builder.fresh) :: scope) rest

/-- Defines the rules that have a definition, in order. -/
def defineAll (scope : Scope) : List (String × Option Blueprint) → Builder Unit
  | [] => return ()
  | (_, none) :: rest => defineAll scope rest
  | (name, some u) :: rest => do
    let body ← u.build scope
    let _ ← Builder.define (← Builder.resolve scope name) body
    defineAll scope rest

/-- The starting grammar, and the store with the rules of the family. -/
def build (f : Family) : Except UnknownRule (Grammar × Store) := do
  let builder : Builder Grammar := do
    let scope ← create [] f.rules
    defineAll scope f.rules
    f.start.build scope
  builder.run .empty

end Family

/-- Parses `n` times, each time from where the last parse left the context, whatever its outcome. -/
def Grammar.parseRuns {σ : Type} [Context σ] (rules : Rules) (g : Grammar) :
    (n : Nat) → σ → Except Halt (List (Report σ (Outcome Value)))
  | 0, _ => .ok []
  | n + 1, s => do
    let r ← g.parse rules s
    return r :: (← parseRuns rules g n r.context)

end Backtrack
