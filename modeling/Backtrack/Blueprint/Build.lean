import Backtrack.Blueprint
import Backtrack.Rule.Store

/-!
# Building grammars

A blueprint is built into a grammar in a scope of named rules. Rules that it declares are added to the store, and
links to rules are taken while the grammar is built, not when it runs.
-/

namespace Backtrack

/-- A name that no rule in scope has. -/
structure UnknownRule where
  name : String
deriving DecidableEq, Inhabited

/-- The named rules in scope, innermost first. -/
abbrev Scope := List (String × Link)

/-- Building adds rules to a store, and stops at a name that is not in scope. -/
abbrev Builder := StateT Store (Except UnknownRule)

namespace Builder

/-- The link that a name stands for. -/
def resolve (scope : Scope) (name : String) : Builder Link :=
  match scope.lookup name with
  | some link => return link
  | none => throw ⟨name⟩

/-- A new rule without a body. -/
def fresh : Builder Link :=
  modifyGet Store.fresh

/-- Tries to give a rule a body; a refused body is gone. -/
def define (l : Link) (body : Grammar) : Builder (Except BindError Unit) := do
  match (← get).define l body with
  | .ok store => set store; return .ok ()
  | .error reason => return .error reason

/-- A new rule whose body is built from a handle to it, with what else building it gives. If building it has already
given the rule a body, that one stays, and a warning is reported. -/
def declare {α : Type} (build : Link → Builder (α × Grammar)) : Builder (α × Link × List Event) := do
  let rule ← fresh
  let (extra, body) ← build rule.handle
  match ← define rule body with
  | .ok () => return (extra, rule, [])
  | .error _ => return (extra, rule, [.definedWhileDeclared])

end Builder

namespace Blueprint

mutual

/-- The grammar of a blueprint. -/
def build (scope : Scope) : Blueprint → Builder Grammar
  | .pop pred => return .pop pred
  | .apply f => return .apply f
  | .seq a b onMissing => do return .seq (← a.build scope) (← b.build scope) onMissing
  | .bind a parts next => do
    let base ← a.build scope
    let units ← buildAll scope parts
    return .bind base (next units) (Grammar.ownedList units)
  | .choose a b => do return .choose (← a.build scope) (← b.build scope)
  | .oneOf us => do return .oneOf (← buildAll scope us)
  | .rescue a b => do return .rescue (← a.build scope) (← b.build scope)
  | .maybe a => do return .maybe (← a.build scope)
  | .maybeThen a b onMissing => do return .maybeThen (← a.build scope) (← b.build scope) onMissing
  | .oneOrMany a => do return .oneOrMany (← a.build scope)
  | .zeroOrMany a => do return .zeroOrMany (← a.build scope)
  | .map f a => do return .map f (← a.build scope)
  | .transform f a => do return .transform f (← a.build scope)
  | .wrap how a => do return .wrap how (← a.build scope)
  | .twice a => do
    let g ← a.build scope
    return .seq (.wrap .borrowed g) (.wrap .borrowed g) (.done .unexpected)
  | .declare name body => do
    let ((), rule, _) ← Builder.declare fun handle => do return ((), ← body.build ((name, handle) :: scope))
    return .link rule
  | .running a => do
    let g ← a.build scope
    return .link (← modifyGet (Store.running · g))
  | .ref name shared => do
    let link ← Builder.resolve scope name
    return .link (if shared then link else link.handle)

/-- The grammars of a list of blueprints. -/
def buildAll (scope : Scope) : List Blueprint → Builder (List Grammar)
  | [] => return []
  | u :: us => do return (← u.build scope) :: (← buildAll scope us)

end

end Blueprint

end Backtrack
