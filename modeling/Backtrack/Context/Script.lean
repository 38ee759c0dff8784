import Backtrack.Context

/-!
# Scripts of calls on a context

The calls on a context made one by one, with remembered places kept under names.
-/

namespace Backtrack

/-- One call of a script. -/
inductive Script.Step where
  | front
  | popFront
  | backup (slot : String)
  | restore (slot : String)

/-- What a call answers. -/
inductive Script.Answer where
  | item (value : Option Value)
  | done
  | refused (reason : OutOfBounds)

/-- A context, and the places remembered under names. -/
structure Script (σ : Type) [Context σ] where
  context : σ
  slots : List (String × Context.Snapshot σ)

namespace Script

variable {σ : Type} [Context σ]

/-- One call; a name that holds no place has no answer. -/
def step (s : Script σ) : Step → Option (Answer × Script σ)
  | .front => some (.item (Context.front s.context), s)
  | .popFront => match Context.popFront s.context with
    | (item, t) => some (.item item, { s with context := t })
  | .backup slot => some (.done, { s with slots := (slot, Context.backup s.context) :: s.slots })
  | .restore slot => match s.slots.lookup slot with
    | none => none
    | some saved => match Context.restore s.context saved with
      | .ok t => some (.done, { s with context := t })
      | .error reason => some (.refused reason, s)

/-- Runs a script: each answer with the context after it. -/
def run (s : Script σ) : List Step → Option (List (Answer × σ))
  | [] => some []
  | c :: rest => do
    let (answer, next) ← s.step c
    return (answer, next.context) :: (← run next rest)

end Script

end Backtrack
