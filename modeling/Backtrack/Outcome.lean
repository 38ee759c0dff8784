import Backtrack.Failure

/-!
# Outcomes

A parse ends in one of three ways: it matches and yields a value, it fails softly ("not this one"), or it fails hard.
-/

namespace Backtrack

/-- How a parse ends. -/
inductive Outcome (α : Type) where
  | matched (value : α)
  /-- The unit does not apply here; another one may. -/
  | soft
  /-- The input is malformed; only a recovering unit may go on. -/
  | hard (failure : Failure)
deriving DecidableEq, Inhabited

namespace Outcome

variable {α β : Type}

/-- Converts the value of a match. -/
def map (f : α → β) : Outcome α → Outcome β
  | .matched value => .matched (f value)
  | .soft => .soft
  | .hard failure => .hard failure

/-- An item that may be missing is a match or a soft failure. -/
def ofOption : Option α → Outcome α
  | some value => .matched value
  | none => .soft

/-- A value that may be refused is a match or a hard failure. -/
def ofExcept : Except Failure α → Outcome α
  | .ok value => .matched value
  | .error failure => .hard failure

@[simp] theorem map_id (o : Outcome α) : o.map id = o := by
  cases o <;> rfl

/-- A conversion neither makes nor hides a soft failure. -/
@[simp] theorem map_eq_soft_iff {f : α → β} {o : Outcome α} : o.map f = .soft ↔ o = .soft := by
  cases o <;> simp [map]

/-- A conversion neither makes nor changes a hard failure. -/
@[simp] theorem map_eq_hard_iff {f : α → β} {o : Outcome α} {failure : Failure} :
    o.map f = .hard failure ↔ o = .hard failure := by
  cases o <;> simp [map]

/-- A converted match is the match of a value that is converted. -/
@[simp] theorem map_eq_matched_iff {f : α → β} {o : Outcome α} {b : β} :
    o.map f = .matched b ↔ ∃ a, o = .matched a ∧ f a = b := by
  cases o <;> simp [map]

end Outcome

end Backtrack
