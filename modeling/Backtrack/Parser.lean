import Backtrack.Engine
import Backtrack.Outcome

/-!
# Parsers and their combinators

A parser is a computation on a context that ends in an outcome. The combinators differ in what they make of a soft
failure of a part: a committed sequence turns it into a hard failure, an alternation goes back and tries the next
part, a repetition stops. A hard failure passes through all of them untouched, except `Parser.rescue`, which recovers
from it.
-/

namespace Backtrack

/-- A computation on a context that ends in an outcome. -/
abbrev Parser (σ α : Type) : Type :=
  Engine σ (Outcome α)

namespace Parser

open Engine (backup restore emit)

variable {σ α β γ : Type}

/-! ## Conversions -/

/-- Converts the value of a match. -/
@[inline]
def map (f : α → β) (p : Parser σ α) : Engine σ (Outcome β) := do
  return (← p).map f

variable [Context σ]

/-- Converts the value of a match by an action on the context just past it, which may fail hard. -/
@[inline]
def transform (f : α → Action (Except Failure β)) (p : Parser σ α) : Engine σ (Outcome β) := do
  match ← p with
  | .matched value => return .ofExcept (← (f value).run)
  | .soft => return .soft
  | .hard failure => return .hard failure

/-! ## Leaves -/

/-- Takes the first item if it satisfies a predicate. -/
@[inline]
def pop (pred : Value → Bool) : Engine σ (Outcome Value) := do
  match ← Engine.front with
  | some item => if pred item then return .ofOption (← Engine.popFront) else return .soft
  | none => return .soft

/-- Runs an action, whose result is the outcome. -/
@[inline]
def apply (f : Action (Outcome α)) : Parser σ α :=
  f.run

/-! ## Sequences -/

/-- Makes a hard failure where a committed part is missing, and reports it. -/
@[inline]
def escalate (event : Failure → Event) (onMissing : Action Failure) : Engine σ (Outcome α) := do
  let failure ← onMissing.run
  emit (event failure)
  return .hard failure

/-- One parser after another, committed once the first has matched: a second part that is missing is a hard failure,
made by `onMissing` on the context that the second part left. -/
@[inline]
def seq (f : α → β → γ) (p : Parser σ α) (q : Parser σ β) (onMissing : Action Failure) : Engine σ (Outcome γ) := do
  match ← p with
  | .matched a => match ← q with
    | .matched b => return .matched (f a b)
    | .soft => escalate .tailMissed onMissing
    | .hard failure => return .hard failure
  | .soft => return .soft
  | .hard failure => return .hard failure

/-- One parser, then the parser that its value selects; when that one does not match, what the first consumed is given
back. -/
@[inline]
def bind (p : Parser σ α) (next : α → Parser σ β) : Engine σ (Outcome β) := do
  let start ← backup
  match ← p with
  | .matched a => match ← next a with
    | .matched b => return .matched b
    | .soft => restore start; return .soft
    | .hard failure => return .hard failure
  | .soft => return .soft
  | .hard failure => return .hard failure

/-! ## Alternations -/

/-- The first parser, or the second from the same place when the first does not match. -/
@[inline]
def choose (p q : Parser σ α) : Engine σ (Outcome α) := do
  let start ← backup
  match ← p with
  | .soft => emit .firstAlternativeMissed; restore start; q
  | outcome => return outcome

/-- The first of a list of parsers that matches or fails hard, each tried from the same place; `index` counts the
parsers tried before. -/
def oneOfFrom (index : Nat) : List (Parser σ α) → Engine σ (Outcome α)
  | [] => return .soft
  | p :: ps => do
    let start ← backup
    match ← p with
    | .soft => emit (.alternativeMissed index); restore start; oneOfFrom (index + 1) ps
    | outcome => return outcome

/-- The first of a list of parsers that matches or fails hard, each tried from the same place. -/
@[inline]
def oneOf (ps : List (Parser σ α)) : Parser σ α :=
  oneOfFrom 0 ps

/-- The first parser, or the second from the same place when the first does not match, be it by a hard failure. -/
@[inline]
def rescue (p q : Parser σ α) : Engine σ (Outcome α) := do
  let start ← backup
  match ← p with
  | .matched value => return .matched value
  | .soft => emit .primaryMissed; restore start; q
  | .hard failure => emit (.recovering failure); restore start; q

/-! ## Options -/

/-- A parser whose part may be absent; then nothing is consumed. -/
@[inline]
def maybe (f : Option α → β) (p : Parser σ α) : Engine σ (Outcome β) := do
  let start ← backup
  match ← p with
  | .matched value => return .matched (f (some value))
  | .soft => restore start; return .matched (f none)
  | .hard failure => return .hard failure

/-- An optional part and a second part, committed when the optional part is present: then a missing second part is a
hard failure, and otherwise a soft one. -/
@[inline]
def maybeThen (f : Option α → β → γ) (p : Parser σ α) (q : Parser σ β) (onMissing : Action Failure) :
    Engine σ (Outcome γ) := do
  match ← maybe id p with
  | .matched before => match ← q with
    | .matched b => return .matched (f before b)
    | .soft => match before with
      | some _ => escalate .nextMissed onMissing
      | none => return .soft
    | .hard failure => return .hard failure
  | .soft => return .soft
  | .hard failure => return .hard failure

/-! ## Repetitions -/

/-- Matches a parser as often as it matches, at most `fuel` times, and gives back what the last attempt consumed; a hard
failure ends the run. -/
def gather (p : Parser σ α) : (fuel : Nat) → Engine σ (Except Failure (List α))
  | 0 => Engine.halt .outOfFuel
  | fuel + 1 => do
    let start ← backup
    match ← p with
    | .matched value => return (← gather p fuel).map (value :: ·)
    | .soft => restore start; return .ok []
    | .hard failure => return .error failure

/-- The values of a maximal run of matches, with a report of their number. -/
@[inline]
def collect (p : Parser σ α) (fuel : Nat) : Engine σ (Except Failure (List α)) := do
  match ← gather p fuel with
  | .ok values => emit (.repetitionStopped values.length); return .ok values
  | .error failure => return .error failure

/-- A maximal run of matches, which may be empty. -/
@[inline]
def zeroOrMany (f : List α → β) (p : Parser σ α) (fuel : Nat) : Engine σ (Outcome β) := do
  match ← collect p fuel with
  | .ok values => return .matched (f values)
  | .error failure => return .hard failure

/-- A maximal run of matches; an empty one is a soft failure. -/
@[inline]
def oneOrMany (f : List α → β) (p : Parser σ α) (fuel : Nat) : Engine σ (Outcome β) := do
  match ← collect p fuel with
  | .ok [] => return .soft
  | .ok values => return .matched (f values)
  | .error failure => return .hard failure

end Parser

end Backtrack
