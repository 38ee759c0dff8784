import Backtrack.Value

/-!
# Predicates on items

A small language of tests on one value, closed under negation, conjunction and disjunction.
-/

namespace Backtrack

/-- A test on a value. -/
inductive Predicate where
  | any
  | none
  /-- An ASCII decimal digit. -/
  | digit
  /-- An ASCII letter. -/
  | alpha
  /-- An ASCII capital letter. -/
  | upper
  /-- An ASCII small letter. -/
  | lower
  /-- A blank, a tab, a line feed or a carriage return. -/
  | space
  | int
  | char
  /-- An even integer. -/
  | even
  | eq (v : Value)
  | among (vs : List Value)
  /-- An integer between two integers, or a character between two characters, ends included. -/
  | range (lo hi : Value)
  | not (p : Predicate)
  | all (ps : List Predicate)
  | some (ps : List Predicate)

namespace Predicate

/-- Whether a value is a character of a class. -/
def onChar (cls : Char → Bool) : Value → Bool
  | .char c => cls c
  | _ => false

/-- Whether a character counts as space. -/
def isSpace (c : Char) : Bool :=
  c = ' ' || c = '\t' || c = '\n' || c = '\r'

/-- Whether a value lies between two others of its own kind. -/
def between : (lo hi v : Value) → Bool
  | .int a, .int b, .int n => a ≤ n && n ≤ b
  | .char a, .char b, .char c => a ≤ c && c ≤ b
  | _, _, _ => false

mutual

/-- Whether a value passes a test. -/
def holds (v : Value) : Predicate → Bool
  | .any => true
  | .none => false
  | .digit => onChar Char.isDigit v
  | .alpha => onChar Char.isAlpha v
  | .upper => onChar Char.isUpper v
  | .lower => onChar Char.isLower v
  | .space => onChar isSpace v
  | .int => match v with
    | .int _ => true
    | _ => false
  | .char => onChar (fun _ => true) v
  | .even => match v with
    | .int n => n % 2 = 0
    | _ => false
  | .eq w => v = w
  | .among ws => ws.contains v
  | .range lo hi => between lo hi v
  | .not p => !holds v p
  | .all ps => holdsAll v ps
  | .some ps => holdsSome v ps

/-- Whether a value passes every test of a list. -/
def holdsAll (v : Value) : List Predicate → Bool
  | [] => true
  | p :: ps => holds v p && holdsAll v ps

/-- Whether a value passes some test of a list. -/
def holdsSome (v : Value) : List Predicate → Bool
  | [] => false
  | p :: ps => holds v p || holdsSome v ps

end

end Predicate

end Backtrack
