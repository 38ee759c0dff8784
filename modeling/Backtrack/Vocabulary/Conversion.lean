import Backtrack.Value

/-!
# Conversions of values

A small language of total functions on values. A conversion that does not apply to a value of some shape leaves it
unchanged.
-/

namespace Backtrack

/-- A function on values. -/
inductive Conversion where
  | id
  /-- A character in ASCII upper case. -/
  | upper
  /-- The list of one value. -/
  | wrap
  /-- Negation, which wraps around at the least integer. -/
  | neg
  /-- The number of a character. -/
  | ord
  /-- The number that an ASCII digit stands for. -/
  | digit
  /-- The length of a list. -/
  | len
  /-- The sum of the integers of a list, which wraps around. -/
  | sum
  | swap
  | fst
  | snd
  /-- Puts the first part of a pair in front of the list that is the second. -/
  | cons
  /-- One for a pair without a present second part, and one more than the integer that is present otherwise. -/
  | depth
  /-- The text of a value. -/
  | join
  | const (v : Value)
  | tag (name : String)
  /-- One conversion after another, from left to right. -/
  | compose (fs : List Conversion)

namespace Conversion

/-- The integers of a list of values. -/
def ints (vs : List Value) : List Int64 :=
  vs.filterMap fun
    | .int n => some n
    | _ => none

mutual

/-- Applies a conversion to a value. -/
def apply : Conversion → Value → Value
  | .upper, .char c => .char c.toUpper
  | .wrap, v => .list [v]
  | .neg, .int n => .int (-n)
  | .ord, .char c => .int (Int64.ofNat c.toNat)
  | .digit, .char c => match Value.digit? c with
    | some d => .int (Int64.ofNat d)
    | none => .char c
  | .len, .list vs => .int (Int64.ofNat vs.length)
  | .sum, .list vs => .int ((ints vs).foldl (· + ·) 0)
  | .swap, .pair a b => .pair b a
  | .fst, .pair a _ => a
  | .snd, .pair _ b => b
  | .cons, .pair a (.list vs) => .list (a :: vs)
  | .depth, .pair _ (.opt none) => .int 1
  | .depth, .pair _ (.opt (some (.int n))) => .int (n + 1)
  | .join, v => .str v.joined
  | .const w, _ => w
  | .tag name, v => .tag name v
  | .compose fs, v => applyAll fs v
  | _, v => v

/-- Applies the conversions of a list, one after another. -/
def applyAll : List Conversion → Value → Value
  | [], v => v
  | f :: fs, v => applyAll fs (apply f v)

end

end Conversion

end Backtrack
