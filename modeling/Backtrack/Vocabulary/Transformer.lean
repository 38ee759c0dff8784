import Backtrack.Vocabulary.Conversion
import Backtrack.Vocabulary.Predicate
import Backtrack.Vocabulary.Raise

/-!
# Transformers of matched values

A transformer runs just past a match, on the value matched; it may read and consume items, and it may fail hard.
Arithmetic is exact: a result that does not fit a machine integer is a failure.
-/

namespace Backtrack

/-! ## Exact arithmetic -/

namespace Checked

/-- An integer as a machine integer, or the failure `tooLarge` if it does not fit. -/
def ofInt (tooLarge : String) (n : Int) : Except Failure Int64 :=
  if Int64.minValue.toInt ≤ n ∧ n ≤ Int64.maxValue.toInt then .ok (Int64.ofInt n) else .error (.note tooLarge)

/-- One step of a calculation; division truncates toward zero, and an unknown operator changes nothing. -/
def step (op : Char) (m n : Int64) : Except Failure Int64 :=
  let fit := ofInt "arithmetic overflow"
  match op with
  | '+' => fit (m.toInt + n.toInt)
  | '-' => fit (m.toInt - n.toInt)
  | '*' => fit (m.toInt * n.toInt)
  | '/' => if n = 0 then .error (.note "division by zero") else fit (m.toInt.tdiv n.toInt)
  | _ => .ok m

/-- A calculation from left to right; parts that are not an operator with an integer are skipped. -/
def fold (m : Int64) : List Value → Except Failure Int64
  | [] => .ok m
  | .pair (.char op) (.int n) :: rest => do fold (← step op m n) rest
  | _ :: rest => fold m rest

/-- The number written by a list of ASCII digits after `acc`; nothing if something else stands among them. A number that
does not fit is a failure at the digit that makes it so. -/
def number (acc : Int64) : List Value → Except Failure (Option Int64)
  | [] => .ok (some acc)
  | .char c :: rest => match Value.digit? c with
    | some d => do number (← ofInt "number too large" (acc.toInt * 10 + d)) rest
    | none => .ok none
  | _ => .ok none

end Checked

/-! ## Transformers -/

/-- A conversion of a matched value that sees the context. -/
inductive Transformer where
  /-- Pairs the value with the number of items left. -/
  | rest
  /-- Reads a list of digits as a number. -/
  | num
  /-- Calculates a number followed by operators with numbers. -/
  | arith
  | map (f : Conversion)
  /-- Takes items and pairs the value with the list of them. -/
  | pop (n : Nat)
  /-- Fails unless the value passes a test. -/
  | check (p : Predicate) (fail : Raise)
  | fail (f : Raise)

namespace Transformer

/-- Fails hard. -/
def raise (r : Raise) : Action (Except Failure Value) := do
  return .error (← r.action)

/-- What a transformer does with the value of a match. -/
def action (t : Transformer) (v : Value) : Action (Except Failure Value) :=
  match t with
  | .rest => .remaining fun items => .done (.ok (.pair v (.int (Int64.ofNat items.length))))
  | .num => match v with
    | .list digits => return (Checked.number 0 digits).map fun
      | some n => .int n
      | none => v
    | _ => return .ok v
  | .arith => match v with
    | .pair (.int m) (.list parts) => return (Checked.fold m parts).map .int
    | _ => return .ok v
  | .map f => return .ok (f.apply v)
  | .pop n => do return .ok (.pair v (.list ((← Action.popMany n).filterMap id)))
  | .check p r => if p.holds v then return .ok v else raise r
  | .fail r => raise r

end Transformer

end Backtrack
