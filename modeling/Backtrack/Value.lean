/-!
# Values

The items that a context holds and the values that a grammar yields are of one type, `Value`: machine integers,
characters, texts, truth values, and the lists, pairs, options and tagged values made of them.
-/

namespace Backtrack

/-- An item of the input, or the value of a match. -/
inductive Value where
  /-- A signed machine integer of 64 bits. -/
  | int (n : Int64)
  | char (c : Char)
  | str (text : String)
  | bool (b : Bool)
  | list (items : List Value)
  | pair (fst snd : Value)
  /-- An optional value, absent or present. -/
  | opt (content : Option Value)
  | tag (name : String) (content : Value)
deriving Inhabited

namespace Value

/-! ## Equality -/

mutual

/-- Values are compared part by part. -/
def same : Value → Value → Bool
  | .int m, .int n => m == n
  | .char c, .char d => c == d
  | .str s, .str t => s == t
  | .bool a, .bool b => a == b
  | .list vs, .list ws => sameList vs ws
  | .pair a b, .pair c d => same a c && same b d
  | .opt a, .opt b => sameOption a b
  | .tag s a, .tag t b => s == t && same a b
  | _, _ => false

/-- Lists of values are compared place by place. -/
def sameList : List Value → List Value → Bool
  | [], [] => true
  | v :: vs, w :: ws => same v w && sameList vs ws
  | _, _ => false

/-- Optional values agree when both are absent or their contents agree. -/
def sameOption : Option Value → Option Value → Bool
  | none, none => true
  | some v, some w => same v w
  | _, _ => false

end

mutual

/-- Comparison part by part is equality. -/
theorem same_iff : (v w : Value) → (same v w = true ↔ v = w)
  | .int _, w | .char _, w | .str _, w | .bool _, w => by cases w <;> simp [same]
  | .list vs, w => by cases w <;> simp [same, sameList_iff vs]
  | .pair a b, w => by cases w <;> simp [same, same_iff a, same_iff b]
  | .opt a, w => by cases w <;> simp [same, sameOption_iff a]
  | .tag _ a, w => by cases w <;> simp [same, same_iff a]

/-- Lists are compared value by value. -/
theorem sameList_iff : (vs ws : List Value) → (sameList vs ws = true ↔ vs = ws)
  | [], ws => by cases ws <;> simp [sameList]
  | v :: vs, ws => by cases ws <;> simp [sameList, same_iff v, sameList_iff vs]

/-- Options are compared by what they hold. -/
theorem sameOption_iff : (a b : Option Value) → (sameOption a b = true ↔ a = b)
  | none, b => by cases b <;> simp [sameOption]
  | some v, b => by cases b <;> simp [sameOption, same_iff v]

end

instance : DecidableEq Value := fun v w => decidable_of_iff (same v w = true) (same_iff v w)

/-! ## The text of a value -/

mutual

/-- The text of a value's leaves from left to right: integers in decimal, truth values as `T` and `F`, and nothing for
an absent option or the name of a tag. -/
def joined : Value → String
  | .int n => toString n.toInt
  | .char c => String.singleton c
  | .str text => text
  | .bool b => if b then "T" else "F"
  | .list items => joinedList items
  | .pair a b => joined a ++ joined b
  | .opt content => joinedOption content
  | .tag _ content => joined content

/-- The texts of the values of a list, one after another. -/
def joinedList : List Value → String
  | [] => ""
  | v :: vs => joined v ++ joinedList vs

/-- The text of an option's content, if it has one. -/
def joinedOption : Option Value → String
  | none => ""
  | some v => joined v

end

/-- The value of an ASCII decimal digit. -/
def digit? (c : Char) : Option Nat :=
  if c.isDigit then some (c.toNat - '0'.toNat) else none

end Value

end Backtrack
