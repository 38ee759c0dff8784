/-!
# Layout of descriptions

A description of a value is a tree of named records, calls and lists. It has two layouts: all on one line, and one
part a line with each level indented by four blanks. A record whose parts are not shown, and an empty list, stay on
one line in both.
-/

namespace Backtrack

/-- A description to be laid out. -/
inductive Doc where
  | atom (text : String)
  /-- A record whose parts are not shown. -/
  | elided (name : String)
  | record (name : String) (fields : List (String × Doc))
  | call (name : String) (argument : Doc)
  | list (items : List Doc)

namespace Doc

/-! ## On one line -/

mutual

/-- The layout on one line. -/
def compact : Doc → String
  | .atom text => text
  | .elided name => name ++ " \x7b .. \x7d"
  | .record name fields => name ++ " \x7b " ++ ", ".intercalate (compactFields fields) ++ " \x7d"
  | .call name argument => name ++ "(" ++ compact argument ++ ")"
  | .list items => "[" ++ ", ".intercalate (compactItems items) ++ "]"

/-- The fields of a record, each on one line. -/
def compactFields : List (String × Doc) → List String
  | [] => []
  | (name, d) :: rest => (name ++ ": " ++ compact d) :: compactFields rest

/-- The items of a list, each on one line. -/
def compactItems : List Doc → List String
  | [] => []
  | d :: rest => compact d :: compactItems rest

end

/-! ## On many lines -/

/-- Parts between two brackets, each on a line of its own that is indented one level more than the brackets. -/
def block (indent : String) (opening closing : String) (parts : List String) : String :=
  opening ++ "\n" ++ String.join (parts.map fun part => indent ++ "    " ++ part ++ ",\n") ++ indent ++ closing

mutual

/-- The layout on many lines, of which all but the first begin with `indent`. -/
def prettyAt (indent : String) : Doc → String
  | .atom text => text
  | .elided name => name ++ " \x7b .. \x7d"
  | .record name fields => block indent (name ++ " \x7b") "\x7d" (prettyFields (indent ++ "    ") fields)
  | .call name argument => block indent (name ++ "(") ")" [prettyAt (indent ++ "    ") argument]
  | .list [] => "[]"
  | .list (d :: rest) => block indent "[" "]" (prettyAt (indent ++ "    ") d :: prettyItems (indent ++ "    ") rest)

/-- The fields of a record, each on many lines. -/
def prettyFields (indent : String) : List (String × Doc) → List String
  | [] => []
  | (name, d) :: rest => (name ++ ": " ++ prettyAt indent d) :: prettyFields indent rest

/-- The items of a list, each on many lines. -/
def prettyItems (indent : String) : List Doc → List String
  | [] => []
  | d :: rest => prettyAt indent d :: prettyItems indent rest

end

/-- The layout on many lines. -/
def pretty (d : Doc) : String :=
  d.prettyAt ""

/-- A truth value. -/
def ofBool (b : Bool) : Doc :=
  .atom (if b then "true" else "false")

/-- A natural number. -/
def ofNat (n : Nat) : Doc :=
  .atom (toString n)

/-- A machine integer. -/
def ofInt64 (n : Int64) : Doc :=
  .atom (toString n.toInt)

end Doc

end Backtrack
