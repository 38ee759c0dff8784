import Backtrack.Layout.Unprintable

/-!
# Quoted text

A text is quoted so that it can be read on one line: quotes and backslashes are marked, the usual controls have
letters of their own, and every other unprintable character is named by its number.
-/

namespace Backtrack.Layout.Quoted

/-- A character named by its number, in hexadecimal without leading zeros. -/
def numbered (c : Char) : String :=
  "\\u\x7b" ++ String.ofList (Nat.toDigits 16 c.toNat) ++ "\x7d"

/-- A character as it stands in a quoted text. -/
def escaped (c : Char) : String :=
  if c = '"' then "\\\""
  else if c = '\\' then "\\\\"
  else if c = '\n' then "\\n"
  else if c = '\r' then "\\r"
  else if c = '\t' then "\\t"
  else if c = '\x00' then "\\0"
  else if Unprintable.contains c then numbered c
  else String.singleton c

/-- A text between quotes. -/
def quote (text : String) : String :=
  "\"" ++ String.join (text.toList.map escaped) ++ "\""

end Backtrack.Layout.Quoted
