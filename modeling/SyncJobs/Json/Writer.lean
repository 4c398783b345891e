import SyncJobs.Json
import SyncJobs.Binary64.Shortest

/-!
# Writing JSON

`Json.compact` writes a value on one line without blanks, `Json.pretty` over several lines with
an indent of two. Quote, backslash and control characters are escaped in strings, everything else
stands for itself.
-/

namespace SyncJobs.Json

/-- The hexadecimal digit of a value below sixteen, in lower case. -/
def hexDigit (n : Nat) : Char := "0123456789abcdef".toList.getD n '0'

/-- A character as it stands in a string. -/
def escapeChar (c : Char) : List Char :=
  if c = '"' then ['\\', '"']
  else if c = '\\' then ['\\', '\\']
  else if c = '\x08' then ['\\', 'b']
  else if c = '\x0c' then ['\\', 'f']
  else if c = '\n' then ['\\', 'n']
  else if c = '\r' then ['\\', 'r']
  else if c = '\t' then ['\\', 't']
  else if c.toNat < 32 then
    ['\\', 'u', '0', '0', hexDigit (c.toNat / 16), hexDigit (c.toNat % 16)]
  else [c]

/-- A string between quotes. -/
def quote (s : String) : String :=
  String.ofList ('"' :: s.toList.flatMap escapeChar ++ ['"'])

/-- The text of an integer. -/
def integerText (n : Int) : String :=
  if n < 0 then "-" ++ String.ofList (Nat.toDigits 10 n.natAbs)
  else String.ofList (Nat.toDigits 10 n.toNat)

mutual

/-- **The text of a value on one line.** What is not a finite number is written `null`. -/
def compact : Json → String
  | .null => "null"
  | .bool b => if b then "true" else "false"
  | .integer n => integerText n.value
  | .float x => x.written?.getD "null"
  | .string s => quote s
  | .array items => "[" ++ compactItems items ++ "]"
  | .object members => "\x7b" ++ compactMembers members ++ "\x7d"

/-- The texts of the items with commas between them. -/
def compactItems : List Json → String
  | [] => ""
  | [v] => compact v
  | v :: w :: vs => compact v ++ "," ++ compactItems (w :: vs)

/-- The texts of the members with commas between them. -/
def compactMembers : List (String × Json) → String
  | [] => ""
  | [(name, v)] => quote name ++ ":" ++ compact v
  | (name, v) :: m :: ms => quote name ++ ":" ++ compact v ++ "," ++ compactMembers (m :: ms)

end

/-- Blanks in front of a line. -/
def indentation (n : Nat) : String := String.ofList (List.replicate (2 * n) ' ')

mutual

/-- **The text of a value over several lines,** at a depth. -/
def pretty (depth : Nat) : Json → String
  | .array [] => "[]"
  | .array items =>
    "[\n" ++ prettyItems (depth + 1) items ++ "\n" ++ indentation depth ++ "]"
  | .object [] => "\x7b\x7d"
  | .object members =>
    "\x7b\n" ++ prettyMembers (depth + 1) members ++ "\n" ++ indentation depth ++ "\x7d"
  | v => compact v

/-- The lines of the items. -/
def prettyItems (depth : Nat) : List Json → String
  | [] => ""
  | [v] => indentation depth ++ pretty depth v
  | v :: w :: vs =>
    indentation depth ++ pretty depth v ++ ",\n" ++ prettyItems depth (w :: vs)

/-- The lines of the members. -/
def prettyMembers (depth : Nat) : List (String × Json) → String
  | [] => ""
  | [(name, v)] => indentation depth ++ quote name ++ ": " ++ pretty depth v
  | (name, v) :: m :: ms =>
    indentation depth ++ quote name ++ ": " ++ pretty depth v ++ ",\n" ++
      prettyMembers depth (m :: ms)

end

end SyncJobs.Json
