import SyncJobs.Json
import SyncJobs.Binary64.Decimal
import SyncJobs.Time.Calendar

/-!
# TOML values

The values of a TOML document and the spellings of its scalars: numbers, truth values, dates and
times. `scalar?` reads the whole of a word that is neither a string nor a bracket.

A document is read for the settings it holds. `Value.toJson` gives the value as which a setting
is decoded: numbers stay numbers, tables become objects, and what no setting can be (a date, an
integer beyond 64 bits) becomes a value that no decoder of a single setting takes.
-/

namespace SyncJobs.Toml

/-- **A value of a document.** -/
inductive Value where
  | string (s : String)
  | integer (n : Int)
  | float (x : Binary64)
  | bool (b : Bool)
  /-- a date, a time of day, or both -/
  | time (text : String)
  | array (items : List Value)
  | table (members : List (String × Value))
  deriving Repr, Inhabited

mutual

/-- The value as which a setting is decoded. -/
def Value.toJson : Value → Json
  | .string s => .string s
  | .integer n => match Json.Integer.ofInt? n with
    | some i => .integer i
    | none => .null
  | .float x => .float x
  | .bool b => .bool b
  | .time t => .object [("time", .string t)]
  | .array vs => .array (itemsToJson vs)
  | .table ms => .object (membersToJson ms)

/-- The items of an array as values. -/
def itemsToJson : List Value → List Json
  | [] => []
  | v :: vs => v.toJson :: itemsToJson vs

/-- The members of a table as values. -/
def membersToJson : List (String × Value) → List (String × Json)
  | [] => []
  | (k, v) :: ms => (k, v.toJson) :: membersToJson ms

end

/-! ## Numbers -/

/-- The digits of a run in which single underscores may stand between digits. -/
def plainDigits? (isDigit : Char → Bool) : List Char → Option (List Char)
  | [] => none
  | [c] => if isDigit c then some [c] else none
  | c :: '_' :: rest => if isDigit c then (plainDigits? isDigit rest).map (c :: ·) else none
  | c :: d :: rest => if isDigit c then (plainDigits? isDigit (d :: rest)).map (c :: ·) else none

/-- The value of a digit to a base up to sixteen. -/
def digitValue (c : Char) : Nat :=
  let n := c.toLower.toNat
  if c.isDigit then n - '0'.toNat else n - 'a'.toNat + 10

/-- Whether a character is a digit to a base up to sixteen. -/
def isDigitOf (base : Nat) (c : Char) : Bool :=
  (c.isDigit || ('a'.toNat ≤ c.toLower.toNat && c.toLower.toNat ≤ 'f'.toNat)) &&
    digitValue c < base

/-- The value of a run of digits. -/
def naturalOf (base : Nat) (ds : List Char) : Nat :=
  ds.foldl (fun n c => n * base + digitValue c) 0

/-- Takes the sign off a number. -/
def signOf : List Char → Bool × List Char
  | '-' :: rest => (true, rest)
  | '+' :: rest => (false, rest)
  | cs => (false, cs)

/-- The digits of a decimal without superfluous zeros in front. -/
def decimalDigits? (cs : List Char) : Option (List Char) := do
  let ds ← plainDigits? Char.isDigit cs
  guard (ds.length = 1 || ds.head? != some '0')
  return ds

/-- Reads an integer: decimal with a sign, or hexadecimal, octal or binary without one. -/
def integer? (cs : List Char) : Option Int :=
  match cs with
  | '0' :: 'x' :: ds => (plainDigits? (isDigitOf 16) ds).map fun ds => (naturalOf 16 ds : Int)
  | '0' :: 'o' :: ds => (plainDigits? (isDigitOf 8) ds).map fun ds => (naturalOf 8 ds : Int)
  | '0' :: 'b' :: ds => (plainDigits? (isDigitOf 2) ds).map fun ds => (naturalOf 2 ds : Int)
  | cs =>
    let (negative, cs) := signOf cs
    (decimalDigits? cs).map fun ds =>
      let n : Int := naturalOf 10 ds
      if negative then -n else n

/-- Reads a float: digits with a fraction, an exponent or both, or a name. A number too large to
be finite is refused. -/
def float? (cs : List Char) : Option Binary64 := do
  let (negative, cs) := signOf cs
  if cs = ['i', 'n', 'f'] then return .infinity negative
  if cs = ['n', 'a', 'n'] then return .nan
  let isMark (c : Char) : Bool := c = '.' || c = 'e' || c = 'E'
  let whole ← decimalDigits? (cs.takeWhile (!isMark ·))
  let cs := cs.dropWhile (!isMark ·)
  guard (!cs.isEmpty)
  let isExponent (c : Char) : Bool := c = 'e' || c = 'E'
  let (fraction, cs) ← match cs with
    | '.' :: rest => do
      let ds ← plainDigits? Char.isDigit (rest.takeWhile (!isExponent ·))
      pure (ds, rest.dropWhile (!isExponent ·))
    | cs => pure ([], cs)
  let exponent : Int ← match cs with
    | [] => pure 0
    | _ :: rest => do
      let (down, ds) := signOf rest
      let ds ← plainDigits? Char.isDigit ds
      let e : Int := naturalOf 10 ds
      pure (if down then -e else e)
  let x := Binary64.ofDecimal negative (naturalOf 10 (whole ++ fraction))
    (exponent - fraction.length)
  match x with
  | .infinity _ => none
  | x => return x

/-! ## Dates and times -/

/-- Reads a number of exactly so many digits. -/
def fixed? (n : Nat) (cs : List Char) : Option (Nat × List Char) :=
  let ds := cs.take n
  if ds.length = n && ds.all Char.isDigit then some (naturalOf 10 ds, cs.drop n) else none

/-- Takes one given character. -/
def mark? (c : Char) : List Char → Option (List Char)
  | d :: rest => if c = d then some rest else none
  | [] => none

/-- Reads a date that exists. -/
def date? (cs : List Char) : Option (List Char) := do
  let (year, cs) ← fixed? 4 cs
  let cs ← mark? '-' cs
  let (month, cs) ← fixed? 2 cs
  let cs ← mark? '-' cs
  let (day, cs) ← fixed? 2 cs
  guard (Date.isValid ⟨year, month, day⟩)
  return cs

/-- Reads a time of day; the seconds may be left out. -/
def clock? (cs : List Char) : Option (List Char) := do
  let (hour, cs) ← fixed? 2 cs
  let cs ← mark? ':' cs
  let (minute, cs) ← fixed? 2 cs
  guard (hour < 24 && minute < 60)
  match cs with
  | ':' :: rest =>
    let (second, cs) ← fixed? 2 rest
    guard (second ≤ 60)
    match cs with
    | '.' :: rest =>
      guard (!(rest.takeWhile Char.isDigit).isEmpty)
      return rest.dropWhile Char.isDigit
    | cs => return cs
  | cs => return cs

/-- Reads the end of a date with time: nothing, `Z`, or hours and minutes with a sign. -/
def zone? : List Char → Option Unit
  | [] => some ()
  | ['Z'] => some ()
  | ['z'] => some ()
  | c :: cs => do
    guard (c = '+' || c = '-')
    let (hour, cs) ← fixed? 2 cs
    let cs ← mark? ':' cs
    let (minute, cs) ← fixed? 2 cs
    guard (hour < 24 && minute < 60 && cs.isEmpty)

/-- Whether a text is a date, a time of day, or a date with a time of day. -/
def isTime (cs : List Char) : Bool :=
  match date? cs with
  | some [] => true
  | some (c :: rest) =>
    (c = 'T' || c = 't' || c = ' ') && ((clock? rest).bind zone?).isSome
  | none => clock? cs = some []

/-! ## Words -/

/-- **Reads a scalar** that is written without quotes. -/
def scalar? (cs : List Char) : Option Value :=
  if cs = ['t', 'r', 'u', 'e'] then some (.bool true)
  else if cs = ['f', 'a', 'l', 's', 'e'] then some (.bool false)
  else match integer? cs with
    | some n => some (.integer n)
    | none => match float? cs with
      | some x => some (.float x)
      | none => if isTime cs then some (.time (String.ofList cs)) else none

end SyncJobs.Toml
