import SyncJobs.Json
import SyncJobs.Binary64.Decimal

/-!
# Reading JSON

`Json.parse?` reads a whole text. It is strict: no comments, no trailing commas, no leading
zeros, no control characters in strings, no unpaired surrogates, and nothing behind the value but
blanks. Arrays and objects may be nested 127 deep.

A number without point and exponent that fits an integer is an integer; every other number is a
float. Of its digits as many are kept as fit 64 bits, and the rest only move the point.
-/

namespace SyncJobs.Json.Reader

/-- The text behind leading blanks. -/
def skipBlanks (cs : List Char) : List Char :=
  cs.dropWhile fun c => c = ' ' || c = '\n' || c = '\t' || c = '\r'

/-! ## Strings -/

/-- The value of a hexadecimal digit, in either case. -/
def hexValue? (c : Char) : Option Nat :=
  let n := c.toNat
  if '0'.toNat ≤ n ∧ n ≤ '9'.toNat then some (n - '0'.toNat)
  else if 'a'.toNat ≤ n ∧ n ≤ 'f'.toNat then some (n - 'a'.toNat + 10)
  else if 'A'.toNat ≤ n ∧ n ≤ 'F'.toNat then some (n - 'A'.toNat + 10)
  else none

/-- The number written with four hexadecimal digits. -/
def hex4? (a b c d : Char) : Option Nat := do
  let w ← hexValue? a
  let x ← hexValue? b
  let y ← hexValue? c
  let z ← hexValue? d
  return ((w * 16 + x) * 16 + y) * 16 + z

/-- What a letter after a backslash stands for. -/
def escaped? : Char → Option Char
  | '"' => some '"'
  | '\\' => some '\\'
  | '/' => some '/'
  | 'b' => some '\x08'
  | 'f' => some '\x0c'
  | 'n' => some '\n'
  | 'r' => some '\r'
  | 't' => some '\t'
  | _ => none

/-- Reads a string up to its closing quote. A code above `FFFF` is written as a pair of
surrogates; a surrogate outside a pair is refused. -/
def string? : List Char → Option (List Char × List Char)
  | [] => none
  | '"' :: rest => some ([], rest)
  | '\\' :: 'u' :: a :: b :: c :: d :: rest =>
    match hex4? a b c d with
    | none => none
    | some n =>
      if 0xD800 ≤ n ∧ n < 0xDC00 then
        match rest with
        | '\\' :: 'u' :: e :: f :: g :: h :: rest =>
          match hex4? e f g h with
          | none => none
          | some m =>
            if 0xDC00 ≤ m ∧ m < 0xE000 then
              let code := 0x10000 + (n - 0xD800) * 0x400 + (m - 0xDC00)
              (string? rest).map fun (s, r) => (Char.ofNat code :: s, r)
            else none
        | _ => none
      else if 0xDC00 ≤ n ∧ n < 0xE000 then none
      else (string? rest).map fun (s, r) => (Char.ofNat n :: s, r)
  | '\\' :: e :: rest =>
    match escaped? e with
    | none => none
    | some c => (string? rest).map fun (s, r) => (c :: s, r)
  | c :: rest =>
    if c.toNat < 32 ∨ c = '\\' then none
    else (string? rest).map fun (s, r) => (c :: s, r)

/-! ## Numbers -/

/-- The parts of a number as written. -/
structure Numeral where
  negative : Bool
  /-- digits before the point -/
  whole : List Char
  /-- digits behind the point, if there is one -/
  fraction : Option (List Char)
  /-- sign and digits of the exponent, if there is one -/
  exponent : Option (Bool × List Char)

/-- Splits a text into its leading digits and the rest. -/
def digits (cs : List Char) : List Char × List Char :=
  (cs.takeWhile Char.isDigit, cs.dropWhile Char.isDigit)

/-- Reads the parts of a number. -/
def numeral? (cs : List Char) : Option (Numeral × List Char) := do
  let (negative, cs) := match cs with
    | '-' :: rest => (true, rest)
    | cs => (false, cs)
  let (whole, cs) := digits cs
  guard (!whole.isEmpty)
  guard (whole.length = 1 || whole.head? != some '0')
  let (fraction, cs) ← match cs with
    | '.' :: rest =>
      let (ds, rest) := digits rest
      if ds.isEmpty then none else some (some ds, rest)
    | cs => some (none, cs)
  let (exponent, cs) ← match cs with
    | 'e' :: rest => (exponent? rest).map fun (e, rest) => (some e, rest)
    | 'E' :: rest => (exponent? rest).map fun (e, rest) => (some e, rest)
    | cs => some (none, cs)
  return (⟨negative, whole, fraction, exponent⟩, cs)
where
  /-- The sign and the digits behind the letter of the exponent. -/
  exponent? (cs : List Char) : Option ((Bool × List Char) × List Char) :=
    let (negative, cs) := match cs with
      | '+' :: rest => (false, rest)
      | '-' :: rest => (true, rest)
      | cs => (false, cs)
    let (ds, rest) := digits cs
    if ds.isEmpty then none else some ((negative, ds), rest)

/-- The value of a decimal digit. -/
def digitValue (c : Char) : Nat := c.toNat - '0'.toNat

/-- A significand of at most 64 bits with the power of ten that goes with it. -/
structure Scaled where
  significand : Nat
  exponent : Int

/-- Takes digits before the point while they fit; each later one counts as a power of ten. -/
def takeWhole (acc : Scaled) (full : Bool) : List Char → Scaled
  | [] => acc
  | c :: cs =>
    let n := acc.significand * 10 + digitValue c
    if full ∨ 0x10000000000000000 ≤ n then takeWhole { acc with exponent := acc.exponent + 1 } true cs
    else takeWhole { acc with significand := n } false cs

/-- Takes digits behind the point while they fit, and ignores the rest. -/
def takeFraction (acc : Scaled) : List Char → Scaled
  | [] => acc
  | c :: cs =>
    let n := acc.significand * 10 + digitValue c
    if 0x10000000000000000 ≤ n then acc else takeFraction ⟨n, acc.exponent - 1⟩ cs

/-- The value of a run of digits. -/
def naturalOf (ds : List Char) : Nat := ds.foldl (fun n c => n * 10 + digitValue c) 0

/-- The float that a number stands for; `none` if it is too large. -/
def Numeral.float? (n : Numeral) : Option Binary64 :=
  let s := takeWhole ⟨0, 0⟩ false n.whole
  let s := takeFraction s (n.fraction.getD [])
  match n.exponent with
  | none => Binary64.ofScaledDigits n.negative s.significand s.exponent
  | some (negative, ds) =>
    let e := naturalOf ds
    if e < 0x80000000 then
      let e : Int := if negative then s.exponent - e else s.exponent + e
      Binary64.ofScaledDigits n.negative s.significand e
    else if s.significand ≠ 0 ∧ !negative then none
    else some (Binary64.zero n.negative)

/-- The value of a number. Minus zero is a float. -/
def Numeral.value? (n : Numeral) : Option Json :=
  let whole : Int := naturalOf n.whole
  let signed := if n.negative then -whole else whole
  if n.fraction.isNone ∧ n.exponent.isNone ∧ ¬(n.negative ∧ signed = 0) then
    match Integer.ofInt? signed with
    | some i => some (.integer i)
    | none => n.float?.map .float
  else n.float?.map .float

/-- Reads a number. -/
def number? (cs : List Char) : Option (Json × List Char) := do
  let (n, rest) ← numeral? cs
  let v ← n.value?
  return (v, rest)

/-! ## Values -/

mutual

/-- Reads a value at the start of a text. The fuel bounds the steps, `depth` the nesting. -/
def value? (fuel depth : Nat) (cs : List Char) : Option (Json × List Char) :=
  match fuel with
  | 0 => none
  | fuel + 1 =>
    match skipBlanks cs with
    | 'n' :: 'u' :: 'l' :: 'l' :: rest => some (.null, rest)
    | 't' :: 'r' :: 'u' :: 'e' :: rest => some (.bool true, rest)
    | 'f' :: 'a' :: 'l' :: 's' :: 'e' :: rest => some (.bool false, rest)
    | '"' :: rest => (string? rest).map fun (s, r) => (.string (String.ofList s), r)
    | '[' :: rest =>
      if depth = 0 then none
      else match skipBlanks rest with
        | ']' :: rest => some (.array [], rest)
        | rest => (items? fuel (depth - 1) rest).map fun (vs, r) => (.array vs, r)
    | '\x7b' :: rest =>
      if depth = 0 then none
      else match skipBlanks rest with
        | '\x7d' :: rest => some (.object [], rest)
        | rest => (members? fuel (depth - 1) rest).map fun (ms, r) => (.object ms, r)
    | cs => number? cs

/-- Reads the items of an array up to its closing bracket. -/
def items? (fuel depth : Nat) (cs : List Char) : Option (List Json × List Char) :=
  match fuel with
  | 0 => none
  | fuel + 1 =>
    match value? fuel depth cs with
    | none => none
    | some (v, rest) =>
      match skipBlanks rest with
      | ',' :: rest => (items? fuel depth rest).map fun (vs, r) => (v :: vs, r)
      | ']' :: rest => some ([v], rest)
      | _ => none

/-- Reads the members of an object up to its closing brace. -/
def members? (fuel depth : Nat) (cs : List Char) :
    Option (List (String × Json) × List Char) :=
  match fuel with
  | 0 => none
  | fuel + 1 =>
    match skipBlanks cs with
    | '"' :: rest =>
      match string? rest with
      | none => none
      | some (name, rest) =>
        match skipBlanks rest with
        | ':' :: rest =>
          match value? fuel depth rest with
          | none => none
          | some (v, rest) =>
            match skipBlanks rest with
            | ',' :: rest =>
              (members? fuel depth rest).map fun (ms, r) => ((String.ofList name, v) :: ms, r)
            | '\x7d' :: rest => some ([(String.ofList name, v)], rest)
            | _ => none
        | _ => none
    | _ => none

end

end SyncJobs.Json.Reader

namespace SyncJobs.Json

/-- How deep arrays and objects may be nested. -/
def maxDepth : Nat := 127

/-- **Reads a JSON text.** -/
def parse? (text : String) : Option Json :=
  let cs := text.toList
  match Reader.value? (2 * cs.length + 2) maxDepth cs with
  | some (v, rest) => if (Reader.skipBlanks rest).isEmpty then some v else none
  | none => none

end SyncJobs.Json
