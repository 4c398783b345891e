import SyncJobs.Time.Instant
import SyncJobs.Time.Calendar

/-!
# The text of an instant

Written: `2026-03-01T09:00:00.120Z`. The year has at least four digits, and a sign outside
0 … 9999; a fraction of a second is left out if it is zero and otherwise has 3, 6 or 9 digits,
whichever is the shortest that suffices.

Read: the same, with more freedom. Numbers may have fewer digits and blanks before them, the
letter between date and time may be small or a blank, any number of digits may follow the point
(those after the ninth are dropped), and the offset may be `Z`, `z`, `UTC` or hours and minutes
with a sign.
-/

namespace SyncJobs

/-! ## Writing -/

/-- The decimal digits of a number, with zeros in front up to a width. -/
def padded (width n : Nat) : String :=
  let ds := Nat.toDigits 10 n
  String.ofList (List.replicate (width - ds.length) '0' ++ ds)

/-- The text of a year. -/
def yearText (year : Int) : String :=
  if 0 ≤ year ∧ year ≤ 9999 then padded 4 year.toNat
  else (if year < 0 then "-" else "+") ++ padded 4 year.natAbs

/-- The fraction of a second, with its point. -/
def fractionText (nanos : Nat) : String :=
  if nanos = 0 then ""
  else if nanos % 1000000 = 0 then "." ++ padded 3 (nanos / 1000000)
  else if nanos % 1000 = 0 then "." ++ padded 6 (nanos / 1000)
  else "." ++ padded 9 nanos

namespace Instant

/-- The whole seconds since 1970, rounded down. -/
def seconds (t : Instant) : Int := t.nanos / 1000000000

/-- **The text of an instant** in UTC. -/
def text (t : Instant) : String :=
  let date := Date.ofDays (t.seconds / 86400)
  let clock := (t.seconds % 86400).toNat
  yearText date.year ++ "-" ++ padded 2 date.month ++ "-" ++ padded 2 date.day ++ "T" ++
    padded 2 (clock / 3600) ++ ":" ++ padded 2 (clock / 60 % 60) ++ ":" ++ padded 2 (clock % 60) ++
    fractionText (t.nanos % 1000000000).toNat ++ "Z"

end Instant

/-! ## Reading -/

namespace TimeText

/-- Blanks of any script. -/
def isBlank (c : Char) : Bool :=
  let n := c.toNat
  (9 ≤ n && n ≤ 13) || n = 32 || n = 0x85 || n = 0xA0 || n = 0x1680 ||
    (0x2000 ≤ n && n ≤ 0x200A) || n = 0x2028 || n = 0x2029 || n = 0x202F || n = 0x205F ||
    n = 0x3000

/-- The text behind leading blanks. -/
def skipBlanks (cs : List Char) : List Char := cs.dropWhile isBlank

/-- The value of a run of decimal digits. -/
def valueOf (ds : List Char) : Nat :=
  ds.foldl (fun n c => n * 10 + (c.toNat - '0'.toNat)) 0

/-- Reads a number of at least one and at most `most` digits, after blanks. -/
def number? (most : Nat) (cs : List Char) : Option (Nat × List Char) :=
  let cs := skipBlanks cs
  let ds := (cs.take most).takeWhile Char.isDigit
  if ds.isEmpty then none else some (valueOf ds, cs.drop ds.length)

/-- Reads a year: up to four digits, or any number of digits after a sign. -/
def year? (cs : List Char) : Option (Int × List Char) :=
  match skipBlanks cs with
  | '-' :: rest => digits? rest fun n => -n
  | '+' :: rest => digits? rest fun n => n
  | cs => (number? 4 cs).map fun (n, rest) => (n, rest)
where
  /-- A run of digits without blanks, whose value fits 64 bits. -/
  digits? (cs : List Char) (sign : Int → Int) : Option (Int × List Char) :=
    let ds := cs.takeWhile Char.isDigit
    if ds.isEmpty || 0x8000000000000000 ≤ valueOf ds then none
    else some (sign (valueOf ds), cs.drop ds.length)

/-- Reads one given character, after blanks. -/
def mark? (c : Char) (cs : List Char) : Option (List Char) :=
  match skipBlanks cs with
  | d :: rest => if d = c then some rest else none
  | [] => none

/-- Reads the fraction of a second in nanoseconds, if there is a point. -/
def fraction? : List Char → Option (Nat × List Char)
  | '.' :: cs =>
    let ds := cs.takeWhile Char.isDigit
    let kept := ds.take 9
    if ds.isEmpty then none
    else some (valueOf kept * Nat.pow 10 (9 - kept.length), cs.drop ds.length)
  | cs => some (0, cs)

/-- Two decimal digits. -/
def twoDigits? : List Char → Option (Nat × List Char)
  | a :: b :: rest =>
    if a.isDigit && b.isDigit then some (valueOf [a, b], rest) else none
  | _ => none

/-- Reads the offset from UTC in seconds: `Z`, `UTC`, or hours and minutes with a sign. -/
def offset? (cs : List Char) : Option (Int × List Char) :=
  match skipBlanks cs with
  | 'Z' :: rest => some (0, rest)
  | 'z' :: rest => some (0, rest)
  | a :: rest =>
    if a.toUpper = 'U' then
      match rest with
      | b :: c :: rest => if b.toUpper = 'T' ∧ c.toUpper = 'C' then some (0, rest) else none
      | _ => none
    else if a = '+' then hoursAndMinutes? rest fun n => n
    else if a = '-' ∨ a = '\u2212' then hoursAndMinutes? rest fun n => -n
    else none
  | [] => none
where
  /-- Two digits of hours, colons or blanks, two digits of minutes. -/
  hoursAndMinutes? (cs : List Char) (sign : Int → Int) : Option (Int × List Char) := do
    let (hours, cs) ← twoDigits? cs
    let (minutes, cs) ← twoDigits? (cs.dropWhile fun c => c = ':' || isBlank c)
    if minutes < 60 then some (sign (hours * 3600 + minutes * 60), cs) else none

/-- Reads the letter between date and time. -/
def separator? : List Char → Option (List Char)
  | c :: rest => if c = 'T' ∨ c = 't' ∨ c = ' ' then some rest else none
  | [] => none

end TimeText

open TimeText in
/-- **Reads the text of an instant.** Dates that do not exist, hours from 24, minutes and seconds
from 60, and instants out of range are refused. -/
def Instant.parse? (text : String) : Option Instant := do
  let (year, cs) ← year? text.toList
  let cs ← mark? '-' cs
  let (month, cs) ← number? 2 cs
  let cs ← mark? '-' cs
  let (day, cs) ← number? 2 cs
  let cs ← separator? cs
  let (hour, cs) ← number? 2 cs
  let cs ← mark? ':' cs
  let (minute, cs) ← number? 2 cs
  let cs ← mark? ':' cs
  let (second, cs) ← number? 2 cs
  let (nanos, cs) ← fraction? cs
  let (offset, cs) ← offset? cs
  let date : Date := ⟨year, month, day⟩
  guard (skipBlanks cs).isEmpty
  guard (date.isValid && hour < 24 && minute < 60 && second < 60)
  guard (offset.natAbs < 86400)
  let seconds := date.toDays * 86400 + (hour * 3600 + minute * 60 + second : Nat)
  let inZone ← Instant.ofNanos? (seconds * 1000000000 + nanos)
  Instant.ofNanos? (inZone.nanos - offset * 1000000000)

end SyncJobs
