import SyncJobs.Binary64

/-!
# The fewest digits that read back

`Binary64.shortest` finds, for a positive finite number, the decimal `digits · 10 ^ exponent` with
the fewest digits that rounds back to the number, and of several such decimals the nearest one.

The reals that round to `m · 2 ^ e` form an interval around it, whose ends belong to it exactly if
`m` is even. For 1, 2, … 17 digits the two neighbours of the number on the grid of decimals with
that many digits are tested against the interval; the first grid with a hit wins. If any point of
a grid lies in the interval, then so does one of the two neighbours.
-/

namespace SyncJobs.Binary64

/-- A decimal: `digits · 10 ^ exponent`. -/
structure Decimal where
  digits : Nat
  exponent : Int
  deriving DecidableEq, Repr

/-- The interval of reals that round to a number, over a common denominator. -/
structure Interval where
  /-- the number itself is `value / den` -/
  value : Nat
  low : Nat
  high : Nat
  den : Nat
  /-- whether the ends belong to the interval -/
  closed : Bool

/-- The interval of `m · 2 ^ e`: half-way to each neighbour; below a power of two the gap is
half as wide, except at the least exponent. -/
def interval (m : Nat) (e : Int) : Interval :=
  let narrow := m = highestBit ∧ minExponent < e
  let (p, q) := if 0 ≤ e then (Nat.pow 2 e.toNat, 1) else (1, Nat.pow 2 (-e).toNat)
  { value := 4 * m * p
    low := (4 * m - (if narrow then 1 else 2)) * p
    high := (4 * m + 2) * p
    den := 4 * q
    closed := m % 2 = 0 }

/-- Whether the ratio `num / den` lies in the interval. -/
def Interval.contains (i : Interval) (num den : Nat) : Bool :=
  let x := num * i.den
  if i.closed then decide (i.low * den ≤ x ∧ x ≤ i.high * den)
  else decide (i.low * den < x ∧ x < i.high * den)

/-- The largest `k` with `10 ^ k ≤ n` among those below the fuel, for a positive `n`. -/
def log10 : Nat → Nat → Nat
  | 0, _ => 0
  | fuel + 1, n => if n < 10 then 0 else log10 fuel (n / 10) + 1

/-- The power of ten of the leading digit of a positive ratio. -/
def leadingPower (num den : Nat) : Int :=
  if den ≤ num then log10 (num / den) (num / den)
  else
    -- the least k with den ≤ num * 10 ^ k
    let k := log10 den ((den - 1) / num) + 1
    Int.negOfNat k

/-- The better of the two neighbours with `n` digits, if one lies in the interval. -/
def candidate? (i : Interval) (lead : Int) (n : Nat) : Option Decimal :=
  let exponent := lead - (n - 1 : Nat)
  let (up, down) :=
    if 0 ≤ exponent then (Nat.pow 10 exponent.toNat, 1) else (1, Nat.pow 10 (-exponent).toNat)
  -- the number is (value * down) / (den * up) units of the grid
  let num := i.value * down
  let den := i.den * up
  let below := num / den
  let above := below + 1
  let hitBelow := below ≠ 0 ∧ i.contains (below * up) down
  let hitAbove := i.contains (above * up) down
  let r := num % den
  if hitBelow ∧ hitAbove then
    if 2 * r < den then some ⟨below, exponent⟩
    else if den < 2 * r then some ⟨above, exponent⟩
    else if below % 2 = 0 then some ⟨below, exponent⟩ else some ⟨above, exponent⟩
  else if hitBelow then some ⟨below, exponent⟩
  else if hitAbove then some ⟨above, exponent⟩
  else none

/-- Takes zeros off the end of the digits. -/
def Decimal.trim (fuel : Nat) (d : Decimal) : Decimal :=
  match fuel with
  | 0 => d
  | fuel + 1 =>
    if d.digits ≠ 0 ∧ d.digits % 10 = 0 then trim fuel ⟨d.digits / 10, d.exponent + 1⟩ else d

/-- **The shortest decimal that reads back** as `m · 2 ^ e`, for a positive `m`. -/
def shortest (m : Nat) (e : Int) : Decimal :=
  let i := interval m e
  let lead := leadingPower i.value i.den
  let found := (List.range 17).findSome? fun n => candidate? i lead (n + 1)
  (found.getD ⟨m, e⟩).trim 18

/-- The decimal digits of a natural number. -/
def digitString (n : Nat) : String := String.ofList (Nat.toDigits 10 n)

/-- A run of zeros. -/
def zeros (n : Nat) : String := String.ofList (List.replicate n '0')

/-- The digits of a decimal with a point and no exponent: `1500`, `0.15`, `1.5`. -/
def Decimal.positional (d : Decimal) : String :=
  let ds := digitString d.digits
  let n := ds.length
  if 0 ≤ d.exponent then ds ++ zeros d.exponent.toNat
  else
    let places := (-d.exponent).toNat
    if places < n then
      String.ofList (ds.toList.take (n - places)) ++ "." ++
        String.ofList (ds.toList.drop (n - places))
    else "0." ++ zeros (places - n) ++ ds

/-- **The plain text of a number:** fewest digits, never an exponent, no fraction if whole. -/
def plain : Binary64 → String
  | .nan => "NaN"
  | .infinity s => if s then "-inf" else "inf"
  | .finite s m e =>
    let sign := if s then "-" else ""
    if m = 0 then sign ++ "0" else sign ++ (shortest m e).positional

/-- **The text of a finite number in a data file:** fewest digits; with a point from `1e-5` up to
`1e16`, otherwise with an exponent; a whole number keeps `.0`. What is not finite has no text. -/
def written? : Binary64 → Option String
  | .nan => none
  | .infinity _ => none
  | .finite s m e =>
    let sign := if s then "-" else ""
    if m = 0 then some (sign ++ "0.0")
    else
      let d := shortest m e
      let ds := digitString d.digits
      let point : Int := ds.length + d.exponent
      if 0 ≤ d.exponent ∧ point ≤ 16 then some (sign ++ d.positional ++ ".0")
      else if -5 < point ∧ point ≤ 16 then some (sign ++ d.positional)
      else
        let tail := String.ofList (ds.toList.drop 1)
        let mantissa := String.ofList (ds.toList.take 1) ++ (if tail = "" then "" else "." ++ tail)
        some (sign ++ mantissa ++ "e" ++ toString (point - 1))

end SyncJobs.Binary64
