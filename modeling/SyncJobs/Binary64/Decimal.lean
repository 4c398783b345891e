import SyncJobs.Binary64

/-!
# Reading decimals

Two ways to read `digits · 10 ^ exponent`. `ofDecimal` is exact: it rounds the value once.
`ofScaledDigits` rounds twice, first the digits and then a product or quotient with a rounded
power of ten; it is what the JSON form prescribes, and it may miss the nearest number by a unit in
the last place when there are many digits or the power is large.
-/

namespace SyncJobs.Binary64

/-- The number of decimal digits, at least one. -/
def digitCount (n : Nat) : Nat := (Nat.toDigits 10 n).length

/-- **The nearest number to a decimal.** Far beyond the range the answer is settled without
computing the power of ten. -/
def ofDecimal (negative : Bool) (digits : Nat) (exponent : Int) : Binary64 :=
  if digits = 0 then zero negative
  else
    let point : Int := exponent + digitCount digits
    if 400 < point then .infinity negative
    else if point < -400 then zero negative
    else if 0 ≤ exponent then ofRatio negative (digits * Nat.pow 10 exponent.toNat) 1
    else ofRatio negative digits (Nat.pow 10 (-exponent).toNat)

/-- The nearest number to a power of ten. -/
def powerOfTen (n : Nat) : Binary64 := ofNat (Nat.pow 10 n)

/-- Whether a number is a zero. -/
def isZero : Binary64 → Bool
  | .finite _ 0 _ => true
  | _ => false

/-- Divides by a power of ten in steps of at most `10 ^ 308`, rounding after each. -/
def scaleDown (x : Binary64) (n : Nat) : Binary64 :=
  if n ≤ 308 then div x (powerOfTen n)
  else if x.isZero then x
  else scaleDown (div x (powerOfTen 308)) (n - 308)
termination_by n

/-- **Reads a decimal in two roundings;** `none` if the result is too large. -/
def ofScaledDigits (negative : Bool) (digits : Nat) (exponent : Int) : Option Binary64 :=
  let signed : Binary64 → Binary64
    | .finite _ m e => .finite negative m e
    | .infinity _ => .infinity negative
    | .nan => .nan
  let x := ofNat digits
  if exponent < 0 then some (signed (scaleDown x (-exponent).toNat))
  else if exponent ≤ 308 then
    match mul x (powerOfTen exponent.toNat) with
    | .infinity _ => none
    | y => some (signed y)
  else if x.isZero then some (signed x) else none

end SyncJobs.Binary64
