/-!
# Binary floating point with 53 significant bits

Numbers `± significand · 2 ^ exponent` with a significand below `2 ^ 53` and an exponent from
`-1074` to `971`, the two infinities, and not-a-number. Everything is exact arithmetic on `Nat`
and `Int` followed by one rounding, `ofRatio`: the nearest representable number, and of two
equally near ones the one with the even significand. An operation is the exact operation, then
that rounding.
-/

namespace SyncJobs

/-- **A binary floating-point number.** A finite number is in normal form when its significand
has 53 bits or its exponent is the least one; `ofRatio` and `ofBits` give normal forms. -/
inductive Binary64 where
  /-- not a number -/
  | nan
  /-- an infinity -/
  | infinity (negative : Bool)
  /-- the number `significand · 2 ^ exponent`, negated if `negative` -/
  | finite (negative : Bool) (significand : Nat) (exponent : Int)
  deriving DecidableEq, Repr, Inhabited

namespace Binary64

/-- The least exponent. -/
def minExponent : Int := -1074

/-- The greatest exponent. -/
def maxExponent : Int := 971

/-- The weight of the highest of 53 bits. -/
def highestBit : Nat := Nat.pow 2 52

/-- A zero with a sign. -/
def zero (negative : Bool) : Binary64 := .finite negative 0 minExponent

/-! ## Rounding -/

/-- The quotient of two natural numbers, rounded to the nearest one, a half to the even one. -/
def roundDiv (num den : Nat) : Nat :=
  let q := num / den
  let r := num % den
  if 2 * r < den then q
  else if den < 2 * r then q + 1
  else if q % 2 = 0 then q else q + 1

/-- Numerator and denominator of `num / den / 2 ^ e`. -/
def scaled (num den : Nat) (e : Int) : Nat × Nat :=
  if 0 ≤ e then (num, den * Nat.pow 2 e.toNat) else (num * Nat.pow 2 (-e).toNat, den)

/-- The exponent at which a positive ratio is rounded: its significand then has 53 bits, or the
exponent is the least one. -/
def roundingExponent (num den : Nat) : Int :=
  let guess : Int := (num.log2 : Int) - den.log2 - 52
  let s := scaled num den guess
  let e := if s.1 / s.2 < highestBit then guess - 1 else guess
  max e minExponent

/-- **The nearest number to a ratio,** infinite if the ratio is too large. -/
def ofRatio (negative : Bool) (num den : Nat) : Binary64 :=
  if num = 0 then zero negative
  else
    let e := roundingExponent num den
    let s := scaled num den e
    let m := roundDiv s.1 s.2
    let (m, e) := if m = 2 * highestBit then (highestBit, e + 1) else (m, e)
    if m = 0 then zero negative
    else if maxExponent < e then .infinity negative
    else .finite negative m e

/-- The nearest number to `significand · 2 ^ exponent`. -/
def ofScaled (negative : Bool) (significand : Nat) (exponent : Int) : Binary64 :=
  if 0 ≤ exponent then ofRatio negative (significand * Nat.pow 2 exponent.toNat) 1
  else ofRatio negative significand (Nat.pow 2 (-exponent).toNat)

/-- The nearest number to a natural number. -/
def ofNat (n : Nat) : Binary64 := ofRatio false n 1

/-- The nearest number to an integer; zero is positive. -/
def ofInt (n : Int) : Binary64 := ofRatio (decide (n < 0)) n.natAbs 1

/-! ## Arithmetic -/

/-- Whether the sign is set. -/
def negative : Binary64 → Bool
  | .nan => false
  | .infinity s => s
  | .finite s _ _ => s

/-- The product. -/
def mul : Binary64 → Binary64 → Binary64
  | .nan, _ => .nan
  | _, .nan => .nan
  | .infinity s, .infinity t => .infinity (s != t)
  | .infinity s, .finite t m _ => if m = 0 then .nan else .infinity (s != t)
  | .finite s m _, .infinity t => if m = 0 then .nan else .infinity (s != t)
  | .finite s m e, .finite t n f => ofScaled (s != t) (m * n) (e + f)

/-- The quotient. -/
def div : Binary64 → Binary64 → Binary64
  | .nan, _ => .nan
  | _, .nan => .nan
  | .infinity _, .infinity _ => .nan
  | .infinity s, .finite t _ _ => .infinity (s != t)
  | .finite s _ _, .infinity t => zero (s != t)
  | .finite s m e, .finite t n f =>
    if n = 0 then (if m = 0 then .nan else .infinity (s != t))
    else if f ≤ e then ofRatio (s != t) (m * Nat.pow 2 (e - f).toNat) n
    else ofRatio (s != t) m (n * Nat.pow 2 (f - e).toNat)

/-- The signed integer that a finite number is at an exponent not above its own. -/
def signedAt (negative : Bool) (significand : Nat) (exponent at_ : Int) : Int :=
  let m : Int := (significand * Nat.pow 2 (exponent - at_).toNat : Nat)
  if negative then -m else m

/-- The sum; a sum that is exactly zero is negative only if both terms are. -/
def add : Binary64 → Binary64 → Binary64
  | .nan, _ => .nan
  | _, .nan => .nan
  | .infinity s, .infinity t => if s = t then .infinity s else .nan
  | .infinity s, .finite _ _ _ => .infinity s
  | .finite _ _ _, .infinity t => .infinity t
  | .finite s m e, .finite t n f =>
    let g := min e f
    let sum := signedAt s m e g + signedAt t n f g
    if sum = 0 then zero (s && t) else ofScaled (decide (sum < 0)) sum.natAbs g

/-- Strictly less; false if either side is not a number. -/
def lt : Binary64 → Binary64 → Bool
  | .nan, _ => false
  | _, .nan => false
  | .infinity s, .infinity t => s && !t
  | .infinity s, .finite _ _ _ => s
  | .finite _ _ _, .infinity t => !t
  | .finite s m e, .finite t n f =>
    let g := min e f
    decide (signedAt s m e g < signedAt t n f g)

/-- Whether a number lies between two bounds, both included. -/
def within (lo hi x : Binary64) : Bool :=
  x != .nan && !lt x lo && !lt hi x

/-- The nearest point of an interval; what is not a number stays so. -/
def clamp (lo hi x : Binary64) : Binary64 :=
  let y := if lt x lo then lo else x
  if lt hi y then hi else y

/-! ## The 64-bit form -/

/-- The weight of the sign bit. -/
def signBit : Nat := Nat.pow 2 63

/-- The sign bit, eleven exponent bits and 52 bits of significand. -/
def toBits : Binary64 → BitVec 64
  | .nan => BitVec.ofNat 64 (2047 * highestBit + highestBit / 2)
  | .infinity s => BitVec.ofNat 64 (s.toNat * signBit + 2047 * highestBit)
  | .finite s m e =>
    let magnitude := if m < highestBit then m else (e - minExponent).toNat * highestBit + m
    BitVec.ofNat 64 (s.toNat * signBit + magnitude)

/-- Reads the 64-bit form. -/
def ofBits (bits : BitVec 64) : Binary64 :=
  let n := bits.toNat
  let s := decide (signBit ≤ n)
  let biased : Nat := n / highestBit % 2048
  let fraction : Nat := n % highestBit
  if biased = 2047 then (if fraction = 0 then .infinity s else .nan)
  else if biased = 0 then .finite s fraction minExponent
  else .finite s (highestBit + fraction) (minExponent + (biased : Int) - 1)

end Binary64

end SyncJobs
