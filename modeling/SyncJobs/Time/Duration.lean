import SyncJobs.Binary64

/-!
# Durations

A duration is a whole number of nanoseconds whose seconds fit 64 bits. Sums stop at the longest
duration; a product that would pass it does not exist. `scale?` multiplies by a floating-point
ratio: the ratio is multiplied with the seconds in floating point, and the exact value of that
product is rounded to the nearest nanosecond.
-/

namespace SyncJobs

/-- **A length of time** in nanoseconds, below `2 ^ 64` seconds. -/
structure Duration where
  nanos : Nat
  fits : nanos < 18446744073709551616000000000
  deriving DecidableEq, Repr

namespace Duration

/-- The length of time, if its seconds fit 64 bits. -/
def ofNanos? (n : Nat) : Option Duration :=
  if h : n < 18446744073709551616000000000 then some ⟨n, h⟩ else none

/-- The longest duration. -/
def longest : Duration := ⟨18446744073709551615999999999, by decide⟩

/-- The longest duration not above a number of nanoseconds. -/
def capped (n : Nat) : Duration :=
  if h : n < 18446744073709551616000000000 then ⟨n, h⟩ else longest

/-- A number of milliseconds. -/
def ofMillis (n : UInt64) : Duration :=
  ⟨n.toNat * 1000000, by have := n.toNat_lt; omega⟩

/-- A number of seconds. -/
def ofSeconds (n : UInt64) : Duration :=
  ⟨n.toNat * 1000000000, by have := n.toNat_lt; omega⟩

/-- The length zero. -/
def zero : Duration := ⟨0, by decide⟩

instance : Inhabited Duration := ⟨zero⟩

/-- The shorter of two. -/
def min (d e : Duration) : Duration := if d.nanos ≤ e.nanos then d else e

/-- The longer of two. -/
def max (d e : Duration) : Duration := if d.nanos ≤ e.nanos then e else d

/-- The sum, or the longest duration. -/
def add (d e : Duration) : Duration := capped (d.nanos + e.nanos)

/-- The product, if it is a duration. -/
def mul? (d : Duration) (n : Nat) : Option Duration := ofNanos? (d.nanos * n)

/-- The whole milliseconds. -/
def millis (d : Duration) : Nat := d.nanos / 1000000

/-- The seconds in floating point: whole seconds and nanoseconds are converted one by one. -/
def seconds (d : Duration) : Binary64 :=
  (Binary64.ofNat (d.nanos / 1000000000)).add
    ((Binary64.ofNat (d.nanos % 1000000000)).div (Binary64.ofNat 1000000000))

/-- The duration nearest to a number of seconds, a half going to the even nanosecond; `none` for
what is not a number, for negative numbers and from `2 ^ 64` on. -/
def ofFloatSeconds? : Binary64 → Option Duration
  | .nan => none
  | .infinity _ => none
  | .finite s m e =>
    if s ∧ m ≠ 0 then none
    else if 0 ≤ e then
      if e ≤ 64 then ofNanos? (m * Nat.pow 2 e.toNat * 1000000000)
      else if m = 0 then some zero else none
    else ofNanos? (Binary64.roundDiv (m * 1000000000) (Nat.pow 2 (-e).toNat))

/-- The product with a floating-point ratio, if it is a duration. -/
def scale? (d : Duration) (ratio : Binary64) : Option Duration :=
  ofFloatSeconds? (ratio.mul d.seconds)

@[simp] theorem nanos_ofMillis (n : UInt64) : (ofMillis n).nanos = n.toNat * 1000000 := rfl

@[simp] theorem nanos_ofSeconds (n : UInt64) : (ofSeconds n).nanos = n.toNat * 1000000000 := rfl

theorem nanos_capped (n : Nat) : (capped n).nanos = Nat.min n 18446744073709551615999999999 := by
  unfold capped longest
  split <;> simp only [Nat.min_def] <;> split <;> omega

theorem nanos_add (d e : Duration) :
    (d.add e).nanos = Nat.min (d.nanos + e.nanos) 18446744073709551615999999999 :=
  nanos_capped _

theorem nanos_min (d e : Duration) : (d.min e).nanos = Nat.min d.nanos e.nanos := by
  unfold min
  simp only [Nat.min_def]
  split <;> rfl

end Duration

end SyncJobs
