import SyncJobs.Time.Duration

/-!
# Backoff

How long to wait before the next attempt: a base delay doubled with every attempt, up to a cap,
plus a random share (*jitter*) of the delay. A delay is at least a millisecond.
-/

namespace SyncJobs

/-- **The rule for delays.** -/
structure Backoff where
  /-- the delay that is doubled -/
  base : Duration
  /-- the longest delay before jitter -/
  cap : Duration
  /-- the largest share of the delay that jitter adds -/
  jitterRatio : Binary64
  deriving DecidableEq, Repr

namespace Backoff

/-- The usual share: a fifth. -/
def usualJitterRatio : Binary64 := Binary64.ofRatio false 1 5

/-- The usual rule: 30 seconds, at most 256 times as long. -/
def usual : Backoff := ⟨⟨30000000000, by decide⟩, ⟨7680000000000, by decide⟩, usualJitterRatio⟩

/-- A rule with the usual share of jitter. -/
def ofDelays (base cap : Duration) : Backoff := ⟨base, cap, usualJitterRatio⟩

/-- `2 ^ n`, as long as it fits 32 bits. -/
def factor? (n : UInt32) : Option Nat := if n.toNat < 32 then some (Nat.pow 2 n.toNat) else none

/-- **The delay before jitter:** `base · 2 ^ n`, at most the cap. -/
def delay (b : Backoff) (n : UInt32) : Duration :=
  match (factor? n).bind b.base.mul? with
  | some d => d.min b.cap
  | none => b.cap

/-- The share of the delay that a sample of `[0, 1]` adds. Both factors are first brought into
that interval. -/
def share (b : Backoff) (sample : Binary64) : Binary64 :=
  (Binary64.clamp (Binary64.zero false) (Binary64.ofNat 1) b.jitterRatio).mul
    (Binary64.clamp (Binary64.zero false) (Binary64.ofNat 1) sample)

/-- The shortest delay. -/
def shortest : Duration := ⟨1000000, by decide⟩

/-- **The delay with jitter.** There is none if the share of the delay is not a duration: if a
factor is not a number, or rounding carries the product beyond the longest duration. -/
def delayWith? (b : Backoff) (n : UInt32) (sample : Binary64) : Option Duration :=
  let d := b.delay n
  (d.scale? (b.share sample)).map fun jitter => (d.add jitter).max shortest

end Backoff

end SyncJobs
