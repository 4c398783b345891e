import SyncJobs.Time.Duration

/-!
# Instants

A point in time is a whole number of nanoseconds since 1970-01-01T00:00:00Z, between the first
instant of the year -262143 and the last of the year 262142. Adding or subtracting a duration
stops at these ends, so neither operation can fail (`nanos_add`, `nanos_sub`).
-/

namespace SyncJobs

/-- **A point in time** of the proleptic Gregorian calendar in UTC. -/
structure Instant where
  /-- nanoseconds since the start of 1970 -/
  nanos : Int
  lower : -8334601228800000000000 ≤ nanos
  upper : nanos < 8210266876800000000000
  deriving DecidableEq, Repr

namespace Instant

/-- The first instant there is: -262143-01-01T00:00:00Z. -/
def earliest : Instant := ⟨-8334601228800000000000, by decide, by decide⟩

/-- The last instant there is: +262142-12-31T23:59:59.999999999Z. -/
def latest : Instant := ⟨8210266876799999999999, by decide, by decide⟩

/-- The start of 1970. -/
def epoch : Instant := ⟨0, by decide, by decide⟩

instance : Inhabited Instant := ⟨epoch⟩

/-- The instant at a number of nanoseconds, if there is one. -/
def ofNanos? (n : Int) : Option Instant :=
  if h : -8334601228800000000000 ≤ n ∧ n < 8210266876800000000000 then some ⟨n, h.1, h.2⟩
  else none

/-- The instant at a number of nanoseconds, or the nearer end of time. -/
def clamped (n : Int) : Instant :=
  if h₁ : n < -8334601228800000000000 then earliest
  else if h₂ : n < 8210266876800000000000 then ⟨n, by omega, h₂⟩
  else latest

/-- A later instant, at most the latest. -/
def add (t : Instant) (d : Duration) : Instant := clamped (t.nanos + d.nanos)

/-- An earlier instant, at least the earliest. -/
def sub (t : Instant) (d : Duration) : Instant := clamped (t.nanos - d.nanos)

/-- The instant a signed number of milliseconds away, if there is one. -/
def shift? (t : Instant) (ms : Int) : Option Instant := ofNanos? (t.nanos + ms * 1000000)

/-- The whole milliseconds since 1970, rounded down. -/
def millis (t : Instant) : Int := t.nanos.fdiv 1000000

/-- The instant at a whole number of milliseconds, if there is one. -/
def ofMillis? (ms : Int) : Option Instant := ofNanos? (ms * 1000000)

/-- Not later than. -/
instance : LE Instant := ⟨fun s t => s.nanos ≤ t.nanos⟩

/-- Earlier than. -/
instance : LT Instant := ⟨fun s t => s.nanos < t.nanos⟩

instance (s t : Instant) : Decidable (s ≤ t) := inferInstanceAs (Decidable (s.nanos ≤ t.nanos))

instance (s t : Instant) : Decidable (s < t) := inferInstanceAs (Decidable (s.nanos < t.nanos))

theorem le_def {s t : Instant} : s ≤ t ↔ s.nanos ≤ t.nanos := Iff.rfl

theorem lt_def {s t : Instant} : s < t ↔ s.nanos < t.nanos := Iff.rfl

theorem ext {s t : Instant} (h : s.nanos = t.nanos) : s = t := by
  cases s; cases t; cases h; rfl

theorem nanos_clamped (n : Int) :
    (clamped n).nanos =
      max (-8334601228800000000000) (min n (8210266876799999999999)) := by
  unfold clamped earliest latest
  split
  · simp only []; omega
  · split
    · simp only []; omega
    · simp only []; omega

/-- **Adding stops at the latest instant.** -/
theorem nanos_add (t : Instant) (d : Duration) :
    (t.add d).nanos = min (t.nanos + d.nanos) latest.nanos := by
  have h := t.lower
  simp only [add, nanos_clamped, latest]
  omega

/-- **Subtracting stops at the earliest instant.** -/
theorem nanos_sub (t : Instant) (d : Duration) :
    (t.sub d).nanos = max (t.nanos - d.nanos) earliest.nanos := by
  have h := t.upper
  simp only [sub, nanos_clamped, earliest]
  omega

end Instant

end SyncJobs
