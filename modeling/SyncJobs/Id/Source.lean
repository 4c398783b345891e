import SyncJobs.ChaCha
import SyncJobs.Id
import SyncJobs.Time.Instant

/-!
# Sources of job ids

A source yields one id after the other. A *timed* source puts the time into the upper bits and
random bits below; while the time does not move on it counts up from the id before, so that ids
keep growing even if the clock stands still or is set back. A *stepping* source adds the same
number each time.
-/

namespace SyncJobs

/-- **Where new job ids come from.** -/
inductive IdSource where
  /-- the next id, and what is added to it each time -/
  | stepping (next : JobId) (step : BitVec 128)
  /-- the id yielded last (zero before the first), the random bits, and how many of them have been
  used -/
  | timed (previous : JobId) (random : Nat → BitVec 80) (used : Nat)

namespace IdSource

/-- The milliseconds that an id is stamped with; there are none before 1970. -/
def stamp (now : Instant) : Nat := now.millis.toNat

/-- An id made of a stamp, of which 48 bits are kept, and random bits. -/
def fresh {kind : IdKind} (stamp : Nat) (random : BitVec 80) : Id kind :=
  ⟨BitVec.ofNat 128 (stamp % Id.millisRange * Id.entropyRange + random.toNat)⟩

/-- The `n`-th portion of random bits of a seed. -/
def randomBits (seed : UInt64) (n : Nat) : BitVec 80 :=
  let key := ChaCha.keyOfSeed seed
  BitVec.ofNat 80 ((ChaCha.word64 key (2 * n)).toNat * 0x10000000000000000 +
    (ChaCha.word64 key (2 * n + 1)).toNat)

/-- The id after another one of the same stamp, unless the lower bits are used up. -/
def successor? (i : JobId) : Option JobId :=
  if i.entropy + 1 = Id.entropyRange then none else some ⟨i.bits + 1⟩

/-- A timed source at its start. -/
def ofRandom (random : Nat → BitVec 80) : IdSource := .timed ⟨0⟩ random 0

/-- **Takes one id.** -/
def next (now : Instant) : IdSource → JobId × IdSource
  | .stepping i step => (i, .stepping ⟨i.bits + step⟩ step)
  | .timed previous random used =>
    if stamp now ≤ previous.millis then
      match successor? previous with
      | some i => (i, .timed i random used)
      | none => (fresh (stamp now) (random used), .timed previous random (used + 1))
    else
      let i := fresh (stamp now) (random used)
      (i, .timed i random (used + 1))

end IdSource

end SyncJobs
