import SyncJobs.Binary64
import SyncJobs.ChaCha

/-!
# Sources of jitter

A source yields samples one after the other. It is a value: taking a sample gives the source as
it is afterwards.
-/

namespace SyncJobs

/-- **Where samples come from.** -/
inductive Jitter where
  /-- the same sample always -/
  | constant (sample : Binary64)
  /-- the samples of a list over and over, those of `ahead` first; zero if there are none -/
  | cycle (ahead all : List Binary64)
  /-- a random stream, from the `position`-th pair of words on -/
  | stream (key : ChaCha.Key) (position : Nat)
  deriving Repr

namespace Jitter

/-- No jitter. -/
def none : Jitter := .constant (Binary64.zero false)

/-- The source of a seed: equal seeds give equal samples. -/
def ofSeed (seed : UInt64) : Jitter := .stream (ChaCha.keyOfSeed seed) 0

/-- The source that repeats a list. -/
def ofList (samples : List Binary64) : Jitter := .cycle samples samples

/-- What the upper 52 bits of a word are stretched by so that the largest gives one. -/
def stretch : Binary64 := Binary64.ofRatio false (Binary64.highestBit + 1) Binary64.highestBit

/-- The sample of a random word: its upper 52 bits as a number of `[0, 1]`. -/
def sampleOf (w : UInt64) : Binary64 :=
  ((Binary64.ofRatio false (w >>> 12).toNat Binary64.highestBit).mul stretch).add
    (Binary64.zero false)

/-- **Takes one sample.** -/
def next : Jitter → Binary64 × Jitter
  | .constant x => (x, .constant x)
  | .cycle (x :: ahead) all => (x, .cycle ahead all)
  | .cycle [] (x :: rest) => (x, .cycle rest (x :: rest))
  | .cycle [] [] => (Binary64.zero false, .cycle [] [])
  | .stream key n => (sampleOf (ChaCha.word64 key n), .stream key (n + 1))

/-- The next `n` samples. -/
def take : Nat → Jitter → List Binary64 × Jitter
  | 0, j => ([], j)
  | n + 1, j =>
    let (x, j) := j.next
    let (xs, j) := take n j
    (x :: xs, j)

end Jitter

end SyncJobs
