/-!
# The ChaCha stream of random words

A keyed generator of 32-bit words with twelve rounds. A block of sixteen words is computed from
the key and the number of the block alone, so any word can be had without those before it.
-/

namespace SyncJobs.ChaCha

/-- The eight words of a key. -/
abbrev Key := List UInt32

/-- The sixteen words of a state. -/
abbrev State := Array UInt32

/-- Rotates to the left; the amount is between 1 and 31. -/
def rotateLeft (x n : UInt32) : UInt32 := (x <<< n) ||| (x >>> (32 - n))

/-- Mixes four words of the state. -/
def quarterRound (s : State) (a b c d : Nat) : State :=
  let half (s : State) (m n : UInt32) : State :=
    let s := s.set! a (s.getD a 0 + s.getD b 0)
    let s := s.set! d (rotateLeft (s.getD d 0 ^^^ s.getD a 0) m)
    let s := s.set! c (s.getD c 0 + s.getD d 0)
    s.set! b (rotateLeft (s.getD b 0 ^^^ s.getD c 0) n)
  half (half s 16 12) 8 7

/-- Mixes the four columns, then the four diagonals. -/
def doubleRound (s : State) : State :=
  let s := quarterRound s 0 4 8 12
  let s := quarterRound s 1 5 9 13
  let s := quarterRound s 2 6 10 14
  let s := quarterRound s 3 7 11 15
  let s := quarterRound s 0 5 10 15
  let s := quarterRound s 1 6 11 12
  let s := quarterRound s 2 7 8 13
  quarterRound s 3 4 9 14

/-- The state before the rounds: four constants, the key, the number of the block as 64 bits,
and a stream number of zero. -/
def initial (key : Key) (block : UInt64) : State :=
  #[(0x61707865 : UInt32), 0x3320646e, 0x79622d32, 0x6b206574] ++ key.toArray ++
    #[block.toUInt32, (block >>> 32).toUInt32, 0, 0]

/-- **One block of sixteen words.** -/
def block (key : Key) (n : UInt64) : State :=
  let start := initial key n
  let mixed := (List.range 6).foldl (fun s _ => doubleRound s) start
  mixed.zipWith (· + ·) start

/-- The `n`-th pair of words of the stream as a number of 64 bits, the low word first. -/
def word64 (key : Key) (n : Nat) : UInt64 :=
  let words := block key (.ofNat (n / 8))
  let i := n % 8 * 2
  (words.getD i 0).toUInt64 ||| ((words.getD (i + 1) 0).toUInt64 <<< 32)

/-- The words that a 64-bit seed is stretched to, continuing from a state. -/
def stretch : Nat → UInt64 → Key
  | 0, _ => []
  | n + 1, state =>
    let state := state * 6364136223846793005 + 11634580027462260723
    let x := (((state >>> 18) ^^^ state) >>> 27).toUInt32
    let r := (state >>> 59).toUInt32
    ((x >>> r) ||| (x <<< ((32 - r) % 32))) :: stretch n state

/-- The key that a seed stands for. -/
def keyOfSeed (seed : UInt64) : Key := stretch 8 seed

end SyncJobs.ChaCha
