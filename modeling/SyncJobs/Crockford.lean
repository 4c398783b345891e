/-!
# Crockford base 32

Numbers of 128 bits written with 26 digits to the base 32. The alphabet leaves out `I`, `L`, `O`
and `U`; it is ascending in code points, so that texts of equal length compare like the numbers
they stand for. Reading takes either case. Twenty-six digits hold 130 bits: the two surplus bits
are always zero in what `encode` writes and are dropped by `decode`.
-/

namespace SyncJobs.Crockford

/-- The digits in order of their value. -/
def alphabet : List Char := "0123456789ABCDEFGHJKMNPQRSTVWXYZ".toList

/-- The digit of a value below 32. -/
def digit (v : Nat) : Char := alphabet.getD v '0'

/-- The value of a digit, in either case. -/
def value? (c : Char) : Option Nat := alphabet.idxOf? c.toUpper

/-- The last `n` base-32 digits of a number, most significant first. -/
def digits : Nat → Nat → List Char
  | 0, _ => []
  | n + 1, u => digits n (u / 32) ++ [digit (u % 32)]

/-- The number that a list of digits stands for, continuing from the digits already read. -/
def number? (acc : Nat) : List Char → Option Nat
  | [] => some acc
  | c :: cs => (value? c).bind fun v => number? (acc * 32 + v) cs

/-- How many digits a text has. -/
def width : Nat := 26

/-- What can be wrong with a text that should hold 128 bits. -/
inductive Malformed where
  /-- the text does not have 26 bytes -/
  | length
  /-- some character is not a digit -/
  | character
  deriving DecidableEq, Repr

/-- The wording of the fault. -/
def Malformed.message : Malformed → String
  | .length => "invalid length"
  | .character => "invalid character"

/-- The text of a value: 26 digits in upper case. -/
def encode (u : BitVec 128) : String := String.ofList (digits width u.toNat)

/-- Reads a text of 26 bytes; the length is judged first, and bits above the 128th are dropped. -/
def decode (text : String) : Except Malformed (BitVec 128) :=
  if text.utf8ByteSize ≠ width then .error .length
  else match number? 0 text.toList with
    | some n => .ok (BitVec.ofNat 128 n)
    | none => .error .character

@[simp] theorem length_digits (n u : Nat) : (digits n u).length = n := by
  induction n generalizing u with
  | zero => rfl
  | succ n ih => simp [digits, ih]

end SyncJobs.Crockford
