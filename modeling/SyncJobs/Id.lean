import SyncJobs.Crockford

/-!
# Identifiers

Jobs and accounts are named by 128-bit values whose upper 48 bits are a time in milliseconds and
whose lower 80 bits keep ids of one millisecond apart. An `Id` carries the kind of thing it names
in its type, so that a job is never looked up by an account's id.

An id has two texts: the bare *storage* form of 26 digits, and the *display* form with the tag of
its kind in front. `Id.parse` reads both; `Id.ofStorage` reads only the first.
-/

namespace SyncJobs

/-- The kinds of things that have ids. -/
inductive IdKind where
  | job
  | account
  deriving DecidableEq, Repr

/-- What stands in front of the digits in the display form. -/
def IdKind.tag : IdKind → String
  | .job => "job-"
  | .account => "acct-"

/-- **An identifier of one kind of thing.** -/
structure Id (kind : IdKind) where
  /-- the whole 128-bit value -/
  bits : BitVec 128
  deriving DecidableEq, Repr

/-- The name of a job. -/
abbrev JobId := Id .job

/-- The name of an account. -/
abbrev AccountId := Id .account

/-- A text that names no id, with what is wrong with it. -/
structure IdError where
  /-- the text as it was given -/
  input : String
  /-- the fault found after a tag was taken off -/
  fault : Crockford.Malformed
  deriving DecidableEq, Repr

/-- The wording of the error. -/
def IdError.message (e : IdError) : String :=
  s!"invalid id '{e.input}': {e.fault.message}"

namespace Id

variable {kind : IdKind}

/-- The bare form: 26 digits. -/
def storage (i : Id kind) : String := Crockford.encode i.bits

/-- The form shown to people: the tag and the digits. -/
def display (i : Id kind) : String := kind.tag ++ i.storage

/-- Reads the bare form only. -/
def ofStorage (text : String) : Except Crockford.Malformed (Id kind) :=
  (Crockford.decode text).map Id.mk

/-- The text behind the kind's tag, or the whole text if the tag is missing. -/
def withoutTag (kind : IdKind) (text : String) : String :=
  if kind.tag.toList.isPrefixOf text.toList then
    String.ofList (text.toList.drop kind.tag.length)
  else text

/-- Reads either form. The tag is taken off at most once. -/
def parse (text : String) : Except IdError (Id kind) :=
  match ofStorage (withoutTag kind text) with
  | .ok i => .ok i
  | .error fault => .error ⟨text, fault⟩

/-- How many values the lower bits can have: `2 ^ 80`. -/
def entropyRange : Nat := 0x100000000000000000000

/-- How many values the upper bits can have: `2 ^ 48`. -/
def millisRange : Nat := 0x1000000000000

/-- The upper 48 bits: the time of the id in milliseconds. -/
def millis (i : Id kind) : Nat := i.bits.toNat / entropyRange

/-- The lower 80 bits. -/
def entropy (i : Id kind) : Nat := i.bits.toNat % entropyRange

/-- The place of the id in the order of ids. -/
def rank (i : Id kind) : Nat := i.bits.toNat

theorem rank_injective {i j : Id kind} (h : i.rank = j.rank) : i = j := by
  cases i; cases j
  simp only [rank] at h
  simp [BitVec.eq_of_toNat_eq h]

end Id

end SyncJobs
