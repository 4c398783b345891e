import SyncJobs.Json
import SyncJobs.Time.Text

/-!
# Records in JSON

A record is written as an object whose members are its fields. It is read from an object, where
fields may come in any order, unknown members are skipped and a field must not be given twice, or
from an array that holds the fields by place. A `Fields.Reader` asks for the fields one after the
other; `Json.record` runs it on a value, and `Json.tagged` chooses the reader by the text of one
field, the tag.
-/

namespace SyncJobs.Json

/-- Where the fields of a record come from. -/
inductive Fields where
  /-- members, found by name -/
  | members (ms : List (String × Json))
  /-- items, taken in order -/
  | items (vs : List Json)

/-- A reader of some fields of a record. -/
abbrev Fields.Reader (α : Type) := StateT Fields Option α

/-- The values of the members with a name. -/
def named (name : String) (ms : List (String × Json)) : List Json :=
  (ms.filter fun m => m.1 = name).map (·.2)

namespace Fields

/-- A field that must be there. -/
def required {α : Type} (name : String) (read : Json → Option α) : Reader α := fun source =>
  match source with
  | .members ms => match named name ms with
    | [v] => (read v).map (·, source)
    | _ => none
  | .items (v :: vs) => (read v).map (·, .items vs)
  | .items [] => none

/-- A field that may be missing from an object or be `null`. -/
def nullable {α : Type} (name : String) (read : Json → Option α) : Reader (Option α) :=
  fun source =>
  let readNullable : Json → Option (Option α)
    | .null => some none
    | v => (read v).map some
  match source with
  | .members ms => match named name ms with
    | [] => some (none, source)
    | [v] => (readNullable v).map (·, source)
    | _ => none
  | .items (v :: vs) => (readNullable v).map (·, .items vs)
  | .items [] => none

/-- A field that may be missing, in which case it has a default value. -/
def defaulted {α : Type} (name : String) (read : Json → Option α) (default : α) : Reader α :=
  fun source =>
  match source with
  | .members ms => match named name ms with
    | [] => some (default, source)
    | [v] => (read v).map (·, source)
    | _ => none
  | .items (v :: vs) => (read v).map (·, .items vs)
  | .items [] => some (default, source)

/-- A field that may be missing or `null`, and is missing by default. -/
def optional {α : Type} (name : String) (read : Json → Option α) : Reader (Option α) :=
  defaulted name (fun v => match v with
    | .null => some none
    | v => (read v).map some) none

/-- Runs a reader to the end. Members that it did not ask for are skipped, surplus items not. -/
def run {α : Type} (reader : Reader α) (source : Fields) : Option α :=
  match reader source with
  | some (a, .members _) => some a
  | some (a, .items []) => some a
  | _ => none

end Fields

/-- Reads a record. -/
def record {α : Type} (reader : Fields.Reader α) : Json → Option α
  | .object ms => Fields.run reader (.members ms)
  | .array vs => Fields.run reader (.items vs)
  | _ => none

/-- Reads a record whose fields depend on its tag. -/
def tagged {α : Type} (tag : String) (variant : String → Option (Fields.Reader α)) :
    Json → Option α
  | .object ms => match named tag ms with
    | [.string s] => (variant s).bind fun r =>
      Fields.run r (.members (ms.filter fun m => m.1 ≠ tag))
    | _ => none
  | .array (.string s :: vs) => (variant s).bind fun r => Fields.run r (.items vs)
  | _ => none

/-! ## Single values -/

/-- Reads a text. -/
def text? : Json → Option String
  | .string s => some s
  | _ => none

/-- Reads a truth value. -/
def bool? : Json → Option Bool
  | .bool b => some b
  | _ => none

/-- Reads a natural number below a bound. -/
def natBelow? (bound : Nat) : Json → Option Nat
  | .integer n => if 0 ≤ n.value ∧ n.value.toNat < bound then some n.value.toNat else none
  | _ => none

/-- Reads a number of at most 32 bits. -/
def uint32? (v : Json) : Option UInt32 := (natBelow? 0x100000000 v).map UInt32.ofNat

/-- Reads a number of at most 64 bits. -/
def uint64? (v : Json) : Option UInt64 := (natBelow? 0x10000000000000000 v).map UInt64.ofNat

/-- Reads a count of things. -/
def count? (v : Json) : Option Nat := natBelow? 0x10000000000000000 v

/-- Reads a signed number of 64 bits. -/
def int64? : Json → Option Int64
  | .integer n => if n.value < 0x8000000000000000 then some (Int64.ofInt n.value) else none
  | _ => none

/-- Reads a number as a float; an integer is rounded to the nearest one. -/
def float? : Json → Option Binary64
  | .float x => some x
  | .integer n => some (Binary64.ofInt n.value)
  | _ => none

/-- Reads an instant. -/
def instant? : Json → Option Instant
  | .string s => Instant.parse? s
  | _ => none

/-- An instant as a value. -/
def ofInstant (t : Instant) : Json := .string t.text

/-- Reads one of a set of names: a text, or an object with the name as its one member and the
value `null`. -/
def name? {α : Type} (ofName? : String → Option α) : Json → Option α
  | .string s => ofName? s
  | .object [(s, .null)] => ofName? s
  | _ => none

end SyncJobs.Json
