import SyncJobs.Json.Fields

/-!
# Outcomes

What a collaborator answers (`Report` or `Failure`), and the classified result of a whole attempt
(`Outcome`). A failure is transient, and worth another try, or permanent.
-/

namespace SyncJobs

/-- Whether a failure may pass. -/
inductive FailureKind where
  /-- may pass: a timeout, a rate limit -/
  | transient
  /-- will not pass: wrong credentials, a malformed request -/
  | permanent
  deriving DecidableEq, Repr

namespace FailureKind

/-- The name in data. -/
def name : FailureKind → String
  | transient => "transient"
  | permanent => "permanent"

/-- The name in reports. -/
def title : FailureKind → String
  | transient => "Transient"
  | permanent => "Permanent"

/-- The kind with a name. -/
def ofName? (s : String) : Option FailureKind := [transient, permanent].find? fun k => k.name = s

/-- Reads a kind of failure. -/
def ofJson? : Json → Option FailureKind := Json.name? ofName?

end FailureKind

/-- **A failure** with its classification. -/
structure Failure where
  kind : FailureKind
  reason : String
  deriving DecidableEq, Repr

namespace Failure

/-- The wording of a failure. -/
def message (f : Failure) : String := s!"{f.kind.title} sync error: {f.reason}"

/-- Whether another try may help. -/
def isRetryable (f : Failure) : Bool := f.kind = .transient

end Failure

/-- What a collaborator reports when it is done. -/
structure Report where
  /-- how many items were synchronized -/
  items : UInt64
  deriving DecidableEq, Repr

/-- The fields of a report. -/
def Report.fields : Json.Fields.Reader Report := do
  let items ← Json.Fields.required "items_synced" Json.uint64?
  return ⟨items⟩

/-- A report as a value. -/
def Report.toJson (r : Report) : Json := .object [("items_synced", .ofUInt64 r.items)]

/-- Reads a report. -/
def Report.ofJson? : Json → Option Report := Json.record Report.fields

/-- **The result of one attempt.** -/
inductive Outcome where
  | success (items : UInt64)
  | transient (error : String)
  | permanent (error : String)
  deriving DecidableEq, Repr

namespace Outcome

/-- The classification of an outcome without its content. -/
inductive Kind where
  | success
  | transient
  | permanent
  deriving DecidableEq, Repr

/-- All classifications. -/
def Kind.all : List Kind := [.success, .transient, .permanent]

/-- The name of a classification. -/
def Kind.name : Kind → String
  | .success => "SUCCESS"
  | .transient => "TRANSIENT"
  | .permanent => "PERMANENT"

/-- Reads a classification. -/
def Kind.ofJson? : Json → Option Kind :=
  Json.name? fun s => Kind.all.find? fun k => k.name = s

/-- The classification. -/
def kind : Outcome → Kind
  | success _ => .success
  | transient _ => .transient
  | permanent _ => .permanent

/-- The error, if the attempt failed. -/
def error? : Outcome → Option String
  | success _ => none
  | transient e => some e
  | permanent e => some e

/-- The outcome of a failure: its reason under its own classification. -/
def ofFailure (f : Failure) : Outcome :=
  match f.kind with
  | .transient => transient f.reason
  | .permanent => permanent f.reason

/-- The outcome of a collaborator's answer. -/
def ofAnswer : Except Failure Report → Outcome
  | .ok r => success r.items
  | .error f => ofFailure f

/-- An outcome as a value; the classification is the member `kind`. -/
def toJson : Outcome → Json
  | success n => .object [("kind", .string "success"), ("items_synced", .ofUInt64 n)]
  | transient e => .object [("kind", .string "transient"), ("error", .string e)]
  | permanent e => .object [("kind", .string "permanent"), ("error", .string e)]

/-- Reads an outcome. -/
def ofJson? : Json → Option Outcome := Json.tagged "kind" fun
  | "success" => some do return success (← Json.Fields.required "items_synced" Json.uint64?)
  | "transient" => some do return transient (← Json.Fields.required "error" Json.text?)
  | "permanent" => some do return permanent (← Json.Fields.required "error" Json.text?)
  | _ => none

end Outcome

end SyncJobs
