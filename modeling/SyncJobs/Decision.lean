import SyncJobs.Status
import SyncJobs.Time.Text

/-!
# Decisions

What becomes of a job after an attempt. Every decision counts one attempt and leads out of
`running`.
-/

namespace SyncJobs

/-- **The transition to write down after an attempt.** -/
inductive Decision where
  /-- the job is done; its last error is cleared -/
  | succeed (items : UInt64)
  /-- the job waits again, until a later time -/
  | retry (runAfter : Instant) (error : String)
  /-- the job has failed for good -/
  | deadLetter (error : String)
  deriving DecidableEq, Repr

namespace Decision

/-- The status that the job takes. -/
def nextStatus : Decision → Status
  | succeed _ => .succeeded
  | retry _ _ => .pending
  | deadLetter _ => .deadLetter

/-- The error that the job keeps. -/
def error? : Decision → Option String
  | succeed _ => none
  | retry _ e => some e
  | deadLetter e => some e

/-- The time at which the job is due again. -/
def runAfter? : Decision → Option Instant
  | retry t _ => some t
  | succeed _ => none
  | deadLetter _ => none

/-- A running job may take the status of any decision. -/
theorem canBecome_nextStatus (d : Decision) : Status.running.canBecome d.nextStatus := by
  cases d <;> rfl

/-- A decision as a value; its kind is the member `decision`. -/
def toJson : Decision → Json
  | succeed n => .object [("decision", .string "succeed"), ("items_synced", .ofUInt64 n)]
  | retry t e => .object
    [("decision", .string "retry"), ("run_after", Json.ofInstant t), ("error", .string e)]
  | deadLetter e => .object [("decision", .string "dead_letter"), ("error", .string e)]

/-- Reads a decision. -/
def ofJson? : Json → Option Decision := Json.tagged "decision" fun
  | "succeed" => some do return succeed (← Json.Fields.required "items_synced" Json.uint64?)
  | "retry" => some do
    let t ← Json.Fields.required "run_after" Json.instant?
    let e ← Json.Fields.required "error" Json.text?
    return retry t e
  | "dead_letter" => some do return deadLetter (← Json.Fields.required "error" Json.text?)
  | _ => none

end Decision

end SyncJobs
