import SyncJobs.Json.Fields

/-!
# The status of a job

A job waits (`pending`), is worked on (`running`), and ends as `succeeded` or as `deadLetter`.
`canBecome` lists the four ways in which a status changes; nothing leaves the two ends.
-/

namespace SyncJobs

/-- **Where a job stands.** -/
inductive Status where
  /-- waits until it may be claimed -/
  | pending
  /-- claimed by exactly one worker -/
  | running
  /-- done, kept until it is purged -/
  | succeeded
  /-- failed for good -/
  | deadLetter
  deriving DecidableEq, Repr

namespace Status

/-- All statuses in the order of a job's life. -/
def all : List Status := [pending, running, succeeded, deadLetter]

/-- The name in data. -/
def name : Status → String
  | pending => "pending"
  | running => "running"
  | succeeded => "succeeded"
  | deadLetter => "dead_letter"

/-- The name in reports. -/
def title : Status → String
  | pending => "Pending"
  | running => "Running"
  | succeeded => "Succeeded"
  | deadLetter => "DeadLetter"

/-- The status with a name. -/
def ofName? (s : String) : Option Status := all.find? fun t => t.name = s

/-- The wording for a text that names no status. -/
def unknownMessage (s : String) : String := s!"unknown job status '{s}'"

theorem mem_all (s : Status) : s ∈ all := by cases s <;> decide

/-- **Names are read back.** -/
theorem ofName?_name (s : Status) : ofName? s.name = some s := by cases s <;> decide

/-- Whether a status is an end. -/
def isTerminal : Status → Bool
  | succeeded | deadLetter => true
  | pending | running => false

/-- Whether a job may pass from one status to another in one step. -/
def canBecome : Status → Status → Bool
  | pending, running => true
  | running, pending => true
  | running, succeeded => true
  | running, deadLetter => true
  | _, _ => false

/-- Nothing leaves an end. -/
theorem canBecome_of_isTerminal {s t : Status} (h : s.isTerminal) : canBecome s t = false := by
  cases s <;> cases t <;> simp_all [isTerminal, canBecome]

/-- A status as a value. -/
def toJson (s : Status) : Json := .string s.name

/-- Reads a status. -/
def ofJson? : Json → Option Status := Json.name? ofName?

end Status

end SyncJobs
