import SyncJobs.Json.Fields

/-!
# Domains

The categories of data that jobs synchronize. The set is closed: each domain has one collaborator
that does its work.
-/

namespace SyncJobs

/-- **A category of data.** -/
inductive Domain where
  | email
  | calendar
  | tasks
  deriving DecidableEq, Repr

namespace Domain

/-- All domains in their usual order. -/
def all : List Domain := [email, calendar, tasks]

/-- The name in data. -/
def name : Domain → String
  | email => "email"
  | calendar => "calendar"
  | tasks => "tasks"

/-- The name in reports. -/
def title : Domain → String
  | email => "Email"
  | calendar => "Calendar"
  | tasks => "Tasks"

/-- The domain with a name. -/
def ofName? (s : String) : Option Domain := all.find? fun d => d.name = s

/-- The wording for a text that names no domain. -/
def unknownMessage (s : String) : String := s!"unknown sync domain '{s}'"

theorem mem_all (d : Domain) : d ∈ all := by cases d <;> decide

/-- **Names are read back.** -/
theorem ofName?_name (d : Domain) : ofName? d.name = some d := by cases d <;> decide

/-- A domain as a value. -/
def toJson (d : Domain) : Json := .string d.name

/-- Reads a domain. -/
def ofJson? : Json → Option Domain := Json.name? ofName?

/-- A list of domains in reports: `[Email, Tasks]`. -/
def listText (ds : List Domain) : String :=
  "[" ++ ", ".intercalate (ds.map title) ++ "]"

end Domain

end SyncJobs
