import SyncJobs.Domain
import SyncJobs.Status
import SyncJobs.Decision

/-!
# Counting

`Summary` counts what the attempts of a run came to; `Counts` counts the jobs of a store by
status. Both are sums, so the order in which things are counted does not matter
(`record_comm`).

The counters of a summary have 64 bits and start again from zero behind the greatest number. Where
overflow is looked for, `record?`, `merge?` and `attempts?` stand for `record`, `merge` and
`attempts`: they give the same results, or none.
-/

namespace SyncJobs

/-- **What the attempts of a run came to.** -/
structure Summary where
  completed : UInt64 := 0
  failed : UInt64 := 0
  retried : UInt64 := 0
  emailItems : UInt64 := 0
  calendarItems : UInt64 := 0
  taskItems : UInt64 := 0
  deriving DecidableEq, Repr, Inhabited

namespace Summary

/-- Adds items to the counter of a domain. -/
def addItems (s : Summary) (n : UInt64) : Domain → Summary
  | .email => { s with emailItems := s.emailItems + n }
  | .calendar => { s with calendarItems := s.calendarItems + n }
  | .tasks => { s with taskItems := s.taskItems + n }

/-- Counts one attempt. -/
def record (s : Summary) (domain : Domain) : Decision → Summary
  | .succeed n => { s with completed := s.completed + 1 }.addItems n domain
  | .retry _ _ => { s with retried := s.retried + 1 }
  | .deadLetter _ => { s with failed := s.failed + 1 }

/-- The sum of two summaries. -/
def merge (s t : Summary) : Summary where
  completed := s.completed + t.completed
  failed := s.failed + t.failed
  retried := s.retried + t.retried
  emailItems := s.emailItems + t.emailItems
  calendarItems := s.calendarItems + t.calendarItems
  taskItems := s.taskItems + t.taskItems

/-- The number of attempts counted. -/
def attempts (s : Summary) : UInt64 := s.completed + s.failed + s.retried

/-- Whether nothing was counted. -/
def isEmpty (s : Summary) : Bool := s = {}

/-- **The order of counting does not matter.** -/
theorem record_comm (s : Summary) (d₁ d₂ : Domain) (x y : Decision) :
    (s.record d₁ x).record d₂ y = (s.record d₂ y).record d₁ x := by
  have right_comm (a b c : UInt64) : a + b + c = a + c + b := by
    rw [UInt64.add_assoc, UInt64.add_comm b, ← UInt64.add_assoc]
  cases x <;> cases y <;> cases d₁ <;> cases d₂ <;> simp [record, addItems, right_comm]

/-! ### Looking for overflow -/

/-- The counters. -/
def counters (s : Summary) : List UInt64 :=
  [s.completed, s.failed, s.retried, s.emailItems, s.calendarItems, s.taskItems]

/-- Whether no counter overflows in the sum of two summaries. -/
def fits (s t : Summary) : Bool :=
  (s.counters.zip t.counters).all fun (a, b) => a.toNat + b.toNat < UInt64.size

/-- The sum of two summaries, if no counter overflows. -/
def merge? (s t : Summary) : Option Summary := if s.fits t then some (s.merge t) else none

/-- Counts one attempt, if no counter overflows. -/
def record? (s : Summary) (domain : Domain) (d : Decision) : Option Summary :=
  if s.fits (record {} domain d) then some (s.record domain d) else none

/-- The number of attempts counted, if it does not overflow. -/
def attempts? (s : Summary) : Option UInt64 :=
  if s.completed.toNat + s.failed.toNat + s.retried.toNat < UInt64.size then some s.attempts
  else none

/-! ### Summaries as values -/

/-- A summary as a value. -/
def toJson (s : Summary) : Json := .object
  [("completed_jobs", .ofUInt64 s.completed), ("failed_jobs", .ofUInt64 s.failed),
    ("retried_jobs", .ofUInt64 s.retried), ("email_messages_synced", .ofUInt64 s.emailItems),
    ("calendar_events_synced", .ofUInt64 s.calendarItems), ("tasks_synced", .ofUInt64 s.taskItems)]

/-- Reads a summary. -/
def ofJson? : Json → Option Summary := Json.record do
  let completed ← Json.Fields.required "completed_jobs" Json.uint64?
  let failed ← Json.Fields.required "failed_jobs" Json.uint64?
  let retried ← Json.Fields.required "retried_jobs" Json.uint64?
  let emailItems ← Json.Fields.required "email_messages_synced" Json.uint64?
  let calendarItems ← Json.Fields.required "calendar_events_synced" Json.uint64?
  let taskItems ← Json.Fields.required "tasks_synced" Json.uint64?
  return { completed, failed, retried, emailItems, calendarItems, taskItems }

end Summary

/-- **The jobs of a store by status.** -/
structure Counts where
  pending : Nat := 0
  running : Nat := 0
  succeeded : Nat := 0
  deadLetter : Nat := 0
  deriving DecidableEq, Repr, Inhabited

namespace Counts

/-- Counts `n` jobs more in one status. -/
def add (c : Counts) (n : Nat) : Status → Counts
  | .pending => { c with pending := c.pending + n }
  | .running => { c with running := c.running + n }
  | .succeeded => { c with succeeded := c.succeeded + n }
  | .deadLetter => { c with deadLetter := c.deadLetter + n }

/-- The number of jobs in one status. -/
def of (c : Counts) : Status → Nat
  | .pending => c.pending
  | .running => c.running
  | .succeeded => c.succeeded
  | .deadLetter => c.deadLetter

/-- The number of all jobs. -/
def total (c : Counts) : Nat := c.pending + c.running + c.succeeded + c.deadLetter

/-- Whether no job waits or is worked on. -/
def isDrained (c : Counts) : Bool := c.pending = 0 && c.running = 0

/-- The counts of a list of statuses. -/
def ofStatuses (l : List Status) : Counts := l.foldl (fun c s => c.add 1 s) {}

@[simp] theorem of_add (c : Counts) (n : Nat) (s t : Status) :
    (c.add n s).of t = c.of t + if s = t then n else 0 := by
  cases s <;> cases t <;> simp [add, of]

/-- Counts as a value. -/
def toJson (c : Counts) : Json := .object
  [("pending", .ofNat c.pending), ("running", .ofNat c.running),
    ("succeeded", .ofNat c.succeeded), ("dead_letter", .ofNat c.deadLetter)]

/-- Reads counts. -/
def ofJson? : Json → Option Counts := Json.record do
  let pending ← Json.Fields.required "pending" Json.count?
  let running ← Json.Fields.required "running" Json.count?
  let succeeded ← Json.Fields.required "succeeded" Json.count?
  let deadLetter ← Json.Fields.required "dead_letter" Json.count?
  return { pending, running, succeeded, deadLetter }

end Counts

end SyncJobs
