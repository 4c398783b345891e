import SyncJobs.Account
import SyncJobs.Domain
import SyncJobs.Status
import SyncJobs.Decision

/-!
# Jobs

A job is one unit of work for one account and one domain. It carries the number of attempts made
so far and the most that will be made. Three steps change a job: a claim (`start`), the decision
after an attempt (`settle`), and the recovery of an attempt that was interrupted (`interrupt`).
Each of the last two counts one attempt.

Jobs are dispatched in the order of their due time, then of their age, then of their ids
(`Job.precedes`).
-/

namespace SyncJobs

/-- One attempt more; the count stops at the largest number of 32 bits. -/
def nextAttempt (n : UInt32) : UInt32 := if n = 0xffffffff then n else n + 1

theorem toNat_nextAttempt (n : UInt32) :
    (nextAttempt n).toNat = min (n.toNat + 1) 0xffffffff := by
  unfold nextAttempt
  have hn := n.toNat_lt
  split
  · rename_i h
    subst h
    decide
  · rename_i h
    have hne : n.toNat ≠ 0xffffffff := fun he => h (UInt32.toNat_inj.mp (by rw [he]; decide))
    have : (n + 1).toNat = (n.toNat + 1) % 0x100000000 := by
      rw [UInt32.toNat_add]; rfl
    rw [this, Nat.mod_eq_of_lt (by omega)]
    omega

/-- **A job as it stands in a store.** -/
structure Job where
  id : JobId
  account : AccountId
  domain : Domain
  status : Status
  /-- data for the collaborator -/
  payload : Payload
  /-- attempts made so far, failed and interrupted ones included -/
  attempts : UInt32
  maxAttempts : UInt32
  /-- the earliest time at which the job may be claimed -/
  runAfter : Instant
  /-- the error of the latest failed attempt -/
  lastError : Option String
  createdAt : Instant
  updatedAt : Instant

instance : Inhabited Job :=
  ⟨⟨⟨0⟩, ⟨0⟩, .email, .pending, default, 0, 0, default, none, default, default⟩⟩

namespace Job

/-- Whether the job may be claimed. -/
def isDue (j : Job) (now : Instant) : Bool := j.status = .pending && decide (j.runAfter ≤ now)

/-- The attempts that are left. -/
def remaining (j : Job) : UInt32 :=
  if j.attempts ≤ j.maxAttempts then j.maxAttempts - j.attempts else 0

/-! ## Steps -/

/-- The job as claimed. -/
def start (now : Instant) (j : Job) : Job := { j with status := .running, updatedAt := now }

/-- The job after a decision on its attempt. -/
def settle (d : Decision) (now : Instant) (j : Job) : Job where
  id := j.id
  account := j.account
  domain := j.domain
  status := d.nextStatus
  payload := j.payload
  attempts := nextAttempt j.attempts
  maxAttempts := j.maxAttempts
  runAfter := d.runAfter?.getD j.runAfter
  lastError := d.error?
  createdAt := j.createdAt
  updatedAt := now

/-- The error of an attempt that was never settled. -/
def interruptedError : String := "attempt interrupted before completion"

/-- The job after its attempt was given up as interrupted: at its ceiling it has failed, else it
is due at once. -/
def interrupt (now : Instant) (j : Job) : Job :=
  let attempts := nextAttempt j.attempts
  let exhausted := decide (j.maxAttempts ≤ attempts)
  { j with
    attempts
    status := if exhausted then .deadLetter else .pending
    runAfter := if exhausted then j.runAfter else now
    lastError := some interruptedError
    updatedAt := now }

@[simp] theorem id_start (now : Instant) (j : Job) : (j.start now).id = j.id := rfl

@[simp] theorem id_settle (d : Decision) (now : Instant) (j : Job) : (j.settle d now).id = j.id :=
  rfl

@[simp] theorem id_interrupt (now : Instant) (j : Job) : (j.interrupt now).id = j.id := rfl

/-! ## Order -/

/-- **Dispatch order:** due time, then age, then id. -/
def precedes (a b : Job) : Bool :=
  if a.runAfter.nanos ≠ b.runAfter.nanos then a.runAfter.nanos < b.runAfter.nanos
  else if a.createdAt.nanos ≠ b.createdAt.nanos then a.createdAt.nanos < b.createdAt.nanos
  else a.id.rank ≤ b.id.rank

/-- Latest change first; of jobs changed at the same time, the greater id first. -/
def newerFirst (a b : Job) : Bool :=
  if a.updatedAt.nanos ≠ b.updatedAt.nanos then b.updatedAt.nanos < a.updatedAt.nanos
  else b.id.rank ≤ a.id.rank

/-! ## JSON -/

/-- A job as a value. -/
def toJson (j : Job) : Json := .object
  [("id", j.id.toJson), ("account_id", j.account.toJson), ("domain", j.domain.toJson),
    ("status", j.status.toJson), ("payload", j.payload.value),
    ("attempt_count", .ofUInt32 j.attempts), ("max_attempts", .ofUInt32 j.maxAttempts),
    ("run_after", Json.ofInstant j.runAfter), ("last_error", .ofOption .string j.lastError),
    ("created_at", Json.ofInstant j.createdAt), ("updated_at", Json.ofInstant j.updatedAt)]

/-- Reads a job. -/
def ofJson? : Json → Option Job := Json.record do
  let id ← Json.Fields.required "id" Id.ofJson?
  let account ← Json.Fields.required "account_id" Id.ofJson?
  let domain ← Json.Fields.required "domain" Domain.ofJson?
  let status ← Json.Fields.required "status" Status.ofJson?
  let payload ← Json.Fields.required "payload" fun v => some (Payload.ofJson v)
  let attempts ← Json.Fields.required "attempt_count" Json.uint32?
  let maxAttempts ← Json.Fields.required "max_attempts" Json.uint32?
  let runAfter ← Json.Fields.required "run_after" Json.instant?
  let lastError ← Json.Fields.nullable "last_error" Json.text?
  let createdAt ← Json.Fields.required "created_at" Json.instant?
  let updatedAt ← Json.Fields.required "updated_at" Json.instant?
  return { id, account, domain, status, payload, attempts, maxAttempts, runAfter, lastError,
           createdAt, updatedAt }

end Job

/-- **A job that is about to be stored.** -/
structure NewJob where
  id : JobId
  account : AccountId
  domain : Domain
  payload : Payload
  maxAttempts : UInt32
  runAfter : Instant
  createdAt : Instant

/-- The job as it is stored: waiting, with no attempt made. -/
def NewJob.toPending (n : NewJob) : Job where
  id := n.id
  account := n.account
  domain := n.domain
  status := .pending
  payload := n.payload
  attempts := 0
  maxAttempts := n.maxAttempts
  runAfter := n.runAfter
  lastError := none
  createdAt := n.createdAt
  updatedAt := n.createdAt

/-- **What a caller asks to be queued.** -/
structure Request where
  account : AccountId
  domain : Domain
  payload : Payload
  /-- seconds from now until the job is due; a negative number counts as zero -/
  offsetSeconds : Int64
  /-- the ceiling of attempts, if it is not the usual one -/
  maxAttempts : Option UInt32

namespace Request

/-- A request as a value; the ceiling is left out if there is none. -/
def toJson (r : Request) : Json := .object <|
  [("account_id", r.account.toJson), ("domain", r.domain.toJson), ("payload", r.payload.value),
    ("run_after_offset_secs", .ofInt64 r.offsetSeconds)] ++
  match r.maxAttempts with
  | some n => [("max_attempts", .ofUInt32 n)]
  | none => []

/-- Reads a request; payload, offset and ceiling may be missing. -/
def ofJson? : Json → Option Request := Json.record do
  let account ← Json.Fields.required "account_id" Id.ofJson?
  let domain ← Json.Fields.required "domain" Domain.ofJson?
  let payload ← Json.Fields.defaulted "payload" (fun v => some (Payload.ofJson v)) Payload.null
  let offsetSeconds ← Json.Fields.defaulted "run_after_offset_secs" Json.int64? 0
  let maxAttempts ← Json.Fields.optional "max_attempts" Json.uint32?
  return { account, domain, payload, offsetSeconds, maxAttempts }

end Request

end SyncJobs
