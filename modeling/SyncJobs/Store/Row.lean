import SyncJobs.Store
import SyncJobs.Json.Fields
import SyncJobs.Json.Reader
import SyncJobs.Json.Writer

/-!
# Rows of the table of jobs

A row holds a job as texts and whole numbers: ids in their bare form, names, the payload as JSON,
and times as milliseconds since 1970. `Row.ofNew` writes a new job; `Row.toJob?` reads a row and
names the first column that cannot be read. `Row.rule?` names the first rule of the table that a
row breaks.
-/

namespace SyncJobs

/-- **A row of the table.** -/
structure Row where
  id : String
  account : String
  domain : String
  status : String
  payload : String
  attempts : Int
  maxAttempts : Int
  runAfter : Int
  lastError : Option String
  createdAt : Int
  updatedAt : Int
  deriving DecidableEq, Repr

namespace Row

/-! ## Rules -/

/-- Whether a row keeps a rule. -/
def keeps (r : Row) : RowRule → Bool
  | .domain => Domain.all.any fun d => d.name = r.domain
  | .status => Status.all.any fun s => s.name = r.status
  | .attempts => 0 ≤ r.attempts
  | .maxAttempts => 1 ≤ r.maxAttempts
  | .ceiling => r.attempts ≤ r.maxAttempts

/-- All rules in the order in which they are checked. -/
def rules : List RowRule := [.domain, .status, .attempts, .maxAttempts, .ceiling]

/-- **The first rule that a row breaks.** -/
def rule? (r : Row) : Option RowRule := rules.find? fun rule => !r.keeps rule

/-! ## Writing -/

/-- The row of a new job. -/
def ofNew (n : NewJob) : Row where
  id := n.id.storage
  account := n.account.storage
  domain := n.domain.name
  status := Status.pending.name
  payload := n.payload.value.compact
  attempts := 0
  maxAttempts := n.maxAttempts.toNat
  runAfter := n.runAfter.millis
  lastError := none
  createdAt := n.createdAt.millis
  updatedAt := n.createdAt.millis

/-- The row of a job. -/
def ofJob (j : Job) : Row where
  id := j.id.storage
  account := j.account.storage
  domain := j.domain.name
  status := j.status.name
  payload := j.payload.value.compact
  attempts := j.attempts.toNat
  maxAttempts := j.maxAttempts.toNat
  runAfter := j.runAfter.millis
  lastError := j.lastError
  createdAt := j.createdAt.millis
  updatedAt := j.updatedAt.millis

/-! ## Reading -/

/-- Reads an id column. -/
def readId {kind : IdKind} (row text : String) : Except StoreError (Id kind) :=
  match Id.parse text with
  | .ok i => .ok i
  | .error e => .error (.corrupt row (.id e))

/-- Reads a name. -/
def readName {α : Type} (row : String) (fault : String → RowFault) (ofName? : String → Option α)
    (text : String) : Except StoreError α :=
  match ofName? text with
  | some a => .ok a
  | none => .error (.corrupt row (fault text))

/-- Reads a count of 32 bits. -/
def readCount (row column : String) (n : Int) : Except StoreError UInt32 :=
  if 0 ≤ n ∧ n < 0x100000000 then .ok (.ofNat n.toNat) else .error (.corrupt row (.tooLarge column n))

/-- Reads a time. -/
def readTime (row column : String) (ms : Int) : Except StoreError Instant :=
  match Instant.ofMillis? ms with
  | some t => .ok t
  | none => .error (.corrupt row (.outOfRange column ms))

/-- Reads a payload. -/
def readPayload (text : String) : Except StoreError Payload :=
  match Json.parse? text with
  | some v => .ok (Payload.ofJson v)
  | none => .error .payload

/-- **Reads a row.** Of several columns that cannot be read, the first one is named. -/
def toJob? (r : Row) : Except StoreError Job := do
  let id ← readId r.id r.id
  let account ← readId r.id r.account
  let domain ← readName r.id .domain Domain.ofName? r.domain
  let status ← readName r.id .status Status.ofName? r.status
  let payload ← readPayload r.payload
  let attempts ← readCount r.id "attempt_count" r.attempts
  let maxAttempts ← readCount r.id "max_attempts" r.maxAttempts
  let runAfter ← readTime r.id "run_after" r.runAfter
  let createdAt ← readTime r.id "created_at" r.createdAt
  let updatedAt ← readTime r.id "updated_at" r.updatedAt
  return { id, account, domain, status, payload, attempts, maxAttempts, runAfter,
           lastError := r.lastError, createdAt, updatedAt }

/-! ## JSON -/

/-- A whole number that a column can hold. -/
def columnJson (n : Int) : Json := ((Json.Integer.ofInt? n).map Json.integer).getD .null

/-- Reads a signed number of 64 bits. -/
def column? (v : Json) : Option Int := (Json.int64? v).map Int64.toInt

/-- A row as a value. -/
def toJson (r : Row) : Json := .object
  [("id", .string r.id), ("account_id", .string r.account), ("domain", .string r.domain),
    ("status", .string r.status), ("payload", .string r.payload),
    ("attempt_count", columnJson r.attempts), ("max_attempts", columnJson r.maxAttempts),
    ("run_after", columnJson r.runAfter), ("last_error", .ofOption .string r.lastError),
    ("created_at", columnJson r.createdAt), ("updated_at", columnJson r.updatedAt)]

/-- Reads a row. -/
def ofJson? : Json → Option Row := Json.record do
  let id ← Json.Fields.required "id" Json.text?
  let account ← Json.Fields.required "account_id" Json.text?
  let domain ← Json.Fields.required "domain" Json.text?
  let status ← Json.Fields.required "status" Json.text?
  let payload ← Json.Fields.required "payload" Json.text?
  let attempts ← Json.Fields.required "attempt_count" column?
  let maxAttempts ← Json.Fields.required "max_attempts" column?
  let runAfter ← Json.Fields.required "run_after" column?
  let lastError ← Json.Fields.nullable "last_error" Json.text?
  let createdAt ← Json.Fields.required "created_at" column?
  let updatedAt ← Json.Fields.required "updated_at" column?
  return { id, account, domain, status, payload, attempts, maxAttempts, runAfter, lastError,
           createdAt, updatedAt }

/-! ## Steps -/

/-- The row as claimed. -/
def start (now : Int) (r : Row) : Row := { r with status := Status.running.name, updatedAt := now }

/-- The row after a decision. -/
def settle (d : Decision) (now : Int) (r : Row) : Row :=
  { r with
    status := d.nextStatus.name
    attempts := r.attempts + 1
    runAfter := (d.runAfter?.map Instant.millis).getD r.runAfter
    lastError := d.error?
    updatedAt := now }

/-- The row after its attempt was given up as interrupted. -/
def interrupt (now : Int) (r : Row) : Row :=
  let exhausted := decide (r.maxAttempts ≤ r.attempts + 1)
  { r with
    attempts := r.attempts + 1
    status := if exhausted then Status.deadLetter.name else Status.pending.name
    runAfter := if exhausted then r.runAfter else now
    lastError := some Job.interruptedError
    updatedAt := now }

@[simp] theorem id_start (now : Int) (r : Row) : (r.start now).id = r.id := rfl

@[simp] theorem id_settle (d : Decision) (now : Int) (r : Row) : (r.settle d now).id = r.id := rfl

@[simp] theorem id_interrupt (now : Int) (r : Row) : (r.interrupt now).id = r.id := rfl

/-! ## Order -/

/-- Dispatch order of rows: due time, then age, then the text of the id. -/
def precedes (a b : Row) : Bool :=
  if a.runAfter ≠ b.runAfter then a.runAfter < b.runAfter
  else if a.createdAt ≠ b.createdAt then a.createdAt < b.createdAt
  else a.id ≤ b.id

/-- Latest change first; of rows changed at the same time, the greater id first. -/
def newerFirst (a b : Row) : Bool :=
  if a.updatedAt ≠ b.updatedAt then b.updatedAt < a.updatedAt
  else b.id ≤ a.id

/-- Order by due time alone. -/
def dueBefore (a b : Row) : Bool := a.runAfter ≤ b.runAfter

end Row

end SyncJobs
