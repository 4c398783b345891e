import SyncJobs.Job
import SyncJobs.Summary

/-!
# Stores

A store keeps jobs from the moment they are queued until they are purged. Its operations are the
only way in which a job changes: a claim starts an attempt and hands out a receipt, a completion
settles the attempt of a receipt, and recovery takes back attempts that were never settled.

`JobStore` lists the operations. Each yields an answer or an error, and in both cases the store as
it is afterwards.
-/

namespace SyncJobs

/-! ## Errors -/

/-- The rules of the table of jobs, in the order in which they are checked. -/
inductive RowRule where
  | domain
  | status
  | attempts
  | maxAttempts
  | ceiling
  deriving DecidableEq, Repr

/-- The rule as it is written in the definition of the table. -/
def RowRule.expression : RowRule → String
  | domain => "domain IN ('email', 'calendar', 'tasks')"
  | status => "status IN ('pending', 'running', 'succeeded', 'dead_letter')"
  | attempts => "attempt_count >= 0"
  | maxAttempts => "max_attempts >= 1"
  | ceiling => "attempt_count <= max_attempts"

/-- Why the database refused a statement. -/
inductive DatabaseError where
  /-- a row breaks a rule of the table -/
  | check (rule : RowRule)
  /-- a job with this id is stored already -/
  | duplicate
  /-- the connection was closed -/
  | closed
  deriving DecidableEq, Repr

/-- The wording of the refusal. -/
def DatabaseError.message : DatabaseError → String
  | check rule =>
    s!"error returned from database: (code: 275) CHECK constraint failed: {rule.expression}"
  | duplicate =>
    "error returned from database: (code: 1555) UNIQUE constraint failed: sync_jobs.id"
  | closed => "attempted to acquire a connection on a closed pool"

/-- What is wrong with a stored row. -/
inductive RowFault where
  /-- an id column holds no id -/
  | id (e : IdError)
  /-- the domain has no known name -/
  | domain (text : String)
  /-- the status has no known name -/
  | status (text : String)
  /-- a count does not fit 32 bits -/
  | tooLarge (column : String) (value : Int)
  /-- a time lies outside the range of instants -/
  | outOfRange (column : String) (value : Int)
  /-- a fault that was asked for, at the given call of an operation -/
  | rehearsed (operation : String) (call : Nat)
  deriving DecidableEq, Repr

/-- The wording of the fault. -/
def RowFault.message : RowFault → String
  | id e => e.message
  | domain text => Domain.unknownMessage text
  | status text => Status.unknownMessage text
  | tooLarge column value => s!"{column}={value}: number too large to fit in target type"
  | outOfRange column value => s!"{column}={value} is out of range"
  | rehearsed operation call => s!"{operation} #{call}"

/-- **Why an operation of a store failed.** -/
inductive StoreError where
  /-- the database refused the statement -/
  | database (e : DatabaseError)
  /-- the payload of a row cannot be read -/
  | payload
  /-- a row cannot be read; it is named by the text of its id -/
  | corrupt (row : String) (fault : RowFault)
  /-- no job has this id -/
  | notFound (id : JobId)
  /-- the job is not being worked on -/
  | notRunning (id : JobId) (actual : Status)
  /-- the job is being worked on under a later claim -/
  | staleClaim (id : JobId) (claimed actual : UInt32)
  deriving DecidableEq, Repr

/-- The wording of the error. -/
def StoreError.message : StoreError → String
  | database e => s!"database error: {e.message}"
  | payload => "payload is not valid JSON"
  | corrupt row fault => s!"corrupt row for job {row}: {fault.message}"
  | notFound id => s!"job {id.display} not found"
  | notRunning id actual =>
    s!"job {id.display} is {actual.name}, expected {Status.running.name}"
  | staleClaim id claimed actual =>
    s!"job {id.display} was reclaimed: attempt_count is {actual.toNat}, this claim saw " ++
      s!"{claimed.toNat}"

/-! ## Operations -/

/-- **What a claim hands out:** the job, and how many attempts it had before. -/
structure Receipt where
  job : JobId
  attempts : UInt32
  deriving DecidableEq, Repr

/-- The receipt for a claimed job. -/
def Job.receipt (j : Job) : Receipt := ⟨j.id, j.attempts⟩

/-- An operation on a store. An error does not undo what was done before it. -/
abbrev StoreM (σ : Type) := ExceptT StoreError (StateM σ)

/-- **The operations of a store of jobs.** -/
class JobStore (σ : Type) where
  /-- stores a new job -/
  enqueue : NewJob → StoreM σ Job
  /-- the due jobs in dispatch order, at most so many, and of one account at most `cap` -/
  dueJobs (now : Instant) (limit : Nat) (cap : Option Nat) : StoreM σ (List Job)
  /-- starts an attempt, if the job is due -/
  claim (id : JobId) (now : Instant) : StoreM σ (Option Job)
  /-- settles the attempt of a receipt -/
  complete (receipt : Receipt) (decision : Decision) (now : Instant) : StoreM σ Job
  /-- the job with an id -/
  get (id : JobId) : StoreM σ (Option Job)
  /-- how many jobs have which status -/
  counts : StoreM σ Counts
  /-- the jobs that have failed for good, latest first, at most so many -/
  deadLetters (limit : Nat) : StoreM σ (List Job)
  /-- takes back the attempts that were started at `staleBefore` or earlier -/
  recoverStale (staleBefore now : Instant) : StoreM σ (List Job)
  /-- removes the jobs that succeeded before a time; the answer is how many -/
  purgeSucceeded (olderThan : Instant) : StoreM σ Nat
  /-- how many attempts are left to the jobs that have not ended, with one more for each job -/
  backlog : σ → Nat

namespace JobStore

variable {σ : Type} [JobStore σ]

/-- Claims jobs one after the other and collects those that were due. -/
def claimEach (now : Instant) : List JobId → StoreM σ (List Job)
  | [] => pure []
  | i :: is => do
    let claimed ← claim i now
    let more ← claimEach now is
    return claimed.toList ++ more

/-- **Claims the due jobs,** at most so many. -/
def claimDue (now : Instant) (limit : Nat) : StoreM σ (List Job) := do
  let candidates ← dueJobs now limit none
  claimEach now (candidates.map Job.id)

end JobStore

end SyncJobs
