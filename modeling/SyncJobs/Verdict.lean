import SyncJobs.Backoff
import SyncJobs.Job
import SyncJobs.Jitter
import SyncJobs.Outcome

/-!
# From outcome to decision

A success ends the job, a permanent failure ends it too, and a transient failure is retried after
a backoff as long as attempts are left. Only a retry needs a sample of jitter
(`retries_iff_transient_below`).
-/

namespace SyncJobs

namespace Job

/-- Whether a transient failure of the job's current attempt leaves it another attempt. -/
def mayRetry (j : Job) : Bool := decide (nextAttempt j.attempts < j.maxAttempts)

/-- The error of a job that has used up its attempts. -/
def exhaustedError (j : Job) (error : String) : String :=
  s!"{error} (gave up after {(nextAttempt j.attempts).toNat}/{j.maxAttempts.toNat} attempts)"

/-- Whether the outcome of the job's current attempt leads to a retry. -/
def retries (j : Job) : Outcome → Bool
  | .transient _ => j.mayRetry
  | .success _ => false
  | .permanent _ => false

/-- **The decision on an attempt** that ended at `now`. A retry has no decision if its delay is
not defined. -/
def decide? (j : Job) (policy : Backoff) (outcome : Outcome) (now : Instant)
    (sample : Binary64) : Option Decision :=
  match outcome with
  | .success n => some (.succeed n)
  | .permanent e => some (.deadLetter e)
  | .transient e =>
    if j.mayRetry then
      (policy.delayWith? (nextAttempt j.attempts) sample).map fun d => .retry (now.add d) e
    else some (.deadLetter (j.exhaustedError e))

/-- The decision, with the sample taken from a source exactly if it is needed. -/
def decideFrom (j : Job) (policy : Backoff) (outcome : Outcome) (now : Instant)
    (jitter : Jitter) : Option Decision × Jitter :=
  if j.retries outcome then
    let (sample, jitter) := jitter.next
    (j.decide? policy outcome now sample, jitter)
  else (j.decide? policy outcome now (Binary64.zero false), jitter)

/-- An outcome leads to a retry exactly if it is transient and the ceiling is not reached. -/
theorem retries_iff_transient_below {j : Job} {outcome : Outcome} :
    j.retries outcome ↔ (∃ e, outcome = .transient e) ∧ nextAttempt j.attempts < j.maxAttempts := by
  cases outcome <;> simp [retries, mayRetry]

/-- If the delay of a retry is defined, so is every decision. -/
theorem isSome_decide? {j : Job} {policy : Backoff} {sample : Binary64}
    (h : (policy.delayWith? (nextAttempt j.attempts) sample).isSome) (outcome : Outcome)
    (now : Instant) : (j.decide? policy outcome now sample).isSome := by
  cases outcome with
  | success n => rfl
  | permanent e => rfl
  | transient e =>
    simp only [decide?]
    split
    · rwa [Option.isSome_map]
    · rfl

end Job

end SyncJobs
