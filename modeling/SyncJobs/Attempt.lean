import SyncJobs.Job
import SyncJobs.Registry
import SyncJobs.World

/-!
# Attempts

An attempt looks the job's account up and calls the collaborator of its domain, under one
deadline for both. `Stage.advance` does the next thing that the attempt has to do and says when to
go on; `Attempt.execute` does all of them in a row.

An outcome is permanent only if the job cannot be done: no collaborator, no such account, or the
collaborator says so. Every other failure is transient, also that of a collaborator that breaks
down. A look-up that breaks down takes the attempt with it, which then has no outcome.
-/

namespace SyncJobs

/-- **Where an attempt stands.** -/
inductive Stage where
  /-- nothing has been done yet -/
  | begin
  /-- the look-up is over -/
  | lookedUp (finding : Finding)
  /-- the collaborator is to be called -/
  | calling (account : Account)
  /-- the call is over -/
  | answering (call : Call)
  /-- nothing is left to do -/
  | closing (outcome : Outcome)

/-- What comes of doing the next thing: the outcome, the end without an outcome, or where the
attempt goes on and after how many milliseconds. -/
inductive Progress where
  | ended (outcome : Outcome)
  | brokeDown
  | later (delay : Nat) (stage : Stage)

namespace Outcome

/-- The outcome without a collaborator. -/
def noCollaborator (d : Domain) : Outcome :=
  .permanent s!"no collaborator registered for domain {d.name}"

/-- The outcome without an account. -/
def noAccount (i : AccountId) : Outcome := .permanent s!"account {i.display} no longer exists"

/-- The outcome of a look-up that failed, for whatever reason. -/
def lookupFailed (f : Failure) : Outcome := .transient s!"account lookup failed: {f.reason}"

/-- The outcome of a look-up that was not over in time. -/
def lookupTimedOut : Outcome := .transient "account lookup timed out"

/-- The outcome of a call that was not over in time. -/
def timedOut (timeout : Duration) : Outcome :=
  .transient s!"attempt timed out after {timeout.millis}ms"

/-- The outcome of a call that was over in time. -/
def ofEnding : Reply → Outcome
  | .answered answer => ofAnswer answer
  | .brokeDown message => .transient s!"collaborator panicked: {Ending.wording message}"

end Outcome

namespace Stage

/-- How many things an attempt has to do at most from a stage on, this one included. -/
def stepsLeft : Stage → Nat
  | begin => 5
  | lookedUp _ => 4
  | calling _ => 3
  | answering _ => 2
  | closing _ => 1

/-- Goes on after a look-up. -/
def afterLookup (job : Job) : Finding → Progress
  | .answered (.ok (some account)) => .later 0 (calling account)
  | .answered (.ok none) => .ended (.noAccount job.account)
  | .answered (.error f) => .ended (.lookupFailed f)
  | .brokeDown _ => .brokeDown

/-- **Does the next thing.** `left` is the time that is left until the deadline. -/
def advance {ω : Type} [World ω] (registry : Registry) (timeout : Duration) (job : Job)
    (left : Nat) : Stage → ω → Progress × ω
  | begin, w =>
    if registry.has job.domain then
      let search := World.lookup job.account w
      if left < search.delay then (.later left (closing .lookupTimedOut), w)
      else if search.delay = 0 then (afterLookup job search.value, w)
      else (.later search.delay (lookedUp search.value), w)
    else (.ended (.noCollaborator job.domain), w)
  | lookedUp finding, w => (afterLookup job finding, w)
  | calling account, w =>
    let (call, w) := World.call job.domain account job.payload w
    if left < call.delay then (.later left (closing (.timedOut timeout)), w)
    else if call.delay = 0 then
      let (ending, w) := World.finish call w
      (.later 0 (closing (.ofEnding ending)), w)
    else (.later call.delay (answering call), w)
  | answering call, w =>
    let (ending, w) := World.finish call w
    (.later 0 (closing (.ofEnding ending)), w)
  | closing outcome, w => (.ended outcome, w)

theorem stepsLeft_afterLookup {job : Job} {finding : Finding} {delay : Nat} {next : Stage}
    (h : afterLookup job finding = .later delay next) :
    next.stepsLeft = 3 := by
  unfold afterLookup at h
  split at h <;> cases h
  rfl

/-- Whatever is left to do is less than before. -/
theorem stepsLeft_lt {ω : Type} [World ω] {registry : Registry} {timeout : Duration} {job : Job}
    {left delay : Nat} {stage next : Stage} {w w' : ω}
    (h : stage.advance registry timeout job left w = (.later delay next, w')) :
    next.stepsLeft < stage.stepsLeft := by
  cases stage with
  | begin =>
    show next.stepsLeft < 5
    simp only [advance] at h
    split at h
    · split at h
      · cases h
        decide
      · split at h
        · have hn := stepsLeft_afterLookup (congrArg Prod.fst h)
          omega
        · cases h
          exact Nat.lt_succ_self 4
    · cases h
  | lookedUp finding =>
    show next.stepsLeft < 4
    have hn := stepsLeft_afterLookup (congrArg Prod.fst h)
    omega
  | calling account =>
    show next.stepsLeft < 3
    simp only [advance] at h
    split at h
    · cases h
      exact Nat.lt_of_lt_of_le Nat.one_lt_two (by decide)
    · split at h
      · cases h
        exact Nat.lt_of_lt_of_le Nat.one_lt_two (by decide)
      · cases h
        exact Nat.lt_succ_self 2
  | answering call =>
    show next.stepsLeft < 2
    simp only [advance] at h
    cases h
    exact Nat.one_lt_two
  | closing outcome => cases h

/-- Does all things that are left. The answer says how much time they took, and the outcome, unless
the attempt broke down. -/
def follow {ω : Type} [World ω] (registry : Registry) (timeout : Duration) (job : Job)
    (left : Nat) (stage : Stage) (w : ω) : (Option Outcome × Nat) × ω :=
  match _h : stage.advance registry timeout job left w with
  | (.ended outcome, w) => ((some outcome, 0), w)
  | (.brokeDown, w) => ((none, 0), w)
  | (.later delay next, w) =>
    let ((outcome, spent), w) := follow registry timeout job (left - delay) next w
    ((outcome, delay + spent), w)
termination_by stage.stepsLeft
decreasing_by exact stepsLeft_lt _h

end Stage

/-- **Executes one attempt** from beginning to end. The answer is its outcome, unless it broke
down, and the time it took in milliseconds. -/
def execute {ω : Type} [World ω] (registry : Registry) (timeout : Duration) (job : Job) (w : ω) :
    (Option Outcome × Nat) × ω :=
  Stage.follow registry timeout job timeout.millis .begin w

end SyncJobs
