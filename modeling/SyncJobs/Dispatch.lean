import SyncJobs.Pool
import SyncJobs.Store
import SyncJobs.Verdict

/-!
# Runs

A run works a queue off in passes. In each pass it looks at the due jobs, lets the pool grant
permits, claims the jobs that got one, and waits until the attempts on them are settled and their
permits are back. It ends when nothing is due, when no permit is left or no job could be claimed,
or when its deadline has passed; attempts that have begun are always settled.

A run moves by single steps (`Step`), so that several runs over one store and one pool can be
interleaved in any way: `System.apply` makes one step of one run, and a history is a list of such
steps. A step that a run cannot make at the moment changes nothing.
-/

namespace SyncJobs

/-- The rules of all runs: how many due jobs a pass looks at, and how long retries wait. -/
structure RunRules where
  window : Nat
  backoff : Backoff

/-- **An attempt in progress:** the job as it was claimed, and the permit it is worked on under. -/
structure Attempt where
  job : Job
  permit : Permit

/-- **Where a run stands in its pass.** -/
inductive Phase where
  /-- before a pass -/
  | idle
  /-- the candidates of the pass are known -/
  | looked (now : Instant) (candidates : List Job)
  /-- jobs were granted permits: those still to be claimed, and how many have been -/
  | claiming (now : Instant) (granted : List (Job × Permit)) (started : Nat)
  /-- attempts are in progress -/
  | waiting
  /-- the run is over; it failed if its first look at the queue did -/
  | finished (failure : Option StoreError)

/-- **A run.** -/
structure Run where
  /-- no job is claimed from this time on -/
  deadline : Option Nat := none
  phase : Phase := .idle
  /-- how many passes have begun attempts -/
  passes : Nat := 0
  /-- the attempts in progress, in the order in which they were claimed -/
  batch : List Attempt := []
  /-- the permits of attempts that are settled -/
  leaving : List Permit := []
  /-- what the settled attempts came to -/
  summary : Summary := {}

instance : Inhabited Run := ⟨{}⟩

/-- **What a run does next.** -/
inductive Step where
  /-- looks at the queue; `time` is the time passed, `now` what the clock shows -/
  | look (time : Nat) (now : Instant)
  /-- lets the pool grant permits to the candidates -/
  | allocate
  /-- claims the next job that was granted a permit, or gives all such permits back if the
  deadline has passed -/
  | claim (time : Nat)
  /-- ends the claims -/
  | launch
  /-- settles the attempt of a receipt, which ended at a time with an outcome; the sample is for
  the delay of a retry -/
  | settle (receipt : Receipt) (outcome : Outcome) (finished : Instant) (sample : Binary64)
  /-- loses the attempt of a receipt, which broke down and has no outcome -/
  | lose (receipt : Receipt)
  /-- gives the permit of a settled attempt back -/
  | release
  /-- ends the pass -/
  | join

/-- **A queue:** what runs share. -/
structure Queue (σ : Type) where
  store : σ
  pool : Pool

namespace Run

/-- Whether the deadline of the run has passed. -/
def isPast (r : Run) (time : Nat) : Bool := r.deadline.any fun d => d ≤ time

/-- Whether the run is over. -/
def isFinished (r : Run) : Bool :=
  match r.phase with
  | .finished _ => true
  | _ => false

/-- The permits that the run holds. -/
def permits (r : Run) : List Permit :=
  (match r.phase with
    | .claiming _ granted _ => granted.map (·.2)
    | _ => []) ++ r.batch.map Attempt.permit ++ r.leaving

/-- The end of a run. -/
def finish (r : Run) (failure : Option StoreError) : Run := { r with phase := .finished failure }

/-- Takes an attempt out of the batch; its permit is still to be given back. If nothing else is done,
the attempt is lost, and its job is left running. -/
def retire (a : Attempt) (r : Run) : Run :=
  { r with
    batch := r.batch.filter fun b => b.job.receipt ≠ a.job.receipt
    leaving := r.leaving ++ [a.permit] }

variable {σ : Type} [JobStore σ]

/-- Looks at the queue. A run that cannot read the queue has failed if this is its first pass;
after that it just ends. -/
def look (rules : RunRules) (time : Nat) (now : Instant) (r : Run) (q : Queue σ) : Run × Queue σ :=
  if r.isPast time || q.pool.available = 0 then (r.finish none, q)
  else
    match JobStore.dueJobs now rules.window (some q.pool.limits.perAccount) q.store with
    | (.error e, store) => (r.finish (if r.passes = 0 then some e else none), { q with store })
    | (.ok [], store) => (r.finish none, { q with store })
    | (.ok candidates, store) => ({ r with phase := .looked now candidates }, { q with store })

/-- Lets the pool grant permits. -/
def allocate (now : Instant) (candidates : List Job) (r : Run) (q : Queue σ) : Run × Queue σ :=
  let (granted, pool) := q.pool.allocate candidates
  ({ r with phase := .claiming now granted 0 }, { q with pool })

/-- Claims a job. If somebody else has claimed it, or the claim fails, its permit goes back. -/
def claim (now : Instant) (j : Job) (permit : Permit) (rest : List (Job × Permit)) (started : Nat)
    (r : Run) (q : Queue σ) : Run × Queue σ :=
  match JobStore.claim j.id now q.store with
  | (.ok (some job), store) =>
    ({ r with
        phase := .claiming now rest (started + 1)
        batch := r.batch ++ [⟨job, permit⟩] }, { q with store })
  | (_, store) =>
    ({ r with phase := .claiming now rest started },
      { q with store, pool := q.pool.release permit })

/-- Gives up the jobs that are still to be claimed. -/
def giveUp (now : Instant) (granted : List (Job × Permit)) (started : Nat) (r : Run)
    (q : Queue σ) : Run × Queue σ :=
  ({ r with phase := .claiming now [] started },
    { q with pool := q.pool.releaseAll (granted.map (·.2)) })

/-- Ends the claims: the run is over if nothing could be claimed. -/
def launch (started : Nat) (r : Run) : Run :=
  if started = 0 then r.finish none else { r with phase := .waiting, passes := r.passes + 1 }

/-- Writes the decision on an attempt down and counts it if that succeeds. An attempt on which
there is no decision is lost. -/
def settle (rules : RunRules) (a : Attempt) (outcome : Outcome) (finished : Instant)
    (sample : Binary64) (r : Run) (q : Queue σ) : Run × Queue σ :=
  let r := r.retire a
  match a.job.decide? rules.backoff outcome finished sample with
  | none => (r, q)
  | some decision => match JobStore.complete a.job.receipt decision finished q.store with
    | (.ok job, store) =>
      ({ r with summary := r.summary.record job.domain decision }, { q with store })
    | (.error _, store) => (r, { q with store })

/-- **Makes a step.** -/
def apply (rules : RunRules) (step : Step) (r : Run) (q : Queue σ) : Run × Queue σ :=
  match step, r.phase with
  | .look time now, .idle => r.look rules time now q
  | .allocate, .looked now candidates => r.allocate now candidates q
  | .claim time, .claiming now ((j, permit) :: rest) started =>
    if r.isPast time then r.giveUp now ((j, permit) :: rest) started q
    else r.claim now j permit rest started q
  | .launch, .claiming _ [] started => (r.launch started, q)
  | .settle receipt outcome finished sample, _ =>
    match r.batch.find? fun a => a.job.receipt = receipt with
    | some a => r.settle rules a outcome finished sample q
    | none => (r, q)
  | .lose receipt, _ =>
    match r.batch.find? fun a => a.job.receipt = receipt with
    | some a => (r.retire a, q)
    | none => (r, q)
  | .release, _ => match r.leaving with
    | permit :: leaving => ({ r with leaving }, { q with pool := q.pool.release permit })
    | [] => (r, q)
  | .join, .waiting =>
    if r.batch.isEmpty && r.leaving.isEmpty then ({ r with phase := .idle }, q) else (r, q)
  | _, _ => (r, q)

end Run

/-! ## Several runs -/

/-- **Runs that share a store and a pool.** -/
structure System (σ : Type) where
  queue : Queue σ
  runs : List Run

/-- What happens in a system: a step of the run with a number, or a recovery. -/
inductive Event where
  | step (run : Nat) (step : Step)
  | recover (staleBefore now : Instant)

namespace System

variable {σ : Type} [JobStore σ]

/-- **What an event changes.** -/
def apply (rules : RunRules) (event : Event) (s : System σ) : System σ :=
  match event with
  | .step i step => match s.runs[i]? with
    | some r =>
      let (r, queue) := r.apply rules step s.queue
      { queue, runs := s.runs.set i r }
    | none => s
  | .recover staleBefore now =>
    { s with queue := { s.queue with
      store := (JobStore.recoverStale staleBefore now s.queue.store).2 } }

/-- What a list of events changes. -/
def applyAll (rules : RunRules) (events : List Event) (s : System σ) : System σ :=
  events.foldl (fun s e => s.apply rules e) s

end System

end SyncJobs
