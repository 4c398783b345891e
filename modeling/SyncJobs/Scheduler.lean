import SyncJobs.Id.Source
import SyncJobs.Simulation

/-!
# The scheduler

The scheduler is what a caller works with: it queues jobs for accounts that exist, starts runs,
and offers what an operator needs to look after the queue. A request that is refused leaves
everything as it was.
-/

namespace SyncJobs

/-! ## Errors -/

/-- **Why the scheduler refused.** -/
inductive SchedulerError where
  /-- the account of a request does not exist -/
  | invalidAccount (account : AccountId)
  /-- a request allows no attempt -/
  | noAttempts
  /-- the account of a request could not be looked up -/
  | accountLookup (failure : Failure)
  /-- the look-up of an account broke down, and the request with it -/
  | brokeDown (message : Option String)
  /-- the store failed -/
  | store (e : StoreError)
  deriving DecidableEq, Repr

/-- The wording of the error. -/
def SchedulerError.message : SchedulerError → String
  | invalidAccount account => s!"account {account.display} does not exist"
  | noAttempts => "invalid job request: max_attempts must be >= 1"
  | accountLookup failure => s!"account lookup failed: {failure.message}"
  | brokeDown message => Ending.wording message
  | store e => e.message

/-! ## The scheduler -/

/-- **A scheduler** over a store and a world. -/
structure Scheduler (σ ω : Type) where
  settings : Settings
  registry : Registry
  queue : Queue σ
  ids : IdSource
  jitter : Jitter
  world : ω
  /-- the milliseconds that have passed -/
  time : Nat := 0

/-- An operation of the scheduler. -/
abbrev SchedulerM (σ ω : Type) := ExceptT SchedulerError (StateM (Scheduler σ ω))

namespace Scheduler

variable {σ ω : Type} [JobStore σ] [World ω]

/-- What the clock shows. -/
def now (s : Scheduler σ ω) : Instant := World.now s.time s.world

/-- Lets time pass. -/
def wait (ms : Nat) (s : Scheduler σ ω) : Scheduler σ ω := { s with time := s.time + ms }

/-- An operation on the store. -/
def onStore {α : Type} (op : Instant → StoreM σ α) : SchedulerM σ ω α := fun s =>
  let (answer, store) := op s.now s.queue.store
  (answer.mapError .store, { s with queue := { s.queue with store } })

/-! ### Queueing -/

/-- The ceiling of attempts of a request. -/
def ceiling (settings : Settings) (r : Request) : UInt32 :=
  r.maxAttempts.getD settings.defaultMaxAttempts

/-- How long a requested job waits before it is due. -/
def waitingTime (r : Request) : Duration := .ofSeconds (.ofNat r.offsetSeconds.toInt.toNat)

/-- The job for a request. -/
def newJob (settings : Settings) (r : Request) (id : JobId) (now : Instant) : NewJob where
  id := id
  account := r.account
  domain := r.domain
  payload := r.payload
  maxAttempts := ceiling settings r
  runAfter := now.add (waitingTime r)
  createdAt := now

/-- Takes an id for a new job. -/
def takeId (s : Scheduler σ ω) : JobId × Scheduler σ ω :=
  let (id, ids) := s.ids.next s.now
  (id, { s with ids })

/-- **Queues a job.** The request is judged first, then its account is looked up; an id is taken
only after that. The job was created when the clock is read first, and the source of ids reads it
again. -/
def request (r : Request) : SchedulerM σ ω Job := fun s =>
  if ceiling s.settings r = 0 then (.error .noAttempts, s)
  else
    let search := World.lookup r.account s.world
    let s := s.wait search.delay
    match search.value with
    | .brokeDown message => (.error (.brokeDown message), s)
    | .answered (.error failure) => (.error (.accountLookup failure), s)
    | .answered (.ok none) => (.error (.invalidAccount r.account), s)
    | .answered (.ok (some _)) =>
      let created := s.now
      let (id, s) := (s.wait (World.lag s.time s.world)).takeId
      onStore (fun _ => JobStore.enqueue (newJob s.settings r id created)) s

/-! ### Running -/

/-- **Starts runs at the same time and carries them through.** The answers are the runs as they
ended; a deadline counts from now. -/
def runAll (deadlines : List (Option Nat)) (s : Scheduler σ ω) : List Run × Scheduler σ ω :=
  let runs := deadlines.map fun d => { deadline := d.map (s.time + ·) : Run }
  let agenda := (List.range runs.length).foldl (fun a i => a.add s.time (.resume i)) Agenda.empty
  let simulation : Simulation σ ω :=
    { system := { queue := s.queue, runs }, world := s.world, jitter := s.jitter, time := s.time,
      agenda }
  let ended := simulation.finish (s.settings.conditions s.registry)
  (ended.system.runs,
    { s with
      queue := ended.system.queue, world := ended.world, jitter := ended.jitter,
      time := ended.time })

/-- What a run that is over came to. -/
def resultOf (r : Run) : Except SchedulerError Summary :=
  match r.phase with
  | .finished (some e) => .error (.store e)
  | _ => .ok r.summary

/-- **Runs the queue** until nothing can be started, or until a number of milliseconds is up. -/
def run (budget : Option Nat) : SchedulerM σ ω Summary := fun s =>
  let (runs, s) := s.runAll [budget]
  ((runs.head?.map resultOf).getD (.ok {}), s)

/-! ### Looking after the queue -/

/-- Takes back the attempts that have been going on for longer than the settings allow. -/
def recoverStale : SchedulerM σ ω (List Job) := fun s =>
  onStore (fun now => JobStore.recoverStale (now.sub s.settings.staleAfter) now) s

/-- How many jobs have which status. -/
def counts : SchedulerM σ ω Counts := onStore fun _ => JobStore.counts

/-- The jobs that have failed for good, latest first. -/
def deadLetters (limit : Nat) : SchedulerM σ ω (List Job) :=
  onStore fun _ => JobStore.deadLetters limit

/-- Removes the jobs that succeeded longer ago than the retention. -/
def purge (retention : Duration) : SchedulerM σ ω Nat :=
  onStore fun now => JobStore.purgeSucceeded (now.sub retention)

end Scheduler

end SyncJobs
