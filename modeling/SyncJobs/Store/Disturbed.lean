import SyncJobs.Store

/-!
# Disturbed stores

A store with a plan of what goes wrong: at a given call of an operation the store fails, or
somebody else gets in between. Everything that is not in the plan goes to the store behind it.
-/

namespace SyncJobs

/-- The operations of a store. -/
inductive StoreOperation where
  | enqueue
  | dueJobs
  | claim
  | complete
  | get
  | counts
  | deadLetters
  | recoverStale
  | purgeSucceeded
  deriving DecidableEq, Repr

namespace StoreOperation

/-- All operations. -/
def all : List StoreOperation :=
  [enqueue, dueJobs, claim, complete, get, counts, deadLetters, recoverStale, purgeSucceeded]

/-- The name in data. -/
def name : StoreOperation → String
  | enqueue => "enqueue"
  | dueJobs => "due_jobs"
  | claim => "claim"
  | complete => "complete"
  | get => "get"
  | counts => "counts_by_status"
  | deadLetters => "dead_letters"
  | recoverStale => "recover_stale"
  | purgeSucceeded => "purge_succeeded"

/-- The operation with a name. -/
def ofName? (s : String) : Option StoreOperation := all.find? fun o => o.name = s

end StoreOperation

/-- **What goes wrong.** -/
inductive Disturbance where
  /-- the operation fails and does nothing -/
  | fail
  /-- a claim is lost -/
  | lose
  /-- somebody else claims the job first -/
  | steal
  /-- the job is taken back an hour later and claimed again before it is completed -/
  | reclaim
  deriving DecidableEq, Repr

namespace Disturbance

/-- The disturbance with a name. -/
def ofName? : String → Option Disturbance
  | "fail" => some fail
  | "lost" => some lose
  | "steal" => some steal
  | "reclaim_first" => some reclaim
  | _ => none

end Disturbance

/-- A disturbance of one call of one operation; the first call has number zero. -/
structure PlannedDisturbance where
  operation : StoreOperation
  call : Nat
  disturbance : Disturbance
  deriving DecidableEq, Repr

/-- **A store with a plan of disturbances.** -/
structure Disturbed (σ : Type) where
  store : σ
  plan : List PlannedDisturbance
  /-- the operations called so far -/
  called : List StoreOperation := []

namespace Disturbed

variable {σ : Type}

/-- An operation on the store behind. -/
def inside {α : Type} (op : StoreM σ α) : StoreM (Disturbed σ) α := fun d =>
  let (answer, store) := op d.store
  (answer, { d with store })

/-- An operation on the store behind whose failure does not matter. -/
def attemptInside {α : Type} (op : StoreM σ α) (d : Disturbed σ) : Disturbed σ :=
  (inside op d).2

/-- What is planned for the next call of an operation. -/
def planned? (o : StoreOperation) (d : Disturbed σ) : Option Disturbance :=
  (d.plan.find? fun p => p.operation = o && p.call = d.called.count o).map
    PlannedDisturbance.disturbance

/-- An operation that may be disturbed. -/
def disturb {α : Type} (o : StoreOperation) (op : Option Disturbance → StoreM (Disturbed σ) α) :
    StoreM (Disturbed σ) α := fun d =>
  let call := d.called.count o
  let planned := d.planned? o
  let d := { d with called := o :: d.called }
  match planned with
  | some .fail => (.error (.corrupt "fault" (.rehearsed o.name call)), d)
  | other => op other d

/-- An operation that can only fail. -/
def disturbInside {α : Type} (o : StoreOperation) (op : StoreM σ α) : StoreM (Disturbed σ) α :=
  disturb o fun _ => inside op

/-- An hour. -/
def hour : Duration := .ofSeconds 3600

variable [JobStore σ]

/-- A claim that may be lost or stolen. -/
def claim (id : JobId) (now : Instant) : StoreM (Disturbed σ) (Option Job) :=
  disturb .claim fun
    | some .lose => pure none
    | some .steal => fun d =>
      inside (JobStore.claim id now) (attemptInside (JobStore.claim id now) d)
    | _ => inside (JobStore.claim id now)

/-- A completion that may come too late. -/
def complete (receipt : Receipt) (decision : Decision) (now : Instant) :
    StoreM (Disturbed σ) Job :=
  let op : StoreM (Disturbed σ) Job := inside (JobStore.complete receipt decision now)
  let later := now.add hour
  disturb .complete fun
    | some .reclaim => fun d =>
      op (attemptInside (JobStore.claim receipt.job later)
        (attemptInside (JobStore.recoverStale later later) d))
    | _ => op

instance : JobStore (Disturbed σ) where
  enqueue n := disturbInside .enqueue (JobStore.enqueue n)
  dueJobs now limit cap := disturbInside .dueJobs (JobStore.dueJobs now limit cap)
  claim := claim
  complete := complete
  get id := disturbInside .get (JobStore.get id)
  counts := disturbInside .counts JobStore.counts
  deadLetters limit := disturbInside .deadLetters (JobStore.deadLetters limit)
  recoverStale staleBefore now :=
    disturbInside .recoverStale (JobStore.recoverStale staleBefore now)
  purgeSucceeded olderThan := disturbInside .purgeSucceeded (JobStore.purgeSucceeded olderThan)
  backlog d := JobStore.backlog d.store

end Disturbed

end SyncJobs
