import SyncJobs.Store

/-!
# The store in memory

Jobs are kept as they are, one per id. All answers are ordered by times and ids alone, so the
order in which jobs were stored never shows.
-/

namespace SyncJobs

/-- The first jobs of a list, at most `limit`, and of one account at most `cap`. The accounts of
the jobs taken so far are in `taken`. -/
def takeWindow (limit : Nat) (cap : Option Nat) (taken : List AccountId) : List Job → List Job
  | [] => []
  | j :: js =>
    if limit ≤ taken.length then []
    else if cap.any fun c => c ≤ taken.count j.account then takeWindow limit cap taken js
    else j :: takeWindow limit cap (j.account :: taken) js

/-- **Jobs in memory.** -/
structure Memory where
  jobs : Keyed Job.id

namespace Memory

/-- The store with no jobs. -/
def empty : Memory := ⟨∅⟩

instance : Inhabited Memory := ⟨empty⟩

/-- Stores a new job; one that has the same id gives way to it. -/
def enqueue (n : NewJob) (m : Memory) : Memory := ⟨m.jobs.insert n.toPending⟩

/-- The due jobs in dispatch order. -/
def due (now : Instant) (m : Memory) : List Job :=
  (m.jobs.toList.filter (·.isDue now)).mergeSort Job.precedes

/-- The due jobs to look at. -/
def dueJobs (now : Instant) (limit : Nat) (cap : Option Nat) (m : Memory) : List Job :=
  takeWindow limit cap [] (m.due now)

/-- Whether a job was claimed at `staleBefore` or earlier and never settled. -/
def isStale (staleBefore : Instant) (j : Job) : Bool :=
  j.status = .running && decide (j.updatedAt ≤ staleBefore)

/-- Changes the job with an id by a function that keeps ids. -/
def modify (id : JobId) (f : Job → Job) (hf : ∀ j, (f j).id = j.id) (m : Memory) : Memory :=
  ⟨m.jobs.update (fun j => j.id = id) f hf⟩

/-- Starts an attempt, if the job is due. -/
def claim (id : JobId) (now : Instant) (m : Memory) : Option Job × Memory :=
  match m.jobs.get? id with
  | some j =>
    if j.isDue now then (some (j.start now), m.modify id (Job.start now) (Job.id_start now))
    else (none, m)
  | none => (none, m)

/-- Settles the attempt of a receipt. -/
def complete (r : Receipt) (d : Decision) (now : Instant) (m : Memory) :
    Except StoreError Job × Memory :=
  match m.jobs.get? r.job with
  | none => (.error (.notFound r.job), m)
  | some j =>
    if j.status ≠ .running then (.error (.notRunning r.job j.status), m)
    else if j.attempts ≠ r.attempts then (.error (.staleClaim r.job r.attempts j.attempts), m)
    else (.ok (j.settle d now), m.modify r.job (Job.settle d now) (Job.id_settle d now))

/-- How many jobs have which status. -/
def counts (m : Memory) : Counts := Counts.ofStatuses (m.jobs.toList.map Job.status)

/-- The jobs that have failed for good, latest first. -/
def deadLetters (limit : Nat) (m : Memory) : List Job :=
  ((m.jobs.toList.filter fun j => j.status = .deadLetter).mergeSort Job.newerFirst).take limit

/-- Takes back stale attempts; the answer is in dispatch order. -/
def recoverStale (staleBefore now : Instant) (m : Memory) : List Job × Memory :=
  let stale := m.jobs.toList.filter (isStale staleBefore)
  ((stale.map (Job.interrupt now)).mergeSort Job.precedes,
    ⟨m.jobs.update (isStale staleBefore) (Job.interrupt now) (Job.id_interrupt now)⟩)

/-- Whether a job succeeded before a time. -/
def isPurgeable (olderThan : Instant) (j : Job) : Bool :=
  j.status = .succeeded && decide (j.updatedAt < olderThan)

/-- Removes jobs that succeeded before a time. -/
def purgeSucceeded (olderThan : Instant) (m : Memory) : Nat × Memory :=
  ((m.jobs.toList.filter (isPurgeable olderThan)).length,
    ⟨m.jobs.filter fun j => !isPurgeable olderThan j⟩)

/-- The attempts that are left, with one more for each job that has not ended. -/
def backlog (m : Memory) : Nat :=
  (m.jobs.toList.filter fun j => !j.status.isTerminal).foldr
    (fun j n => j.remaining.toNat + 1 + n) 0

instance : JobStore Memory where
  enqueue n := fun m => (.ok n.toPending, m.enqueue n)
  dueJobs now limit cap := fun m => (.ok (m.dueJobs now limit cap), m)
  claim id now := fun m => (.ok (m.claim id now).1, (m.claim id now).2)
  complete r d now := fun m => m.complete r d now
  get id := fun m => (.ok (m.jobs.get? id), m)
  counts := fun m => (.ok m.counts, m)
  deadLetters limit := fun m => (.ok (m.deadLetters limit), m)
  recoverStale staleBefore now := fun m =>
    (.ok (m.recoverStale staleBefore now).1, (m.recoverStale staleBefore now).2)
  purgeSucceeded olderThan := fun m =>
    (.ok (m.purgeSucceeded olderThan).1, (m.purgeSucceeded olderThan).2)
  backlog := backlog

end Memory

end SyncJobs
