import SyncJobs.Store.Row

/-!
# The durable table of jobs

The table holds rows with distinct ids, and every row keeps the rules of the table. A statement
that would break a rule, or store an id twice, changes nothing. Times are compared as whole
milliseconds and ids as texts.

Rows are read when they are handed out. So a row that cannot be read makes an operation fail
*after* its statement took effect: the claim of such a row leaves it running.
-/

namespace SyncJobs

/-- **The table:** rows with distinct ids, each within the rules. -/
structure Table where
  rows : Keyed Row.id
  kept : ∀ r ∈ rows.toList, r.rule? = none

namespace Table

/-- The table with no rows. -/
def empty : Table := ⟨∅, by simp⟩

instance : Inhabited Table := ⟨empty⟩

/-- The largest number of a signed column of 64 bits. Limits and caps stop there. -/
def largest : Nat := 0x7fffffffffffffff

/-! ## Statements -/

/-- Stores a row at the end. -/
def insert (row : Row) (t : Table) : Except DatabaseError Table :=
  match h : row.rule? with
  | some rule => .error (.check rule)
  | none =>
    if t.rows.contains row.id then .error .duplicate
    else .ok ⟨t.rows.insert row, fun r hr => by
      rw [Keyed.toList_insert, List.mem_append, List.mem_singleton] at hr
      rcases hr with hr | rfl
      · exact t.kept r (List.mem_filter.mp hr).1
      · exact h⟩

/-- The first rule that one of several rows breaks. -/
def brokenRule? (rows : List Row) : Option RowRule := rows.findSome? Row.rule?

/-- Changes the rows that satisfy a test, by a function that keeps ids; if one of them would
break a rule, all stay as they are. -/
def update (p : Row → Bool) (f : Row → Row) (hf : ∀ r, (f r).id = r.id) (t : Table) :
    Except DatabaseError Table :=
  match h : brokenRule? ((t.rows.toList.filter p).map f) with
  | some rule => .error (.check rule)
  | none => .ok ⟨t.rows.update p f hf, fun r hr => by
      rw [Keyed.toList_update, List.mem_map] at hr
      obtain ⟨s, hs, rfl⟩ := hr
      split
      · rename_i hp
        exact List.findSome?_eq_none_iff.mp h _
          (List.mem_map_of_mem (List.mem_filter.mpr ⟨hs, hp⟩))
      · exact t.kept s hs⟩

/-- Removes the rows that satisfy a test. -/
def delete (p : Row → Bool) (t : Table) : Table :=
  ⟨t.rows.filter fun r => !p r, fun r hr => t.kept r (List.mem_filter.mp hr).1⟩

/-- Reads rows until one cannot be read. -/
def readAll (rows : List Row) : Except StoreError (List Job) := rows.mapM Row.toJob?

/-! ## Due jobs -/

/-- Whether a row may be claimed. -/
def isDue (now : Int) (r : Row) : Bool :=
  r.status = Status.pending.name && decide (r.runAfter ≤ now)

/-- The place of a row among the rows of its own account, the first having place one. -/
def rankIn (rows : List Row) (r : Row) : Nat :=
  (rows.filter fun s => s.account = r.account && s.precedes r).length

/-- **The due rows to look at:** those whose place in their account is within the cap, in
dispatch order, at most `limit`. -/
def dueRows (now : Int) (limit : Nat) (cap : Option Nat) (t : Table) : List Row :=
  let due := t.rows.toList.filter (isDue now)
  let ranked := due.filter fun r => rankIn due r ≤ (cap.getD largest).min largest
  (ranked.mergeSort Row.precedes).take (limit.min largest)

/-! ## Operations -/

/-- A refusal by the database as an error of the store. -/
def refused {α : Type} (e : DatabaseError) : Except StoreError α := .error (.database e)

/-- Stores a new job. The answer is the job as it was given, with its times in full. -/
def enqueue (n : NewJob) (t : Table) : Except StoreError Job × Table :=
  match t.insert (Row.ofNew n) with
  | .error e => (refused e, t)
  | .ok t => (.ok n.toPending, t)

/-- The job with an id. -/
def get (id : JobId) (t : Table) : Except StoreError (Option Job) :=
  match t.rows.get? id.storage with
  | none => .ok none
  | some r => r.toJob?.map some

/-- Starts an attempt, if the job is due. -/
def claim (id : JobId) (now : Instant) (t : Table) : Except StoreError (Option Job) × Table :=
  let chosen (r : Row) : Bool := r.id = id.storage && isDue now.millis r
  match t.rows.toList.find? chosen with
  | none => (.ok none, t)
  | some r => match t.update chosen (Row.start now.millis) (Row.id_start now.millis) with
    | .error e => (refused e, t)
    | .ok t => ((r.start now.millis).toJob?.map some, t)

/-- Why no row matched the receipt of an attempt. -/
def refusal (receipt : Receipt) (t : Table) : StoreError :=
  match t.get receipt.job with
  | .error e => e
  | .ok none => .notFound receipt.job
  | .ok (some j) =>
    if j.status ≠ .running then .notRunning receipt.job j.status
    else .staleClaim receipt.job receipt.attempts j.attempts

/-- Settles the attempt of a receipt. -/
def complete (receipt : Receipt) (d : Decision) (now : Instant) (t : Table) :
    Except StoreError Job × Table :=
  let chosen (r : Row) : Bool := r.id = receipt.job.storage && r.status = Status.running.name &&
    r.attempts = receipt.attempts.toNat
  match t.rows.toList.find? chosen with
  | none => (.error (t.refusal receipt), t)
  | some r => match t.update chosen (Row.settle d now.millis) (Row.id_settle d now.millis) with
    | .error e => (refused e, t)
    | .ok t => ((r.settle d now.millis).toJob?, t)

/-- How many rows have which status. -/
def counts (t : Table) : Except StoreError Counts :=
  (t.rows.toList.mapM fun r => Row.readName "<aggregate>" .status Status.ofName? r.status).map
    Counts.ofStatuses

/-- The jobs that have failed for good, latest first. -/
def deadLetters (limit : Nat) (t : Table) : Except StoreError (List Job) :=
  readAll (((t.rows.toList.filter fun r => r.status = Status.deadLetter.name).mergeSort
    Row.newerFirst).take (limit.min largest))

/-- Whether a row was claimed at `staleBefore` or earlier and never settled. -/
def isStale (staleBefore : Int) (r : Row) : Bool :=
  r.status = Status.running.name && decide (r.updatedAt ≤ staleBefore)

/-- The order in which recovered jobs are handed out: due time, then id. -/
def recoveredBefore (a b : Job) : Bool :=
  if a.runAfter.nanos ≠ b.runAfter.nanos then a.runAfter.nanos < b.runAfter.nanos
  else a.id.rank ≤ b.id.rank

/-- Takes back stale attempts. Rows are taken, and read, in the order of their due times. -/
def recoverStale (staleBefore now : Instant) (t : Table) : Except StoreError (List Job) × Table :=
  let stale := isStale staleBefore.millis
  let taken := (t.rows.toList.filter stale).mergeSort Row.dueBefore
  match t.update stale (Row.interrupt now.millis) (Row.id_interrupt now.millis) with
  | .error e => (refused e, t)
  | .ok t =>
    ((readAll (taken.map (Row.interrupt now.millis))).map fun js => js.mergeSort recoveredBefore, t)

/-- Whether a row succeeded before a time. -/
def isPurgeable (olderThan : Int) (r : Row) : Bool :=
  r.status = Status.succeeded.name && decide (r.updatedAt < olderThan)

/-- Removes rows that succeeded before a time. -/
def purgeSucceeded (olderThan : Instant) (t : Table) : Nat × Table :=
  ((t.rows.toList.filter (isPurgeable olderThan.millis)).length,
    t.delete (isPurgeable olderThan.millis))

/-- The attempts that are left, with one more for each row. -/
def backlog (t : Table) : Nat :=
  t.rows.toList.foldr (fun r n => (r.maxAttempts - r.attempts).toNat + 1 + n) 0

instance : JobStore Table where
  enqueue n := fun t => t.enqueue n
  dueJobs now limit cap := fun t => (readAll (t.dueRows now.millis limit cap), t)
  claim id now := fun t => t.claim id now
  complete receipt d now := fun t => t.complete receipt d now
  get id := fun t => (t.get id, t)
  counts := fun t => (t.counts, t)
  deadLetters limit := fun t => (t.deadLetters limit, t)
  recoverStale staleBefore now := fun t => t.recoverStale staleBefore now
  purgeSucceeded olderThan := fun t =>
    (.ok (t.purgeSucceeded olderThan).1, (t.purgeSucceeded olderThan).2)
  backlog := backlog

end Table

end SyncJobs
