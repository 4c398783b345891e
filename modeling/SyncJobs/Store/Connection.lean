import SyncJobs.Store.Table

/-!
# Connections to a table

A connection is open or closed. Every operation on a closed one fails.
-/

namespace SyncJobs

/-- **A connection.** -/
inductive Connection where
  | opened (table : Table)
  | closed

namespace Connection

/-- An operation on the table, if the connection is open. -/
def use {α : Type} (op : StoreM Table α) : StoreM Connection α := fun c =>
  match c with
  | opened table => ((op table).1, opened (op table).2)
  | closed => (.error (.database .closed), closed)

instance : JobStore Connection where
  enqueue n := use (JobStore.enqueue n)
  dueJobs now limit cap := use (JobStore.dueJobs now limit cap)
  claim id now := use (JobStore.claim id now)
  complete receipt d now := use (JobStore.complete receipt d now)
  get id := use (JobStore.get id)
  counts := use JobStore.counts
  deadLetters limit := use (JobStore.deadLetters limit)
  recoverStale staleBefore now := use (JobStore.recoverStale staleBefore now)
  purgeSucceeded olderThan := use (JobStore.purgeSucceeded olderThan)
  backlog
    | opened table => table.backlog
    | closed => 0

end Connection

end SyncJobs
