import SyncJobs.Assembly
import SyncJobs.CommandLine
import SyncJobs.Demonstration
import SyncJobs.Store.Table

/-!
# The program

What the program does with a command line that was understood, apart from files and clocks:
`Invocation.settings?` judges the content of the settings file, `Invocation.databasePath?` says
which database to open, and `Invocation.execute` carries the command out on the table of that
database. The settings are read before the database is opened.

Everything printed is JSON. What was printed before a failure stays printed.
-/

namespace SyncJobs

/-! ## Failures -/

/-- **Why the program failed.** -/
inductive ProgramError where
  /-- the settings could not be had from a file -/
  | settings (path : String) (e : Settings.LoadError)
  /-- a database could not be opened -/
  | database (path : String)
  | assembly (e : AssemblyError)
  | scheduler (e : SchedulerError)

namespace ProgramError

/-- The wording of the error. -/
def message : ProgramError → String
  | settings path _ => s!"failed to load config: {path}"
  | database path => s!"failed to open database: {path}"
  | assembly e => e.message
  | scheduler e => e.message

/-- What led to the error, if it is not told already. -/
def cause? : ProgramError → Option String
  | settings _ e => some e.message
  | _ => none

end ProgramError

/-! ## Before the command -/

namespace Invocation

/-- The database of a command that names none. -/
def usualDatabase : String := "loom.db"

/-- The database to open; a demonstration that names none gets a table of its own. -/
def databasePath? (i : Invocation) : Option String :=
  match i.database, i.command with
  | some path, _ => some path
  | none, .demo _ _ _ => none
  | none, _ => some usualDatabase

/-- The settings for a demonstration: short delays. -/
def hurried (s : Settings) : Settings :=
  { s with backoff := { s.backoff with baseMillis := 200, capMillis := 2000 } }

/-- The settings, given the content of the file that the command line names. -/
def settings? (content : Option ByteArray) (i : Invocation) : Except ProgramError Settings :=
  match i.config, i.command with
  | some path, _ => (Settings.ofFile content).mapError (.settings path)
  | none, .demo _ _ _ => .ok (hurried {})
  | none, _ => .ok {}

end Invocation

/-! ## The console -/

/-- A scheduler at work, and what has been printed so far, latest first. -/
structure Console where
  scheduler : Scheduler Table Demonstration
  printed : List Json := []

/-- Something done at the console. -/
abbrev ConsoleM := ExceptT ProgramError (StateM Console)

namespace Console

/-- Has the scheduler do something. -/
def ask {α : Type} (op : SchedulerM Table Demonstration α) : ConsoleM α := fun c =>
  let (answer, scheduler) := op c.scheduler
  (answer.mapError .scheduler, { c with scheduler })

/-- Prints a value. -/
def print (v : Json) : ConsoleM Unit := fun c => (.ok (), { c with printed := v :: c.printed })

/-- Lets time pass. -/
def pause (ms : Nat) : ConsoleM Unit := fun c =>
  (.ok (), { c with scheduler := c.scheduler.wait ms })

/-! ## The demonstration -/

/-- The requests of a demonstration: a job for each account and domain, of which the one for the
tasks of the last account is poisoned. -/
def requests (people : List Account) : List Request :=
  people.zipIdx.flatMap fun (a, n) => Domain.all.map fun d => {
    account := a.id
    domain := d
    payload := Demonstration.payload (n + 1 = people.length && d = .tasks)
    offsetSeconds := 0
    maxAttempts := none }

/-- Runs the queue until no job is left, so many times at most, with a pause after each run. Runs
are numbered from `number` on, and those that did something are reported. -/
def runs : Nat → Nat → Summary → ConsoleM Summary
  | 0, _, total => return total
  | most + 1, number, total => do
    let summary ← ask (Scheduler.run none)
    let total := total.merge summary
    if !summary.isEmpty then
      print (.object [("run", .ofNat number), ("summary", summary.toJson)])
    if (← ask Scheduler.counts).isDrained then return total
    pause 250
    runs most (number + 1) total

/-- **Gives a demonstration.** -/
def demonstrate (people : List Account) (maxRuns : Nat) : ConsoleM Unit := do
  (requests people).forM fun r => do
    let _ ← ask (Scheduler.request r)
  let total ← runs maxRuns 1 {}
  let counts ← ask Scheduler.counts
  let deadLetters ← ask (Scheduler.deadLetters 10)
  print (.object [("counts", counts.toJson),
    ("dead_letters", .array (deadLetters.map Job.toJson)), ("total", total.toJson)])

/-- **Carries out a command.** -/
def perform (people : List Account) : Command → ConsoleM Unit
  | .demo _ _ maxRuns => demonstrate people maxRuns
  | .status => do print (← ask Scheduler.counts).toJson
  | .deadLetters limit => do
    print (.array ((← ask (Scheduler.deadLetters limit)).map Job.toJson))
  | .recover => do print (.array ((← ask Scheduler.recoverStale).map Job.toJson))
  | .purge retention => do
    print (.object [("purged", .ofNat (← ask (Scheduler.purge retention)))])

end Console

/-! ## The command -/

/-- **What came of a command:** the table as it is now, what was printed, and the failure if there
was one. -/
structure Execution where
  table : Table
  printed : List Json
  error? : Option ProgramError

namespace Command

/-- The accounts of a command. -/
def people (now : Instant) (seed : UInt64) : Command → List Account
  | .demo accounts _ _ =>
    (List.range accounts).map (Demonstration.account now (IdSource.randomBits seed))
  | _ => []

/-- The parts of the scheduler of a command: a demonstration has all collaborators, and the other
commands need none. The random bits of job ids are those behind the bits of the accounts. -/
def parts (settings : Settings) (now : Instant) (seed : UInt64) (table : Table) (c : Command) :
    Parts Table Demonstration :=
  let people := c.people now seed
  let directory := Directory.ofAccounts people
  let ids := IdSource.ofRandom fun n => IdSource.randomBits seed (people.length + n)
  match c with
  | .demo _ failEvery _ => {
      store := some table
      world := some { start := now, directory, failEvery }
      expected := some Domain.all
      settings, ids
      jitter := .ofSeed (seed + 1) }
  | _ => {
      store := some table
      world := some { start := now, directory }
      collaborators := []
      settings, ids }

/-- **Executes a command** on a table, at a time, with a seed for all that is random. -/
def execute (settings : Settings) (now : Instant) (seed : UInt64) (table : Table) (c : Command) :
    Execution :=
  match (c.parts settings now seed table).assemble with
  | .error e => ⟨table, [], some (.assembly e)⟩
  | .ok scheduler =>
    let (answer, console) := Console.perform (c.people now seed) c { scheduler }
    { table := console.scheduler.queue.store
      printed := console.printed.reverse
      error? := match answer with
        | .ok () => none
        | .error e => some e }

end Command

end SyncJobs
