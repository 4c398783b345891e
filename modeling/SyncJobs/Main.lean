import SyncJobs.Program
import SyncJobs.Store.Document
import Std.Time.DateTime.Timestamp

/-!
# The program as it is started

Here the program meets files, the clock and random bits. It reads the command line, the settings
file and the database, in this order, has `Command.execute` do the work, prints what came of it
and writes the database back. The exit code is 0 if all went well, 1 after a failure, and 2 if the
command line could not be understood.
-/

namespace SyncJobs.Main

/-- The content of a file, if it can be read. -/
def content? (path : String) : IO (Option ByteArray) := do
  try
    return some (← IO.FS.readBinFile path)
  catch _ =>
    return none

/-- Opens a database; a file that is missing is created. -/
def openDatabase? (path : String) : IO (Option Table) := do
  match ← content? path with
  | some bytes => return (String.fromUTF8? bytes).bind Table.ofText?
  | none =>
    try
      IO.FS.writeFile path Table.empty.text
      return some Table.empty
    catch _ =>
      return none

/-- What the clock shows. -/
def now : IO Instant := do
  return Instant.clamped (← Std.Time.Timestamp.now).toNanosecondsSinceUnixEpoch.val

/-- A seed that cannot be foretold. -/
def randomSeed : IO UInt64 := do
  return (← IO.getRandomBytes 8).foldl (fun n b => n * 256 + b.toUInt64) 0

/-- Reports a failure. -/
def report (e : ProgramError) : IO UInt32 := do
  IO.eprintln ("Error: " ++ e.message)
  if let some cause := e.cause? then
    IO.eprintln ("\nCaused by:\n    " ++ cause)
  return 1

/-- Runs a command. -/
def run (i : Invocation) : IO UInt32 := do
  let content ← match i.config with
    | some path => content? path
    | none => pure none
  match i.settings? content with
  | .error e => report e
  | .ok settings =>
    let table ← match i.databasePath? with
      | some path => openDatabase? path
      | none => pure (some Table.empty)
    match table with
    | none => report (.database (i.databasePath?.getD ""))
    | some table =>
      let result := i.command.execute settings (← now) (← randomSeed) table
      for v in result.printed do
        IO.println (v.pretty 0)
      if let some path := i.databasePath? then
        IO.FS.writeFile path result.table.text
      match result.error? with
      | some e => report e
      | none => return 0

end SyncJobs.Main

/-- The program. -/
def main (args : List String) : IO UInt32 := do
  match SyncJobs.CommandLine.read args with
  | .run i => SyncJobs.Main.run i
  | .version =>
    IO.println SyncJobs.CommandLine.versionText
    return 0
  | .help =>
    IO.print SyncJobs.CommandLine.helpText
    return 0
  | .refused =>
    IO.eprint SyncJobs.CommandLine.helpText
    return 2
