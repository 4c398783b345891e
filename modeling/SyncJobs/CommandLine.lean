import SyncJobs.Time.Duration

/-!
# The command line

A command line names one command and options. Options that concern the whole program may stand in
front of the command and behind it, and what stands behind it counts; the other options belong to
one command and stand behind it. No option is given twice in one place.

`CommandLine.read` goes through the words from left to right. The first word that cannot be
understood decides, and so does the first that asks for help or for the version.
-/

namespace SyncJobs

/-- **What the program is asked to do.** -/
inductive Command where
  /-- queue jobs for some made-up accounts and run them -/
  | demo (accounts failEvery maxRuns : Nat)
  /-- count the jobs by status -/
  | status
  /-- list jobs that have failed for good -/
  | deadLetters (limit : Nat)
  /-- take interrupted attempts back -/
  | recover
  /-- remove jobs that succeeded longer ago than the retention -/
  | purge (retention : Duration)

/-- **A command and where it works.** -/
structure Invocation where
  /-- the file of the database -/
  database : Option String
  /-- the file of the settings -/
  config : Option String
  /-- whether a log is wanted as JSON; the commands here keep none -/
  jsonLogs : Bool
  command : Command

namespace CommandLine

/-! ## Vocabulary -/

/-- The name of a command. -/
inductive CommandName where
  | demo
  | status
  | deadLetters
  | recover
  | purge
  deriving DecidableEq, Repr

namespace CommandName

/-- All commands. -/
def all : List CommandName := [demo, status, deadLetters, recover, purge]

/-- The word for a command. -/
def word : CommandName → String
  | demo => "demo"
  | status => "status"
  | deadLetters => "dead-letters"
  | recover => "recover"
  | purge => "purge"

/-- The command that a word stands for. -/
def ofWord? (w : String) : Option CommandName := all.find? fun c => c.word = w

end CommandName

/-- What an option is followed by. -/
inductive Operand where
  | nothing
  | path
  | number
  deriving DecidableEq, Repr

/-- The name of an option. -/
inductive OptionName where
  | database
  | config
  | jsonLogs
  | accounts
  | failEvery
  | maxRuns
  | limit
  | olderThan
  deriving DecidableEq, Repr

namespace OptionName

/-- All options. -/
def all : List OptionName :=
  [database, config, jsonLogs, accounts, failEvery, maxRuns, limit, olderThan]

/-- The word for an option, without the dashes. -/
def word : OptionName → String
  | database => "database"
  | config => "config"
  | jsonLogs => "json-logs"
  | accounts => "accounts"
  | failEvery => "fail-every"
  | maxRuns => "max-runs"
  | limit => "limit"
  | olderThan => "older-than-secs"

/-- The option that a word stands for. -/
def ofWord? (w : String) : Option OptionName := all.find? fun o => o.word = w

/-- What the option is followed by. -/
def operand : OptionName → Operand
  | database | config => .path
  | jsonLogs => .nothing
  | _ => .number

/-- The command that the option belongs to; `none` if it concerns the whole program. -/
def owner? : OptionName → Option CommandName
  | database | config | jsonLogs => none
  | accounts | failEvery | maxRuns => some .demo
  | limit => some .deadLetters
  | olderThan => some .purge

/-- The number that counts if the option is not given. -/
def usual : OptionName → Nat
  | accounts => 3
  | failEvery => 4
  | maxRuns => 20
  | limit => 20
  | olderThan => 7 * 24 * 3600
  | _ => 0

end OptionName

/-- The answer to the question for the version. -/
def versionText : String := "loom 0.1.0"

/-- The answer to the question for help. -/
def helpText : String := "\n".intercalate
  ["Durable sync-job scheduler", "", "Usage: loom [OPTIONS] <COMMAND>", "", "Commands:",
    "  demo          Queue jobs for a few simulated accounts and run until drained",
    "  status        Print job counts by status",
    "  dead-letters  List dead-lettered jobs, newest first",
    "  recover       Return interrupted running jobs to the queue",
    "  purge         Delete succeeded jobs older than the retention", "", "Options:",
    "      --database <DATABASE>   Database file",
    "      --config <CONFIG>       TOML config file (defaults apply when omitted)",
    "      --json-logs             Emit logs as JSON lines", "", "Options of demo:",
    "      --accounts <N>          How many accounts there are [default: 3]",
    "      --fail-every <N>        Every Nth call fails transiently (0 disables) [default: 4]",
    "      --max-runs <N>          How often the queue is run at most [default: 20]", "",
    "Options of dead-letters:",
    "      --limit <N>             How many jobs are listed at most [default: 20]", "",
    "Options of purge:",
    "      --older-than-secs <N>   The retention in seconds [default: 604800]", ""]

/-! ## Words -/

/-- The shape of a word. -/
inductive Shape where
  /-- `--`, which ends the options -/
  | terminator
  /-- two dashes, a name, and maybe an operand after an equals sign -/
  | long (name : String) (operand : Option String)
  /-- one dash and a letter, whatever follows -/
  | short (letter : Char)
  /-- anything else -/
  | plain (text : String)

/-- Tells the shape of a word. -/
def shape (w : String) : Shape :=
  match w.toList with
  | ['-', '-'] => .terminator
  | '-' :: '-' :: cs =>
    match cs.span (· ≠ '=') with
    | (name, []) => .long (String.ofList name) none
    | (name, _ :: operand) => .long (String.ofList name) (some (String.ofList operand))
  | '-' :: c :: _ => .short c
  | _ => .plain w

/-- Reads a number of 64 bits: digits, maybe with a plus sign in front. -/
def number? (w : String) : Option Nat :=
  let ds : List Char := match w.toList with
    | '+' :: ds => ds
    | ds => ds
  let n := ds.foldl (fun n c => n * 10 + (c.toNat - '0'.toNat)) 0
  if ds ≠ [] ∧ ds.all Char.isDigit ∧ n < 0x10000000000000000 then some n else none

/-- Whether a text will do as the operand of an option. -/
def accepts (o : OptionName) (text : String) : Bool :=
  match o.operand with
  | .nothing => false
  | .path => text ≠ ""
  | .number => (number? text).isSome

/-! ## Lines -/

/-- The options of one place with their operands. -/
abbrev Given := List (OptionName × String)

/-- The number that an option stands for. -/
def Given.number (o : OptionName) (g : Given) : Nat := ((g.lookup o).bind number?).getD o.usual

/-- The command of a name, with its options. -/
def CommandName.command (g : Given) : CommandName → Command
  | demo => .demo (g.number .accounts) (g.number .failEvery) (g.number .maxRuns)
  | status => .status
  | deadLetters => .deadLetters (g.number .limit)
  | recover => .recover
  | purge => .purge (.ofSeconds (.ofNat (g.number .olderThan)))

/-- What has been read of a line. -/
structure Line where
  /-- the options in front of the command -/
  before : Given := []
  command : Option CommandName := none
  /-- the options behind the command -/
  behind : Given := []

namespace Line

/-- The options of the place that has been reached. -/
def here (l : Line) : Given := if l.command.isSome then l.behind else l.before

/-- Adds an option, unless it does not belong here or is here already. -/
def add? (o : OptionName) (text : String) (l : Line) : Option Line :=
  if (o.owner?.isNone || o.owner? = l.command) && (l.here.lookup o).isNone then
    some (if l.command.isSome then { l with behind := (o, text) :: l.behind }
      else { l with before := (o, text) :: l.before })
  else none

/-- The operand of an option that concerns the whole program. -/
def operand? (o : OptionName) (l : Line) : Option String :=
  (l.behind.lookup o).or (l.before.lookup o)

/-- What the line asks for, if it names a command. -/
def invocation? (l : Line) : Option Invocation :=
  l.command.map fun name => {
    database := l.operand? .database
    config := l.operand? .config
    jsonLogs := (l.operand? .jsonLogs).isSome
    command := name.command l.behind }

end Line

/-! ## Reading -/

/-- **What a command line means.** -/
inductive Meaning where
  | run (i : Invocation)
  | version
  | help
  /-- it cannot be understood -/
  | refused

/-- How far the reading of a line has got. -/
inductive Reading where
  /-- more words may follow; an option may be waiting for its operand -/
  | going (line : Line) (waiting : Option OptionName)
  /-- no word may follow -/
  | closed (line : Line)
  /-- help was asked for, maybe for a command that was named -/
  | helping (named : Bool)
  | decided (m : Meaning)

namespace Reading

/-- Gives an option its operand. -/
def give (o : OptionName) (text : String) (line : Line) : Reading :=
  if accepts o text then
    match line.add? o text with
    | some line => going line none
    | none => decided .refused
  else decided .refused

/-- Reads the name of an option. -/
def long (name : String) (operand : Option String) (line : Line) : Reading :=
  match OptionName.ofWord? name, operand with
  | some .jsonLogs, none => match line.add? .jsonLogs "" with
    | some line => going line none
    | none => decided .refused
  | some o, some text => give o text line
  | some o, none => match line.add? o "" with
    | some _ => going line (some o)
    | none => decided .refused
  | none, none =>
    if name = "help" then decided .help
    else if name = "version" ∧ line.command.isNone then decided .version
    else decided .refused
  | none, some _ => decided .refused

/-- Reads one word more. -/
def step : Reading → String → Reading
  | going line (some o), w => match shape w with
    | .plain text => give o text line
    | _ => decided .refused
  | going line none, w => match shape w with
    | .terminator => closed line
    | .long name operand => long name operand line
    | .short c =>
      if c = 'h' then decided .help
      else if c = 'V' ∧ line.command.isNone then decided .version
      else decided .refused
    | .plain text =>
      if line.command.isSome then decided .refused
      else if text = "help" then helping false
      else match CommandName.ofWord? text with
        | some name => going { line with command := some name } none
        | none => decided .refused
  | closed _, _ => decided .refused
  | helping named, w =>
    if !named && (w = "help" || (CommandName.ofWord? w).isSome) then helping true
    else decided .refused
  | decided m, _ => decided m

/-- What a line without an error means. -/
def ofLine (line : Line) : Meaning :=
  match line.invocation? with
  | some i => .run i
  | none => .refused

/-- What the line means if no word follows. -/
def finish : Reading → Meaning
  | going line none => ofLine line
  | going _ (some _) => .refused
  | closed line => ofLine line
  | helping _ => .help
  | decided m => m

end Reading

/-- **Reads a command line.** -/
def read (words : List String) : Meaning :=
  (words.foldl Reading.step (.going {} none)).finish

end CommandLine

end SyncJobs
