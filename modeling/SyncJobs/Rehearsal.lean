import SyncJobs.World

/-!
# Rehearsed worlds

A world in which everything happens as it was written down. Accounts come from a directory, the
clock moves only when it is told to, and a collaborator does what the next *cue* says: a payload
may name a script, whose cues are used one after the other; when it has none left, and for all
other payloads, there is one cue for the domain.

The world keeps a record of all calls.
-/

namespace SyncJobs

/-- **What a collaborator does at one call.** -/
structure Cue where
  /-- how many milliseconds the call takes -/
  delay : Nat := 0
  /-- by how many milliseconds the clock is set forward at the end -/
  shift : Int := 0
  ending : Reply

namespace Cue

/-- The cue of a collaborator that is told nothing: one item, at once. -/
def usual : Cue := { ending := .answered (.ok ⟨1⟩) }

end Cue

/-- A call as it is recorded. -/
structure CallRecord where
  domain : Domain
  account : Account
  payload : Payload

/-- A call as a value. -/
def CallRecord.toJson (c : CallRecord) : Json := .object
  [("domain", c.domain.toJson), ("account", c.account.id.toJson),
    ("name", .string c.account.displayName), ("payload", c.payload.value)]

/-- **A rehearsed world.** -/
structure Rehearsal where
  clock : Instant
  directory : Directory
  /-- the cues that are left of each script -/
  scripts : List (String × List Cue) := []
  /-- the cues for domains -/
  usual : List (Domain × Cue) := []
  /-- the failure of all look-ups -/
  lookupFailure : Option Failure := none
  /-- how many milliseconds a look-up takes -/
  lookupDelay : Nat := 0
  /-- the calls so far, latest first -/
  calls : List CallRecord := []

namespace Rehearsal

/-- Takes the next cue of a script. -/
def takeCue (key : String) :
    List (String × List Cue) → Option Cue × List (String × List Cue)
  | [] => (none, [])
  | (k, cues) :: rest =>
    if k = key then (cues.head?, (k, cues.tail) :: rest)
    else ((takeCue key rest).1, (k, cues) :: (takeCue key rest).2)

/-- The script that a payload names. -/
def scriptOf? (p : Payload) : Option String := (p.member? "k").bind Json.text?

/-- The cue for the next call. -/
def nextCue (d : Domain) (p : Payload) (r : Rehearsal) : Cue × Rehearsal :=
  let (cue, scripts) := match scriptOf? p with
    | some key => takeCue key r.scripts
    | none => (none, r.scripts)
  ((cue.getD ((r.usual.lookup d).getD Cue.usual)), { r with scripts })

/-- The message of a clock that is set beyond the end of time. -/
def overflowMessage : String := "`DateTime + TimeDelta` overflowed"

/-- Sets the clock forward, if that does not carry it beyond the end of time. -/
def shift? (ms : Int) (r : Rehearsal) : Option Rehearsal :=
  (r.clock.shift? ms).map fun clock => { r with clock }

instance : World Rehearsal where
  now _ r := r.clock
  lag _ _ := 0
  lookup i r := ⟨r.lookupDelay, .answered <| match r.lookupFailure with
    | some f => .error f
    | none => .ok (r.directory.resolve i)⟩
  call d account p r :=
    let (cue, r) := r.nextCue d p
    (⟨cue.delay, cue.shift, cue.ending⟩, { r with calls := ⟨d, account, p⟩ :: r.calls })
  finish c r := match r.shift? c.shift with
    | some r => (c.ending, r)
    | none => (.brokeDown (some overflowMessage), r)

end Rehearsal

end SyncJobs
