import SyncJobs.Id.Source
import SyncJobs.Pool
import SyncJobs.World

/-!
# The demonstration world

A world with made-up accounts and with collaborators that take a little while, find some items and
fail now and then: every so many calls of one domain end in a passing failure. A payload may be
*poisoned*; the collaborator then rejects the account's credentials, at once and for good.

The clock goes with the time that passes. Without accounts this is the world for looking after a
queue.
-/

namespace SyncJobs

/-- **A demonstration world.** -/
structure Demonstration where
  /-- what the clock shows at the beginning -/
  start : Instant
  directory : Directory := ∅
  /-- each so-manieth call of a domain fails; none does if this is zero -/
  failEvery : Nat := 0
  /-- the calls so far that took their time -/
  calls : Tally Domain := .empty

namespace Demonstration

/-- A made-up account. -/
def account (now : Instant) (random : Nat → BitVec 80) (n : Nat) : Account where
  id := IdSource.fresh (IdSource.stamp now) (random n)
  provider := if n % 2 = 0 then "imap" else "exchange"
  displayName := s!"Demo {n}"
  emailAddress := s!"demo{n}@example.com"

/-- The payload of a job that is poisoned or not. -/
def payload (poisoned : Bool) : Payload := .ofJson (.object [("poison", .bool poisoned)])

/-- Whether a payload is poisoned, if that can be told. -/
def poisoned? (p : Payload) : Option Bool :=
  Json.record (Json.Fields.defaulted "poison" Json.bool? false) p.value

/-- How many milliseconds a call takes. -/
def callTime : Nat := 50

/-- How many items the `n`-th call of a domain finds. -/
def itemsOf (n : Nat) : Domain → Nat
  | .email => 10 + n % 7
  | .calendar => 2 + n % 3
  | .tasks => 1 + n % 2

/-- The answer to the `n`-th call of a domain. -/
def answer (failEvery : Nat) (d : Domain) (n : Nat) : Except Failure Report :=
  if 0 < failEvery ∧ n % failEvery = 0 then
    .error ⟨.transient, s!"{d.name} server busy (call {n})"⟩
  else .ok ⟨.ofNat (itemsOf n d)⟩

/-- A call that fails at once and for good. -/
def rejected (reason : String) : Call := ⟨0, 0, .answered (.error ⟨.permanent, reason⟩)⟩

/-- Calls the collaborator of a domain. -/
def call (d : Domain) (a : Account) (p : Payload) (w : Demonstration) : Call × Demonstration :=
  match poisoned? p with
  | none => (rejected "bad payload", w)
  | some true => (rejected s!"{a.provider} rejected credentials for {a.emailAddress}", w)
  | some false =>
    let calls := w.calls.increment d
    (⟨callTime, 0, .answered (answer w.failEvery d (calls.count d))⟩, { w with calls })

instance : World Demonstration where
  now ms w := w.start.add (.ofMillis (.ofNat ms))
  lag _ _ := 0
  lookup i w := ⟨0, .answered (.ok (w.directory.resolve i))⟩
  call := call
  finish c w := (c.ending, w)

end Demonstration

end SyncJobs
