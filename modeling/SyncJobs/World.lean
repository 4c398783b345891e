import SyncJobs.Account
import SyncJobs.Domain
import SyncJobs.Outcome

/-!
# The world around the queue

Jobs are done by collaborators, for accounts that somebody else keeps, at times that a clock
tells. A `World` is all three: it answers look-ups of accounts, takes calls and tells the time.
Whatever takes time says how much, in milliseconds; nothing here waits. Whatever others do may also
break down, and then there is no answer.
-/

namespace SyncJobs

/-- A value that is there after a number of milliseconds. -/
structure Delayed (α : Type) where
  delay : Nat
  value : α
  deriving Repr

/-- **How something ends that others do.** -/
inductive Ending (α : Type) where
  /-- with an answer -/
  | answered (answer : α)
  /-- without an answer: it broke down, with a message if it left one -/
  | brokeDown (message : Option String)
  deriving Repr

/-- The wording of a break-down. -/
def Ending.wording (message : Option String) : String := message.getD "non-string panic payload"

/-- What a look-up of an account comes to. -/
abbrev Finding := Ending (Except Failure (Option Account))

/-- What a call of a collaborator comes to. -/
abbrev Reply := Ending (Except Failure Report)

/-- A call that has begun: how long it takes, by how many milliseconds the clock is set forward
when it is over, and how it ends. -/
structure Call where
  delay : Nat
  shift : Int
  ending : Reply

/-- **Accounts, collaborators and a clock.** -/
class World (ω : Type) where
  /-- what the clock shows a number of milliseconds after the beginning -/
  now : Nat → ω → Instant
  /-- how many milliseconds pass when the clock is read twice in a row, the first time so many
  milliseconds after the beginning -/
  lag : Nat → ω → Nat
  /-- looks an account up -/
  lookup : AccountId → ω → Delayed Finding
  /-- calls the collaborator of a domain -/
  call : Domain → Account → Payload → ω → Call × ω
  /-- ends a call -/
  finish : Call → ω → Reply × ω

end SyncJobs
