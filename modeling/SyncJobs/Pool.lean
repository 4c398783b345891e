import SyncJobs.Interleave

/-!
# Permits

A job is worked on under a permit. The pool counts the permits that are out: in total, by domain,
by account, and by account and domain. It grants a permit only if all four counts are below their
limits, and takes it off the counts when it comes back.

`Pool.allocate` grants permits to a list of candidates from left to right, after letting accounts
take turns if that is the pool's rule of fairness.
-/

namespace SyncJobs

/-! ## Limits -/

/-- **How many permits may be out at once.** -/
structure Limits where
  total : Nat := 4
  perDomain : Nat := 4
  perAccount : Nat := 2
  perAccountDomain : Nat := 1
  deriving DecidableEq, Repr, Inhabited

namespace Limits

/-- Limits as a value. -/
def toJson (l : Limits) : Json := .object
  [("max_global", .ofNat l.total), ("max_per_domain", .ofNat l.perDomain),
    ("max_per_account", .ofNat l.perAccount), ("max_per_account_domain", .ofNat l.perAccountDomain)]

/-- Reads limits; each may be missing. -/
def ofJson? : Json → Option Limits := Json.record do
  let usual : Limits := {}
  let total ← Json.Fields.defaulted "max_global" Json.count? usual.total
  let perDomain ← Json.Fields.defaulted "max_per_domain" Json.count? usual.perDomain
  let perAccount ← Json.Fields.defaulted "max_per_account" Json.count? usual.perAccount
  let perAccountDomain ←
    Json.Fields.defaulted "max_per_account_domain" Json.count? usual.perAccountDomain
  return { total, perDomain, perAccount, perAccountDomain }

end Limits

/-- **In which order candidates are considered.** -/
inductive Fairness where
  /-- accounts take turns -/
  | takeTurns
  /-- as the store lists them -/
  | oldestFirst
  deriving DecidableEq, Repr, Inhabited

namespace Fairness

/-- Both rules. -/
def all : List Fairness := [takeTurns, oldestFirst]

/-- The name in data. -/
def name : Fairness → String
  | takeTurns => "round_robin_by_account"
  | oldestFirst => "oldest_first"

/-- A rule as a value. -/
def toJson (f : Fairness) : Json := .string f.name

/-- Reads a rule. -/
def ofJson? : Json → Option Fairness := Json.name? fun s => all.find? fun f => f.name = s

/-- The candidates in the order of the rule. -/
def arrange (f : Fairness) (jobs : List Job) : List Job :=
  match f with
  | takeTurns => interleave jobs
  | oldestFirst => jobs

end Fairness

/-! ## Tallies -/

/-- **Counts by key.** A key whose count is zero has no entry. -/
structure Tally (κ : Type) where
  entries : List (κ × Nat)
  deriving Repr

namespace Tally

variable {κ : Type} [DecidableEq κ]

/-- The tally with no entries. -/
def empty : Tally κ := ⟨[]⟩

/-- The count of a key. -/
def count (t : Tally κ) (k : κ) : Nat := (t.entries.lookup k).getD 0

/-- The entries with the count of one key changed by a function; a count of zero leaves none. -/
def alter (k : κ) (f : Nat → Nat) : List (κ × Nat) → List (κ × Nat)
  | [] => if f 0 = 0 then [] else [(k, f 0)]
  | (l, n) :: rest =>
    if l = k then (if f n = 0 then rest else (k, f n) :: rest) else (l, n) :: alter k f rest

/-- Counts a key once more. -/
def increment (t : Tally κ) (k : κ) : Tally κ := ⟨alter k (· + 1) t.entries⟩

/-- Counts a key once less; a count stops at zero. -/
def decrement (t : Tally κ) (k : κ) : Tally κ := ⟨alter k (· - 1) t.entries⟩

end Tally

/-! ## The pool -/

/-- **A permit** to work on a job of an account and a domain. -/
structure Permit where
  account : AccountId
  domain : Domain
  deriving DecidableEq, Repr

/-- **The permits that are out,** counted four ways. -/
structure Usage where
  total : Nat := 0
  byDomain : Tally Domain := .empty
  byAccount : Tally AccountId := .empty
  byPair : Tally (AccountId × Domain) := .empty
  deriving Repr

instance : Inhabited Usage := ⟨{}⟩

namespace Usage

/-- Whether one permit more would respect all limits. -/
def admits (u : Usage) (l : Limits) (p : Permit) : Bool :=
  u.total < l.total && u.byDomain.count p.domain < l.perDomain &&
    u.byAccount.count p.account < l.perAccount &&
    u.byPair.count (p.account, p.domain) < l.perAccountDomain

/-- Counts a permit that goes out. -/
def acquire (u : Usage) (p : Permit) : Usage where
  total := u.total + 1
  byDomain := u.byDomain.increment p.domain
  byAccount := u.byAccount.increment p.account
  byPair := u.byPair.increment (p.account, p.domain)

/-- Takes a permit that came back off the counts. -/
def release (u : Usage) (p : Permit) : Usage where
  total := u.total - 1
  byDomain := u.byDomain.decrement p.domain
  byAccount := u.byAccount.decrement p.account
  byPair := u.byPair.decrement (p.account, p.domain)

end Usage

/-- **The pool of permits.** -/
structure Pool where
  limits : Limits := {}
  fairness : Fairness := .takeTurns
  usage : Usage := {}
  deriving Repr, Inhabited

namespace Pool

/-- How many permits are left in total. -/
def available (p : Pool) : Nat := p.limits.total - p.usage.total

/-- The permit that a job needs. -/
def permitFor (j : Job) : Permit := ⟨j.account, j.domain⟩

/-- Whether a permit would be granted now. -/
def admits (p : Pool) (permit : Permit) : Bool := p.usage.admits p.limits permit

/-- The pool with one permit more out. -/
def acquire (p : Pool) (permit : Permit) : Pool := { p with usage := p.usage.acquire permit }

/-- The pool with a permit back. -/
def release (p : Pool) (permit : Permit) : Pool := { p with usage := p.usage.release permit }

/-- Grants a permit if the limits allow it. -/
def tryAcquire (p : Pool) (permit : Permit) : Option Pool :=
  if p.admits permit then some (p.acquire permit) else none

/-- Grants permits from left to right, until no permit is left in total. -/
def grant (p : Pool) : List Job → List (Job × Permit) × Pool
  | [] => ([], p)
  | j :: js =>
    if p.available = 0 then ([], p)
    else if p.admits (permitFor j) then
      let (granted, q) := grant (p.acquire (permitFor j)) js
      ((j, permitFor j) :: granted, q)
    else grant p js

/-- **Grants permits to candidates** in the order of the pool's rule of fairness. -/
def allocate (p : Pool) (candidates : List Job) : List (Job × Permit) × Pool :=
  p.grant (p.fairness.arrange candidates)

/-- Takes several permits back. -/
def releaseAll (p : Pool) (permits : List Permit) : Pool := permits.foldl release p

end Pool

end SyncJobs
