import SyncJobs.Scheduler

/-!
# Putting a scheduler together

A scheduler is built from parts of which some must not be missing. `Parts.assemble` names the
first thing that is wrong: settings that break a rule, a missing store, missing accounts, or
domains that were expected to have a collaborator and have none.
-/

namespace SyncJobs

/-- **Why a scheduler cannot be put together.** -/
inductive AssemblyError where
  /-- a domain has two collaborators -/
  | duplicate (e : DuplicateCollaborator)
  /-- the settings break a rule -/
  | settings (fault : Settings.Fault)
  | missingStore
  | missingAccounts
  /-- domains that should have a collaborator and have none, as often as they were expected -/
  | missingCollaborators (domains : List Domain)
  deriving DecidableEq, Repr

/-- The wording of the error. -/
def AssemblyError.message : AssemblyError → String
  | duplicate e => e.message
  | settings fault => (Settings.LoadError.invalid fault).message
  | missingStore => "no job store configured"
  | missingAccounts => "no account resolver configured"
  | missingCollaborators domains =>
    s!"Missing collaborators: {Domain.listText domains}. " ++
      "These domains were expected but not registered."

/-- **The parts of a scheduler.** -/
structure Parts (σ ω : Type) where
  store : Option σ
  /-- the world with its accounts -/
  world : Option ω
  /-- the domains that get a collaborator -/
  collaborators : List Domain := Domain.all
  /-- the domains that must have one -/
  expected : Option (List Domain) := none
  settings : Settings := {}
  /-- a pool to share with other schedulers -/
  pool : Option Pool := none
  ids : IdSource
  jitter : Jitter := .none

namespace Parts

/-- The pool that settings describe. -/
def poolOf (s : Settings) : Pool := { limits := s.limits, fairness := s.fairness }

/-- **Puts a scheduler together.** -/
def assemble {σ ω : Type} (p : Parts σ ω) : Except AssemblyError (Scheduler σ ω) := do
  let registry ← (Registry.empty.registerAll p.collaborators).mapError .duplicate
  if let some fault := p.settings.fault? then throw (.settings fault)
  let some store := p.store | throw .missingStore
  let some world := p.world | throw .missingAccounts
  let missing := (p.expected.getD []).filter fun d => !registry.has d
  if missing ≠ [] then throw (.missingCollaborators missing)
  return {
    settings := p.settings
    registry
    queue := { store, pool := p.pool.getD (poolOf p.settings) }
    ids := p.ids
    jitter := p.jitter
    world }

end Parts

end SyncJobs
