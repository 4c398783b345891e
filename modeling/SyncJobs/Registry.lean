import SyncJobs.Domain

/-!
# The registry of collaborators

Which domains have a collaborator. A domain is entered at most once; a second entry is refused
and changes nothing.
-/

namespace SyncJobs

/-- **The domains that have a collaborator,** in the order in which they were entered. -/
structure Registry where
  entered : List Domain
  nodup : entered.Nodup
  deriving DecidableEq, Repr

/-- A domain that has a collaborator was entered again. -/
structure DuplicateCollaborator where
  domain : Domain
  deriving DecidableEq, Repr

/-- The wording of the error. -/
def DuplicateCollaborator.message (e : DuplicateCollaborator) : String :=
  s!"duplicate collaborator for domain={e.domain.name}"

namespace Registry

/-- The registry with no collaborators. -/
def empty : Registry := ⟨[], List.nodup_nil⟩

instance : Inhabited Registry := ⟨empty⟩

/-- Whether a domain has a collaborator. -/
def has (r : Registry) (d : Domain) : Bool := d ∈ r.entered

/-- Enters the collaborator of a domain. -/
def register (r : Registry) (d : Domain) : Except DuplicateCollaborator Registry :=
  if h : d ∈ r.entered then .error ⟨d⟩
  else .ok ⟨d :: r.entered, List.nodup_cons.mpr ⟨h, r.nodup⟩⟩

/-- Enters several collaborators; the first repetition ends it. -/
def registerAll (r : Registry) (ds : List Domain) : Except DuplicateCollaborator Registry :=
  ds.foldlM register r

/-- The domains that have a collaborator, in their usual order. -/
def domains (r : Registry) : List Domain := Domain.all.filter r.has

/-- How many collaborators there are. -/
def size (r : Registry) : Nat := r.entered.length

/-- The registry in reports. -/
def report (r : Registry) : String :=
  s!"CollaboratorRegistry \x7b domains: {Domain.listText r.domains} \x7d"

/-- The registry in which every domain has a collaborator. -/
def full : Registry := ⟨Domain.all, by decide⟩

end Registry

end SyncJobs
