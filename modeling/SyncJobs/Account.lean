import SyncJobs.Id
import SyncJobs.Keyed
import SyncJobs.Json.Fields

/-!
# Accounts and the account directory

An account is what jobs are run for; it is handed to the collaborator as it is. The directory
holds at most one account per id, the one that was entered last.
-/

namespace SyncJobs

/-- An id in its bare form as a value. -/
def Id.toJson {kind : IdKind} (i : Id kind) : Json := .string i.storage

/-- Reads an id from its bare form. -/
def Id.ofJson? {kind : IdKind} : Json → Option (Id kind)
  | .string s => (Id.ofStorage s).toOption
  | _ => none

/-- **An account** of the outside world. -/
structure Account where
  id : AccountId
  provider : String
  displayName : String
  emailAddress : String
  deriving DecidableEq, Repr

namespace Account

/-- An account as a value. -/
def toJson (a : Account) : Json := .object
  [("id", a.id.toJson), ("provider", .string a.provider), ("display_name", .string a.displayName),
    ("email_address", .string a.emailAddress)]

/-- Reads an account. -/
def ofJson? : Json → Option Account := Json.record do
  let id ← Json.Fields.required "id" Id.ofJson?
  let provider ← Json.Fields.required "provider" Json.text?
  let displayName ← Json.Fields.required "display_name" Json.text?
  let emailAddress ← Json.Fields.required "email_address" Json.text?
  return { id, provider, displayName, emailAddress }

end Account

/-- **The accounts known at present,** one per id. -/
abbrev Directory := Keyed Account.id

namespace Directory

/-- Enters accounts one after the other; of two with one id the later stays. -/
def ofAccounts (accounts : List Account) : Directory := Keyed.ofList accounts

/-- The account with an id. -/
def resolve (d : Directory) (i : AccountId) : Option Account := d.get? i

/-- Takes an account out; the answer is the account that was there. -/
def remove (d : Directory) (i : AccountId) : Option Account × Directory := (d.get? i, d.erase i)

end Directory

end SyncJobs
