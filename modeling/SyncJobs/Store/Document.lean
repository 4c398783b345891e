import SyncJobs.Store.Table

/-!
# Tables as documents

A table is kept in a file as an array of its rows, in their order. A document is read only if all
its rows could have been stored one after the other.
-/

namespace SyncJobs.Table

/-- A table as a value. -/
def toJson (t : Table) : Json := .array (t.rows.toList.map Row.toJson)

/-- Stores rows one after the other. -/
def insertAll (rows : List Row) (t : Table) : Except DatabaseError Table :=
  rows.foldlM (fun t r => t.insert r) t

/-- Reads a table. -/
def ofJson? : Json → Option Table
  | .array vs => (vs.mapM Row.ofJson?).bind fun rows => (empty.insertAll rows).toOption
  | _ => none

/-- Reads a table from a text; no text at all is the table with no rows. -/
def ofText? (text : String) : Option Table :=
  if text = "" then some empty else (Json.parse? text).bind ofJson?

/-- The text of a table. -/
def text (t : Table) : String := t.toJson.compact ++ "\n"

end SyncJobs.Table
