/-!
# Agendas

Entries with a time, the earliest first. Of entries for one time, the one that was entered first
comes first.
-/

namespace SyncJobs

/-- **Entries in the order of their times.** -/
structure Agenda (α : Type) where
  entries : List (Nat × α)

namespace Agenda

variable {α : Type}

/-- The agenda with no entries. -/
def empty : Agenda α := ⟨[]⟩

instance : Inhabited (Agenda α) := ⟨empty⟩

/-- Puts an entry behind all entries that are not later. -/
def insert (time : Nat) (a : α) : List (Nat × α) → List (Nat × α)
  | [] => [(time, a)]
  | (t, b) :: rest => if t ≤ time then (t, b) :: insert time a rest else (time, a) :: (t, b) :: rest

/-- Enters something for a time. -/
def add (agenda : Agenda α) (time : Nat) (a : α) : Agenda α := ⟨insert time a agenda.entries⟩

/-- The first entry, and the agenda without it. -/
def next? (agenda : Agenda α) : Option ((Nat × α) × Agenda α) :=
  match agenda.entries with
  | [] => none
  | e :: rest => some (e, ⟨rest⟩)

end Agenda

end SyncJobs
