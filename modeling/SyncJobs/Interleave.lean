import SyncJobs.Job

/-!
# Taking turns

`interleave` reorders a list so that accounts take turns: first the first item of every account,
then the second of every account that has one, and so on. Accounts come in the order in which the
list first mentions them, and the items of one account keep their order.
-/

namespace SyncJobs

/-- Adds an item to the group of its key, or opens a group for it at the end. -/
def addToGroup {α κ : Type} [DecidableEq κ] (key : α → κ) (a : α) :
    List (κ × List α) → List (κ × List α)
  | [] => [(key a, [a])]
  | (k, as) :: rest =>
    if k = key a then (k, as ++ [a]) :: rest else (k, as) :: addToGroup key a rest

/-- The items by key, the keys in the order in which they are first seen. -/
def groupByKey {α κ : Type} [DecidableEq κ] (key : α → κ) (l : List α) : List (List α) :=
  (l.foldl (fun groups a => addToGroup key a groups) []).map (·.2)

/-- The first items of the lists, and what is left of the lists that had one. -/
def peel {α : Type} : List (List α) → List α × List (List α)
  | [] => ([], [])
  | [] :: ls => peel ls
  | (a :: as) :: ls => (a :: (peel ls).1, as :: (peel ls).2)

/-- How many items the lists have together. -/
def totalLength {α : Type} (ls : List (List α)) : Nat := ls.foldr (fun l n => l.length + n) 0

/-- Peeling moves items from one side to the other. -/
theorem length_peel {α : Type} (ls : List (List α)) :
    (peel ls).1.length + totalLength (peel ls).2 = totalLength ls := by
  induction ls with
  | nil => rfl
  | cons l ls ih =>
    cases l with
    | nil => simpa [peel, totalLength] using ih
    | cons a as =>
      simp only [peel, totalLength, List.length_cons, List.foldr_cons] at ih ⊢
      omega

/-- Takes one item from each list in turn until all are empty. -/
def takeTurns {α : Type} (ls : List (List α)) : List α :=
  if _h : (peel ls).1 = [] then []
  else (peel ls).1 ++ takeTurns (peel ls).2
termination_by totalLength ls
decreasing_by
  have hp := length_peel ls
  have : (peel ls).1.length ≠ 0 := fun he => _h (List.length_eq_zero_iff.mp he)
  omega

/-- **Lets accounts take turns.** -/
def interleave (jobs : List Job) : List Job := takeTurns (groupByKey Job.account jobs)

end SyncJobs
