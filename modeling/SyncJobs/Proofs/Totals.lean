import Mathlib.Algebra.GroupWithZero.Nat
import Mathlib.Algebra.Order.BigOperators.Group.List
import Mathlib.Algebra.Order.Group.Nat
import SyncJobs.Proofs.Shelf

/-!
# Totals over the jobs of a store

What a store amounts to is often a sum over its jobs: how many there are in a status, how many
attempts were made, how many may still be claimed. An operation on one job changes such a total by
what it changes for that job (`Memory.total_modify`), so the effect of claims and completions on
any total is read off the job (`Memory.total_claim`, `Memory.total_complete`).

An `Inventory` is a shelf that can be taken stock of: it shows where all its jobs stand.
-/

namespace SyncJobs

namespace Memory

/-- The sum of what the jobs of a store weigh. -/
def total (weight : Job → Nat) (m : Memory) : Nat := (m.jobs.toList.map weight).sum

variable {m : Memory} {weight weight' : Job → Nat}

/-- Jobs that weigh no more make no greater a total. -/
theorem total_mono (h : ∀ j ∈ m.jobs.toList, weight j ≤ weight' j) :
    m.total weight ≤ m.total weight' :=
  List.sum_le_sum h

/-- Changing one job of a list changes the sum by what it changes for the job. -/
theorem sum_map_update {l : List Job} (hl : (l.map Job.id).Nodup) {j : Job} (hj : j ∈ l)
    (f : Job → Job) (weight : Job → Nat) :
    ((l.map fun k => if k.id = j.id then f k else k).map weight).sum + weight j =
      (l.map weight).sum + weight (f j) := by
  induction l with
  | nil => cases hj
  | cons k l ih =>
    obtain ⟨hk, hl⟩ := List.nodup_cons.mp hl
    rw [List.map_cons, List.map_cons, List.sum_cons, List.map_cons, List.sum_cons]
    rcases List.mem_cons.mp hj with rfl | hj
    -- no other job of the list has this id
    · have hrest : (l.map fun k => if k.id = j.id then f k else k) = l := by
        refine (List.map_congr_left fun k' hk' => if_neg fun hid => hk ?_).trans (List.map_id' l)
        exact hid ▸ List.mem_map_of_mem hk'
      rw [hrest, if_pos rfl]
      omega
    · have hne : k.id ≠ j.id := fun hid => hk (hid ▸ List.mem_map_of_mem hj)
      have hrest := ih hl hj
      rw [if_neg hne]
      omega

variable {i : JobId} {j : Job}

/-- **A change of one job** changes a total by what it changes for the job. -/
theorem total_modify (hj : m.jobs.get? i = some j) (f : Job → Job) (hf : ∀ j, (f j).id = j.id)
    (weight : Job → Nat) :
    (m.modify i f hf).total weight + weight j = m.total weight + weight (f j) := by
  obtain ⟨hmem, rfl⟩ := Keyed.get?_eq_some_iff.mp hj
  have hmap := sum_map_update m.jobs.nodup hmem f weight
  rw [total, total, modify, Keyed.toList_update]
  simpa only [decide_eq_true_eq] using hmap

/-- **A claim** of a job that is due changes a total by what the start changes for the job. -/
theorem total_claim {now : Instant} (hj : m.jobs.get? i = some j) (due : j.isDue now)
    (weight : Job → Nat) :
    (m.claim i now).2.total weight + weight j = m.total weight + weight (j.start now) := by
  have hmodify := total_modify hj (Job.start now) (Job.id_start now) weight
  simpa only [claim, hj, due, if_true] using hmodify

/-- **A completion** changes a total by what the decision changes for the job, or nothing. -/
theorem total_complete {r : Receipt} {d : Decision} {now : Instant} {k : Job}
    (h : (m.complete r d now).1 = .ok k) (weight : Job → Nat) :
    ∃ j, m.jobs.get? r.job = some j ∧ j.status = .running ∧ j.attempts = r.attempts ∧
      j.settle d now = k ∧
      (m.complete r d now).2.total weight + weight j = m.total weight + weight k := by
  obtain ⟨j, hj, running, current, rfl⟩ := complete_eq_ok h
  have hmodify := total_modify hj (Job.settle d now) (Job.id_settle d now) weight
  refine ⟨j, hj, running, current, rfl, ?_⟩
  simpa only [complete, hj, running, current, ne_eq, not_true_eq_false, if_false] using hmodify

end Memory

/-! ## Stores to be taken stock of -/

/-- **A shelf that shows where all its jobs stand.** -/
class Inventory (σ : Type) extends Shelf σ where
  /-- where the jobs stand -/
  standings : σ → List Standing
  standings_eq {s : σ} {m : Memory} : Keeps s m → standings s = m.jobs.toList.map Job.standing
  counts_eq {s : σ} {m : Memory} : Keeps s m → (counts s).1 = .ok m.counts

instance : Inventory Memory where
  standings m := m.jobs.toList.map Job.standing
  standings_eq := by
    rintro m _ rfl
    rfl
  counts_eq := by
    rintro m _ rfl
    rfl

instance : Inventory Table where
  standings t := t.rows.toList.filterMap Row.standing?
  standings_eq := by
    intro t m h
    have hrows : t.rows.toList = m.jobs.toList.map Row.ofJob := Table.Holds.rows h
    rw [hrows, List.filterMap_map, ← List.filterMap_eq_map]
    exact List.filterMap_congr fun j _ => Row.standing?_ofJob j
  counts_eq h := Table.Holds.counts h

/-- How often a job that stands so may still be claimed, if it waits. -/
def Standing.allowance (s : Standing) : Nat :=
  if s.status = .pending then (s.maxAttempts - s.attempts).toNat else 0

/-- **How often the waiting jobs of a store may be claimed:** the sum of the attempts that are left
to them. -/
def Inventory.allowance {σ : Type} [Inventory σ] (s : σ) : Nat :=
  ((standings s).map Standing.allowance).sum

end SyncJobs
