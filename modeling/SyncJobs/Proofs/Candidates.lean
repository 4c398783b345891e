import SyncJobs.Proofs.Dispenser
import SyncJobs.Proofs.Legibility

/-!
# Due jobs are listed by rank

A look at the queue lists a ranked prefix of the due jobs (`RankedPrefix`): those whose rank among
the due jobs of their account is within the cap, in dispatch order, up to the limit.

The table ranks rows, among them rows that cannot be read. If one of these is listed, the look fails.
As long as none is, they might as well not be there (`RankedPrefix.filter`), and the table lists the
same jobs as if it held the jobs that can be read and nothing else (`Table.rankedPrefix_readable`).
-/

namespace SyncJobs

namespace Table

variable {t : Table} {now : Instant} {limit : Nat} {cap : Option Nat}

/-- The jobs of the rows that can be read. -/
def readable (t : Table) : List Job := t.rows.toList.filterMap fun r => r.toJob?.toOption

/-- The readable jobs that are due are those of the due rows that can be read. -/
theorem filter_isDue_readable (t : Table) (now : Instant) :
    t.readable.filter (·.isDue now) =
      ((t.rows.toList.filter (isDue now.millis)).filter (·.toJob?.isOk)).map Row.job := by
  rw [readable]
  induction t.rows.toList with
  | nil => rfl
  | cons r rows ih =>
    cases hr : r.toJob? with
    | error e =>
      have hnone : r.toJob?.isOk = false := by rw [hr]; rfl
      rw [List.filterMap_cons_none (by rw [hr]; rfl), ih, List.filter_cons]
      split
      · rw [List.filter_cons, hnone, if_neg Bool.false_ne_true]
      · rfl
    | ok j =>
      have hsome : r.toJob?.isOk := by rw [hr]; rfl
      rw [List.filterMap_cons_some (by rw [hr]; rfl), List.filter_cons, List.filter_cons,
        isDue_of_toJob? hr, ih]
      split
      · rw [List.filter_cons, if_pos hsome, List.map_cons, Row.job_eq hr]
      · rfl

/-- **What the table lists** at a time: rows, which it then reads. -/
structure Lists (t : Table) (now : Instant) (limit : Nat) (cap : Option Nat) (rows : List Row) :
    Prop where
  /-- the rows are read, and nothing is changed -/
  answer : JobStore.dueJobs now limit cap t = (readAll rows, t)
  ranked : RankedPrefix Row.account Row.precedes limit cap
    (t.rows.toList.filter (isDue now.millis)) rows
  /-- the look succeeds unless one of the rows cannot be read -/
  answers_iff : (∃ js, readAll rows = .ok js) ↔ ∀ r ∈ rows, ¬ r.IsGarbled
  /-- it then lists the jobs that can be read, whatever else stands in the table -/
  jobs : t.SpellsIds → ∀ js, readAll rows = .ok js → RankedPrefix Job.account Job.precedes limit cap
    (t.readable.filter (·.isDue now)) js

theorem readAll_answers_iff {rows : List Row} :
    (∃ js, readAll rows = .ok js) ↔ ∀ r ∈ rows, ¬ r.IsGarbled := by
  constructor
  · rintro ⟨js, hjs⟩ r hr hgarbled
    obtain ⟨e, he⟩ := readAll_fails_iff.mpr ⟨r, hr, hgarbled⟩
    rw [hjs] at he
    cases he
  · intro hreads
    exact exists_readAll fun r hr => Row.not_isGarbled_iff.mp (hreads r hr)

/-- The jobs of rows that are listed and read are a ranked prefix of the jobs that can be read. -/
theorem rankedPrefix_readable (ht : t.SpellsIds) {rows : List Row}
    (h : RankedPrefix Row.account Row.precedes limit cap
      (t.rows.toList.filter (isDue now.millis)) rows)
    {js : List Job} (hjs : readAll rows = .ok js) :
    RankedPrefix Job.account Job.precedes limit cap (t.readable.filter (·.isDue now)) js := by
  obtain ⟨rfl, hread⟩ := readAll_eq_map hjs
  have hkept := h.filter (t.rankable_due now.millis) fun r hr => show r.toJob?.isOk from
    (congrArg Except.isOk (hread r hr)).trans rfl
  have hspelled : ∀ r ∈ (t.rows.toList.filter (isDue now.millis)).filter (·.toJob?.isOk),
      r.toJob? = .ok r.job ∧ r.id = r.job.id.storage ∧ r.account = r.job.account.storage := by
    intro r hr
    obtain ⟨hr, hok⟩ := List.mem_filter.mp hr
    cases hj : r.toJob? with
    | error e =>
      rw [hj] at hok
      cases hok
    | ok j =>
      rw [Row.job_eq hj]
      exact ⟨rfl, ht r (List.mem_filter.mp hr).1 j hj⟩
  rw [filter_isDue_readable]
  refine hkept.map (fun r hr s hs => ?_) fun r hr s hs => ?_
  · rw [(hspelled r hr).2.2, (hspelled s hs).2.2, Id.storage_inj]
  · obtain ⟨hr, hrid, -⟩ := hspelled r hr
    obtain ⟨hs, hsid, -⟩ := hspelled s hs
    exact (precedes_of_toJob? hs hr hsid hrid).symm

theorem lists_dueRows (hfits : t.rows.toList.length ≤ largest) (now : Instant) (limit : Nat)
    (cap : Option Nat) : t.Lists now limit cap (t.dueRows now.millis limit cap) := by
  have hranked := rankedPrefix_dueRows hfits now.millis limit cap
  exact ⟨rfl, hranked, readAll_answers_iff, fun ht _ hjs => rankedPrefix_readable ht hranked hjs⟩

end Table

/-- **The candidates are a ranked prefix** of the due jobs, in either store and whatever its state,
the time, the limit and the cap. A look changes nothing, and fails only if the table lists a row that
cannot be read. The table holds no more rows than the database can number; if it came about by calls,
it spells ids as they are written (`Table.spellsIds`). -/
theorem due_jobs_are_listed_by_rank (now : Instant) (limit : Nat) (cap : Option Nat) :
    (∀ m : Memory, ∃ js, JobStore.dueJobs now limit cap m = (.ok js, m) ∧
      RankedPrefix Job.account Job.precedes limit cap (m.jobs.toList.filter (·.isDue now)) js) ∧
    ∀ t : Table, t.rows.toList.length ≤ Table.largest → ∃ rows, t.Lists now limit cap rows :=
  ⟨fun m => ⟨m.dueJobs now limit cap, rfl, m.rankedPrefix_dueJobs now limit cap⟩,
    fun _ hfits => ⟨_, Table.lists_dueRows hfits now limit cap⟩⟩

/-- A table with two jobs of one account. -/
def pairTable : Table := current .empty (Ledger.pairPast Table)

/-- With a cap of one, the first of the two is listed. -/
theorem one_of_a_pair_is_listed : pairTable.rows.toList.length ≤ Table.largest ∧
    pairTable.SpellsIds ∧ pairTable.Lists .epoch 5 (some 1) [Row.ofNew .plain] ∧
    ∃ js, Table.readAll [Row.ofNew .plain] = .ok js ∧
      RankedPrefix Job.account Job.precedes 5 (some 1)
        (pairTable.readable.filter (·.isDue .epoch)) js := by
  have hspells : pairTable.SpellsIds := Table.spellsIds
    ((History.nil.step (.enqueue .plain) ⟨List.not_mem_nil, by decide⟩).step
      (.enqueue { NewJob.plain with id := ⟨2⟩ }) ⟨by decide, by decide⟩)
  have hfits : pairTable.rows.toList.length ≤ Table.largest := by decide
  obtain ⟨rows, hlists⟩ :=
    (due_jobs_are_listed_by_rank .epoch 5 (some 1)).2 pairTable hfits
  let due := pairTable.rows.toList.filter (Table.isDue Instant.epoch.millis)
  have hwithin : due.filter (isWithin Row.account Row.precedes (some 1) due) =
      [Row.ofNew .plain] := by decide +kernel
  have hrows : rows = [Row.ofNew .plain] := by
    rw [hlists.ranked.exactly, hwithin, List.mergeSort_singleton]
    rfl
  rw [hrows] at hlists
  have hread : ∃ js, Table.readAll [Row.ofNew .plain] = .ok js := by
    refine hlists.answers_iff.mpr fun r hr ⟨e, he⟩ => ?_
    have hread : (Row.ofNew .plain).toJob?.isOk := by decide +kernel
    rw [List.mem_singleton.mp hr] at he
    rw [he] at hread
    cases hread
  obtain ⟨js, hjs⟩ := hread
  exact ⟨hfits, hspells, hlists, js, hjs, hlists.jobs hspells js hjs⟩

/-- **A deep job keeps the prefix back:** each of two due jobs is the first of its account, and the
limit and the cap have room for both. But the look fails. The store in memory answers. -/
theorem a_deep_job_keeps_the_prefix_back :
    let t := current Table.empty (replay .empty deepCalls)
    let due := t.rows.toList.filter (Table.isDue Instant.epoch.millis)
    due.length = 2 ∧ due.filter (isWithin Row.account Row.precedes (some 1) due) = due ∧
    (∃ e, (JobStore.dueJobs .epoch 2 (some 1) t).1 = .error e) ∧
    ∃ js, (JobStore.dueJobs .epoch 2 (some 1)
      (current Memory.empty (replay .empty deepCalls))).1 = .ok js ∧ js.length = 2 := by
  intro t due
  refine ⟨by decide +kernel, by decide +kernel,
    dueJobs_deepCalls_fails (Nat.le_refl 2) (by decide), _, rfl, ?_⟩
  have hranked := (current Memory.empty (replay .empty deepCalls)).rankedPrefix_dueJobs .epoch 2
    (some 1)
  rw [hranked.exactly, List.length_take, List.length_mergeSort]
  decide +kernel

end SyncJobs
