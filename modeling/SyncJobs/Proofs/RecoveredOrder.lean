import SyncJobs.Proofs.Interruptions

/-!
# The order in which recovered jobs are reported

Both stores report the same jobs after a recovery, but each sorts them by its own keys: the store in
memory by dispatch order, the table by due times and ids alone. All jobs that wait again are due at
once, so that the age, which the table leaves out, often decides.

The reports are equal exactly if ids grow with age among jobs that are due at the same time
(`ReportsAlike.equal_iff`). After the clock was set back between two new jobs, they are not
(`recovered_jobs_change_places`).
-/

namespace SyncJobs

/-! ## The order of the table -/

namespace Table

variable {a b : Job}

/-- The order of the table as a lexicographic order. -/
theorem recoveredBefore_iff : recoveredBefore a b ↔ a.runAfter.nanos < b.runAfter.nanos ∨
    a.runAfter.nanos = b.runAfter.nanos ∧ a.id.rank ≤ b.id.rank := by
  rw [recoveredBefore]
  by_cases hr : a.runAfter.nanos = b.runAfter.nanos
  · simp [hr]
  · simp [hr]

theorem recoveredBefore_trans (a b c : Job) (hab : recoveredBefore a b)
    (hbc : recoveredBefore b c) : recoveredBefore a c := by
  rw [recoveredBefore_iff] at *
  omega

theorem recoveredBefore_total (a b : Job) : recoveredBefore a b || recoveredBefore b a := by
  rw [Bool.or_eq_true, recoveredBefore_iff, recoveredBefore_iff]
  omega

theorem id_eq_of_recoveredBefore (hab : recoveredBefore a b) (hba : recoveredBefore b a) :
    a.id = b.id := by
  rw [recoveredBefore_iff] at *
  exact Id.rank_injective (by omega)

theorem pairwise_recoveredBefore (js : List Job) :
    (js.mergeSort recoveredBefore).Pairwise fun a b => recoveredBefore a b :=
  List.pairwise_mergeSort recoveredBefore_trans recoveredBefore_total js

end Table

/-! ## Two reports -/

/-- **Ids grow with age,** among jobs that are due at the same time. -/
def AgesById (js : List Job) : Prop := ∀ a ∈ js, ∀ b ∈ js, a.runAfter = b.runAfter →
  a.createdAt < b.createdAt → a.id.rank ≤ b.id.rank

/-- **Two reports of the same jobs:** `js` by the store in memory, and `ks` by the table. -/
structure ReportsAlike (js ks : List Job) : Prop where
  perm : ks.Perm js
  inMemory : js.Pairwise fun a b => a.precedes b
  inTable : ks.Pairwise fun a b => Table.recoveredBefore a b
  equal_iff : ks = js ↔ AgesById js

variable {js ks : List Job}

/-- A list in dispatch order that is in the order of the table, too. -/
theorem agesById_of_pairwise (hmemory : js.Pairwise fun a b => a.precedes b)
    (htable : js.Pairwise fun a b => Table.recoveredBefore a b) : AgesById js := by
  intro a ha b hb hrun hage
  have hrun : a.runAfter.nanos = b.runAfter.nanos := congrArg Instant.nanos hrun
  rw [Instant.lt_def] at hage
  obtain ⟨i, hi, rfl⟩ := List.getElem_of_mem ha
  obtain ⟨j, hj, rfl⟩ := List.getElem_of_mem hb
  obtain hlt | rfl | hlt := Nat.lt_trichotomy i j
  · have hbefore := List.pairwise_iff_getElem.mp htable i j hi hj hlt
    rw [Table.recoveredBefore_iff] at hbefore
    omega
  · omega
  · -- the older job does not stand behind the younger one
    have hbefore := List.pairwise_iff_getElem.mp hmemory j i hj hi hlt
    rw [Job.precedes_iff] at hbefore
    omega

/-- If ids grow with age, dispatch order is the order of the table. -/
theorem AgesById.pairwise (h : AgesById js) (hmemory : js.Pairwise fun a b => a.precedes b) :
    js.Pairwise fun a b => Table.recoveredBefore a b := by
  refine hmemory.imp_of_mem fun {a b} ha hb hab => ?_
  rw [Job.precedes_iff] at hab
  rw [Table.recoveredBefore_iff]
  obtain hrun | ⟨hrun, hage | ⟨-, hid⟩⟩ := hab
  · exact .inl hrun
  · exact .inr ⟨hrun, h a ha b hb (Instant.ext hrun) hage⟩
  · exact .inr ⟨hrun, hid⟩

/-- **Reports of the same jobs,** which have distinct ids. -/
theorem reportsAlike_of_perm (hperm : ks.Perm js) (hids : (js.map Job.id).Nodup)
    (hmemory : js.Pairwise fun a b => a.precedes b)
    (htable : ks.Pairwise fun a b => Table.recoveredBefore a b) : ReportsAlike js ks := by
  refine ⟨hperm, hmemory, htable, fun h => agesById_of_pairwise hmemory (h ▸ htable), fun h => ?_⟩
  refine hperm.eq_of_pairwise (fun a b ha hb hab hba => ?_) htable (h.pairwise hmemory)
  let jobs : Keyed Job.id := ⟨js, hids⟩
  exact Keyed.eq_of_key_eq (c := jobs) (hperm.mem_iff.mp ha) hb
    (Table.id_eq_of_recoveredBefore hab hba)

/-! ## The same rows -/

namespace Table

variable {t : Table} {m : Memory} {staleBefore : Instant}

/-- **The rows of the table are read as the jobs of a store in memory.** -/
def ReadsAs (t : Table) (m : Memory) : Prop := readAll t.rows.toList = .ok m.jobs.toList

/-- A row is stale if its job is. -/
theorem isStale_of_reads {r : Row} {j : Job} (h : r.Reads j) (staleBefore : Instant) :
    isStale staleBefore.millis r = Memory.isStale staleBefore j := by
  obtain ⟨hupdated, hwhole⟩ := Row.millis_of_readTime h.updatedAt
  simp only [isStale, Memory.isStale, h.status_eq, hupdated, Status.name_inj,
    Instant.millis_le_iff hwhole]

/-- The stale rows are those of the stale jobs. -/
theorem ReadsAs.stale (h : t.ReadsAs m) (staleBefore : Instant) :
    m.jobs.toList.filter (Memory.isStale staleBefore) = (t.stale staleBefore).map Row.job := by
  obtain ⟨hjobs, hread⟩ := readAll_eq_map h
  rw [hjobs, List.filter_map, Table.stale]
  refine congrArg (List.map Row.job) (List.filter_congr fun r hr => ?_)
  exact (isStale_of_reads (Row.toJob?_eq_ok_iff.mp (hread r hr)) staleBefore).symm

theorem ReadsAs.reads (h : t.ReadsAs m) {r : Row} (hr : r ∈ t.stale staleBefore) :
    r.Reads r.job :=
  Row.toJob?_eq_ok_iff.mp ((readAll_eq_map h).2 r (mem_stale.mp hr).1)

/-- A row is used up if its job is. -/
theorem ReadsAs.usedUp_iff (h : t.ReadsAs m) : (∀ r ∈ t.stale staleBefore,
    r.attempts < r.maxAttempts) ↔ ∀ j ∈ m.jobs.toList.filter (Memory.isStale staleBefore),
      j.attempts ≠ j.maxAttempts := by
  rw [h.stale, List.forall_mem_map]
  refine forall₂_congr fun r hr => ?_
  have hceiling := Row.ceiling_of_rule? (t.kept r (mem_stale.mp hr).1)
  have hreads := h.reads hr
  rw [hreads.attempts_eq, hreads.maxAttempts_eq] at hceiling
  rw [hreads.attempts_eq, hreads.maxAttempts_eq, ne_eq, ← UInt32.toNat_inj]
  omega

/-- The rows that were taken back are read as the jobs that were. -/
theorem ReadsAs.readAll_takenBack (h : t.ReadsAs m) (now : Instant)
    (hfree : ∀ r ∈ t.stale staleBefore, r.attempts < r.maxAttempts) :
    readAll (t.takenBack staleBefore now) = .ok
      (((t.stale staleBefore).mergeSort Row.dueBefore).map fun r => r.job.interrupt now.floor) := by
  have hreads : ∀ r ∈ (t.stale staleBefore).mergeSort Row.dueBefore,
      (r.interrupt now.millis).Reads (r.job.interrupt now.floor) := fun r hr =>
    (h.reads (List.mem_mergeSort.mp hr)).interrupt now (hfree r (List.mem_mergeSort.mp hr))
  have hall : ∀ r' ∈ t.takenBack staleBefore now, ∃ j, r'.Reads j := by
    intro r' hr'
    obtain ⟨r, hr, rfl⟩ := List.mem_map.mp hr'
    exact ⟨_, hreads r hr⟩
  obtain ⟨js, hjs⟩ := exists_readAll hall
  rw [hjs, (readAll_eq_map hjs).1, takenBack, List.map_map]
  refine congrArg Except.ok (List.map_congr_left fun r hr => ?_)
  exact Row.job_eq (Row.toJob?_eq_ok_iff.mpr (hreads r hr))

/-- **The reports of one recovery,** made to a table and to the store that its rows are read as. -/
theorem ReadsAs.reportsAlike (h : t.ReadsAs m) (now : Instant)
    (hfree : ∀ r ∈ t.stale staleBefore, r.attempts < r.maxAttempts) :
    ∃ ks, (t.recoverStale staleBefore now).1 = .ok ks ∧
      ReportsAlike (m.recoverStale staleBefore now.floor).1 ks := by
  obtain ⟨t', -, hdone⟩ := t.recoverStale_granted now hfree
  rw [hdone, h.readAll_takenBack now hfree]
  refine ⟨_, rfl, reportsAlike_of_perm ?_ ?_ (Job.pairwise_mergeSort _)
    (pairwise_recoveredBefore _)⟩
  · -- both have sorted the stale jobs as they were taken back
    rw [Memory.recoverStale, h.stale, List.map_map]
    exact (List.mergeSort_perm _ _).trans
      (((List.mergeSort_perm _ _).map _).trans (List.mergeSort_perm _ _).symm)
  · have hsame : ((m.jobs.toList.filter (Memory.isStale staleBefore)).map
        (Job.interrupt now.floor)).map Job.id =
        (m.jobs.toList.filter (Memory.isStale staleBefore)).map Job.id := by
      rw [List.map_map]
      rfl
    rw [Memory.recoverStale, ((List.mergeSort_perm _ _).map Job.id).nodup_iff, hsame]
    exact m.jobs.nodup.sublist (List.filter_sublist.map Job.id)

end Table

/-- **Recovered jobs are reported in two orders.** The rows of a table are read as the jobs of a
store in memory, and both make the same recovery at a whole time. The store in memory reports the
stale jobs as they were taken back, in dispatch order. The table refuses if one of them has no
attempt left; else it reports the same jobs by due time and id. The reports are equal exactly if ids
grow with age among the jobs that are due at the same time. -/
theorem recovered_jobs_are_reported_in_two_orders {t : Table} {m : Memory} (h : t.ReadsAs m)
    (staleBefore now : Instant) :
    let stale := m.jobs.toList.filter (Memory.isStale staleBefore)
    ∃ js, (JobStore.recoverStale staleBefore now.floor m).1 = .ok js ∧
      js.Perm (stale.map (Job.interrupt now.floor)) ∧
      (js.Pairwise fun a b => a.precedes b) ∧
      ((∃ j ∈ stale, j.attempts = j.maxAttempts) →
        JobStore.recoverStale staleBefore now t = (Table.refused (.check .ceiling), t)) ∧
      ((∀ j ∈ stale, j.attempts ≠ j.maxAttempts) →
        ∃ ks, (JobStore.recoverStale staleBefore now t).1 = .ok ks ∧ ReportsAlike js ks) := by
  intro stale
  refine ⟨_, rfl, List.mergeSort_perm _ _, Job.pairwise_mergeSort _, fun hused => ?_, fun hfree => ?_⟩
  · obtain ⟨j, hj, hspent⟩ := hused
    exact Table.recoverStale_refused fun hfree => h.usedUp_iff.mp hfree j hj hspent
  · exact h.reportsAlike now (h.usedUp_iff.mpr hfree)

/-! ## Jobs that change places -/

/-- Two jobs are queued and claimed. The first was made at the time given, the second as 1970
began. -/
def agedCalls (created : Instant) : List StoreCall :=
  [.claim ⟨2⟩ .epoch, .claim ⟨1⟩ .epoch,
    .enqueue { NewJob.plain with id := ⟨2⟩, maxAttempts := 2 },
    .enqueue { NewJob.plain with maxAttempts := 2, createdAt := created }]

/-- A store after these calls. -/
def Ledger.aged (σ : Type) [Ledger σ] (created : Instant) : σ :=
  current start (replay start (agedCalls created))

/-- Sorting two jobs. -/
theorem mergeSort_pair {α : Type} (before : α → α → Bool) (a b : α) :
    [a, b].mergeSort before = if before a b then [a, b] else [b, a] := by
  simp [List.mergeSort, List.MergeSort.Internal.splitInTwo, List.merge]

/-- Two jobs of the same age are reported alike. -/
theorem jobs_of_one_age_keep_their_places :
    (Ledger.aged Table .epoch).ReadsAs (Ledger.aged Memory .epoch) ∧
    ∃ js, (JobStore.recoverStale .epoch .epoch (Ledger.aged Memory .epoch)).1 = .ok js ∧
      (JobStore.recoverStale .epoch .epoch (Ledger.aged Table .epoch)).1 = .ok js := by
  have hreads : (Ledger.aged Table .epoch).ReadsAs (Ledger.aged Memory .epoch) := rfl
  obtain ⟨js, hjs, hperm, -, -, htable⟩ :=
    recovered_jobs_are_reported_in_two_orders hreads .epoch .epoch
  have hfree : ∀ j ∈ (Ledger.aged Memory .epoch).jobs.toList.filter (Memory.isStale .epoch),
      j.attempts ≠ j.maxAttempts := by
    decide +kernel
  obtain ⟨ks, hks, halike⟩ := htable hfree
  have hages : AgesById js := by
    intro a ha b hb _ hage
    have hsame : ∀ j ∈ ((Ledger.aged Memory .epoch).jobs.toList.filter
        (Memory.isStale .epoch)).map (Job.interrupt Instant.epoch.floor),
        j.createdAt.nanos = 0 := by
      decide +kernel
    rw [Instant.lt_def, hsame a (hperm.mem_iff.mp ha), hsame b (hperm.mem_iff.mp hb)] at hage
    omega
  exact ⟨hreads, js, hjs, (halike.equal_iff.mpr hages) ▸ hks⟩

/-- A minute after 1970 began. -/
def Instant.minute : Instant := ⟨60000000000, by decide, by decide⟩

/-- **Recovered jobs change places** if the clock was set back by a minute between them: the rows of
the table are read as the jobs in memory, all at whole times, and the reports are not equal. -/
theorem recovered_jobs_change_places :
    (Ledger.aged Table .minute).ReadsAs (Ledger.aged Memory .minute) ∧
    (JobStore.recoverStale .epoch .epoch (Ledger.aged Memory .minute)).1.map (·.map Job.id) =
      .ok [⟨2⟩, ⟨1⟩] ∧
    (JobStore.recoverStale .epoch .epoch (Ledger.aged Table .minute)).1.map (·.map Job.id) =
      .ok [⟨1⟩, ⟨2⟩] := by
  have hreads : (Ledger.aged Table .minute).ReadsAs (Ledger.aged Memory .minute) := rfl
  refine ⟨hreads, ?_, ?_⟩
  · show Except.ok (List.map Job.id (List.mergeSort [_, _] Job.precedes)) = _
    rw [mergeSort_pair]
    rfl
  · have hfree : ∀ r ∈ (Ledger.aged Table .minute).stale .epoch, r.attempts < r.maxAttempts := by
      decide +kernel
    obtain ⟨t', -, hdone⟩ := (Ledger.aged Table .minute).recoverStale_granted .epoch hfree
    show (Table.recoverStale .epoch .epoch _).1.map _ = _
    rw [hdone, hreads.readAll_takenBack .epoch hfree,
      List.mergeSort_of_pairwise (by decide +kernel)]
    show Except.ok (List.map Job.id (List.mergeSort [_, _] Table.recoveredBefore)) = _
    rw [mergeSort_pair]
    rfl

end SyncJobs
