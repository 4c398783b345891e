import SyncJobs.Proofs.Failures
import SyncJobs.Proofs.JsonText
import SyncJobs.Proofs.Snapshots

/-!
# Rows that cannot be read

A payload is written however deep its arrays and objects are nested, but its text is read only as
deep as the reader goes. So a job with a payload that is nested deeper is accepted, and its row
cannot be read. Whatever calls are made from the empty table on, there are no other rows that cannot
be read (`only_deep_payloads_cannot_be_read`): ids, names, counts and times are read as they were
written.

A call that looks at jobs fails if one of the rows that it comes across cannot be read. So a deep
job that is due hides all others that are due (`a_deep_job_hides_another`).
-/

namespace SyncJobs

/-! ## Deep payloads -/

/-- **A row whose payload is nested deeper than the reader goes.** -/
def Row.IsDeep (r : Row) : Prop :=
  ∃ p : Payload, p.value.floatsFit ∧ Json.maxDepth < p.value.nesting ∧ p.value.compact = r.payload

namespace Row

/-- The row of a job cannot be read exactly if its payload is nested too deep. -/
theorem isGarbled_ofJob_iff {j : Job} (hj : j.IsWhole) (hfit : j.payload.value.floatsFit) :
    (ofJob j).IsGarbled ↔ Json.maxDepth < j.payload.value.nesting := by
  rw [← Payload.reread_fails_iff hfit, IsGarbled, toJob?_ofJob hj, Job.readWith]
  cases j.payload.reread <;> simp [Except.map]

/-- **Only deep rows cannot be read,** among the rows that calls write. -/
theorem isGarbled_iff_isDeep {r : Row} (h : Table.IsFiled (fun p => p.value.floatsFit) r) :
    r.IsGarbled ↔ r.IsDeep := by
  obtain ⟨j, hj, hfit, rfl⟩ := h
  rw [isGarbled_ofJob_iff hj hfit]
  constructor
  · exact fun hdeep => ⟨j.payload, hfit, hdeep, rfl⟩
  · -- another payload with the same text is read alike
    rintro ⟨p, hp, hdeep, hsame⟩
    have hread : p.reread = j.payload.reread := congrArg readPayload hsame
    rwa [← Payload.reread_fails_iff hp, hread, Payload.reread_fails_iff hfit] at hdeep

end Row

/-! ## Looking at jobs -/

/-- Whether a call looks at jobs or counts them, and does nothing else. -/
def StoreCall.isLook : StoreCall → Bool
  | dueJobs _ _ _ | get _ | counts | deadLetters _ => true
  | _ => false

namespace Table

variable {t : Table}

/-- **The rows that a call reads** to look at their jobs. To count rows, none is read. -/
def lookedAt (t : Table) : StoreCall → List Row
  | .dueJobs now limit cap => t.dueRows now.millis limit cap
  | .get i => (t.rows.get? i.storage).toList
  | .deadLetters limit =>
    ((t.rows.toList.filter fun r => r.status = Status.deadLetter.name).mergeSort
      Row.newerFirst).take (limit.min largest)
  | _ => []

theorem mem_rows_of_mem_lookedAt {c : StoreCall} {r : Row} (h : r ∈ t.lookedAt c) :
    r ∈ t.rows.toList := by
  cases c with
  | dueJobs now limit cap => exact (mem_rows_of_mem_dueRows h).1
  | get i => exact (Keyed.get?_eq_some_iff.mp (Option.mem_toList.mp h)).1
  | deadLetters limit =>
    exact (List.mem_filter.mp (List.mem_mergeSort.mp (List.mem_of_mem_take h))).1
  | _ => cases h

/-- A job cannot be shown exactly if its row cannot be read. -/
theorem peek_fails_iff {i : JobId} : (∃ e, JobStore.peek t i = .error e) ↔
    ∃ r, t.rows.get? i.storage = some r ∧ r.IsGarbled := by
  show (∃ e, t.get i = .error e) ↔ _
  rw [get]
  cases t.rows.get? i.storage with
  | none => simp
  | some r =>
    simp only [Option.some.injEq, exists_eq_left', Row.IsGarbled]
    cases r.toJob? <;> simp [Except.map]

/-- **A call that looks at jobs fails** exactly if one of the rows it reads cannot be read. -/
theorem look_fails_iff {c : StoreCall} (hc : c.isLook) :
    (∃ e, (c.run t).1 = .error e) ↔ ∃ r ∈ t.lookedAt c, r.IsGarbled := by
  cases c with
  | dueJobs now limit cap => exact (StoreCall.answering_fails_iff _ _ t).trans readAll_fails_iff
  | deadLetters limit => exact (StoreCall.answering_fails_iff _ _ t).trans readAll_fails_iff
  | get i =>
    refine (StoreCall.answering_fails_iff _ _ t).trans (peek_fails_iff.trans ?_)
    simp only [lookedAt, Option.mem_toList]
  | counts =>
    refine (StoreCall.answering_fails_iff _ _ t).trans ?_
    obtain ⟨statuses, -, hcounts⟩ := t.counts_eq
    show (∃ e, t.counts = .error e) ↔ _
    simp [hcounts, lookedAt]
  | enqueue | claim | claimDue | complete | recoverStale | purgeSucceeded => cases hc

/-- **A look at the due jobs fails** if a due row cannot be read, while the limit has room for all
rows and the cap for this one. -/
theorem dueJobs_fails {now : Instant} {limit : Nat} {cap : Option Nat} {r : Row}
    (hgarbled : r.IsGarbled) (hdue : r ∈ t.rows.toList.filter (isDue now.millis))
    (hrank : rankIn (t.rows.toList.filter (isDue now.millis)) r ≤ (cap.getD largest).min largest)
    (hroom : t.rows.toList.length ≤ limit.min largest) :
    ∃ e, (JobStore.dueJobs now limit cap t).1 = .error e := by
  refine readAll_fails_iff.mpr ⟨r, ?_, hgarbled⟩
  rw [dueRows, List.take_of_length_le, List.mem_mergeSort]
  · exact List.mem_filter.mpr ⟨hdue, decide_eq_true hrank⟩
  · rw [List.length_mergeSort]
    exact ((List.length_filter_le _ _).trans (List.length_filter_le _ _)).trans hroom

/-- A new job that is accepted cannot be shown exactly if its payload is nested too deep. -/
theorem peek_enqueue_fails_iff {n : NewJob} (hfit : n.payload.value.floatsFit) {j : Job}
    (h : (t.enqueue n).1 = .ok j) : (∃ e, JobStore.peek (t.enqueue n).2 n.id = .error e) ↔
      Json.maxDepth < n.payload.value.nesting := by
  rw [(peek_enqueue h).2, ← Payload.reread_fails_iff hfit, Job.readFound, Job.readWith]
  show (∃ e, ((n.payload.reread.map _).map _) = .error e) ↔ _
  cases n.payload.reread <;> simp [Except.map]

end Table

/-! ## What can be read -/

/-- **Only deep payloads cannot be read.** Here is a table after any calls from its start on, whose
new jobs have payloads with floats of 64 bits. Its rows can all be read, but for those whose payload
is nested deeper than the reader goes. So a call that looks at jobs fails exactly if it comes across
such a row, and none fails if no new job had such a payload. But a new job with such a payload is
accepted like others, and cannot be shown from then on. -/
theorem only_deep_payloads_cannot_be_read {calls : List StoreCall}
    (hfit : ∀ n, .enqueue n ∈ calls → n.payload.value.floatsFit) :
    let t := current Table.empty (replay .empty calls)
    (∀ r ∈ t.rows.toList, r.IsGarbled ↔ r.IsDeep) ∧
    (∀ c : StoreCall, c.isLook → ((∃ e, (c.run t).1 = .error e) ↔ ∃ r ∈ t.lookedAt c, r.IsDeep)) ∧
    ((∀ n, .enqueue n ∈ calls → n.payload.value.nesting ≤ Json.maxDepth) →
      ∀ c : StoreCall, c.isLook → ∃ a, (c.run t).1 = .ok a) ∧
    ∀ n, n.payload.value.floatsFit → ∀ j, (JobStore.enqueue n t).1 = .ok j →
      ((∃ e, JobStore.peek (JobStore.enqueue n t).2 n.id = .error e) ↔
        Json.maxDepth < n.payload.value.nesting) := by
  intro t
  have hfiled : t.AllFiled fun p => p.value.floatsFit := Table.allFiled hfit
  have hdeep : ∀ r ∈ t.rows.toList, r.IsGarbled ↔ r.IsDeep := fun r hr =>
    Row.isGarbled_iff_isDeep (hfiled r hr)
  refine ⟨hdeep, fun c hc => ?_, fun hshallow c hc => ?_, fun n hn j hj =>
    Table.peek_enqueue_fails_iff hn hj⟩
  · exact (Table.look_fails_iff hc).trans (exists_congr fun r => and_congr_right fun hr =>
      hdeep r (Table.mem_rows_of_mem_lookedAt hr))
  · have hall : t.AllFiled fun p => p.value.floatsFit ∧ p.value.nesting ≤ Json.maxDepth :=
      Table.allFiled fun n hn => ⟨hfit n hn, hshallow n hn⟩
    have hnone : ¬ ∃ e, (c.run t).1 = .error e := by
      rw [Table.look_fails_iff hc]
      rintro ⟨r, hr, hgarbled⟩
      obtain ⟨j, hj, ⟨hjfit, hle⟩, rfl⟩ := hall r (Table.mem_rows_of_mem_lookedAt hr)
      exact absurd ((Row.isGarbled_ofJob_iff hj hjfit).mp hgarbled) (Nat.not_lt.mpr hle)
    cases hanswer : (c.run t).1 with
    | error e => exact absurd ⟨e, hanswer⟩ hnone
    | ok a => exact ⟨a, rfl⟩

/-- The plain job with a float in its payload. -/
def NewJob.measured : NewJob :=
  { NewJob.plain with payload := ⟨.array [.float (Binary64.ofRatio false 1 10)], rfl⟩ }

/-- Such a job is found when it is due. -/
theorem a_measured_job_is_found :
    let t := current Table.empty (replay .empty [.enqueue .measured])
    t.rows.toList.map Row.status = [Status.pending.name] ∧
    ∃ a, ((StoreCall.dueJobs .epoch 1 none).run t).1 = .ok a := by
  refine ⟨by decide +kernel, (only_deep_payloads_cannot_be_read fun n hn => ?_).2.2.1
    (fun n hn => ?_) _ rfl⟩
  all_goals
    obtain rfl : n = .measured := by simpa using hn
    decide +kernel

/-! ## A job that hides another -/

theorem Row.isGarbled_nested_iff {n : Nat} :
    (ofNew (.nested n)).IsGarbled ↔ Json.maxDepth < n := by
  have hwhole := Job.isWhole_toPending (.nested n)
  rw [← NewJob.reread_nested_fails_iff, ofNew_eq, IsGarbled, toJob?_ofJob hwhole, Job.readWith]
  show (∃ e, ((NewJob.nested n).payload.reread.map _) = .error e) ↔ _
  cases (NewJob.nested n).payload.reread <;> simp [Except.map]

/-- A job is queued whose payload is nested one deeper than the reader goes, and then a plain job of
another account. -/
def deepCalls : List StoreCall :=
  [.enqueue { NewJob.plain with id := ⟨2⟩, account := ⟨2⟩ }, .enqueue (.nested 128)]

/-- **Looking for due jobs fails** with the deep job in line, if there is room for both. -/
theorem dueJobs_deepCalls_fails {limit : Nat} {cap : Option Nat} (hlimit : 2 ≤ limit)
    (hcap : cap ≠ some 0) :
    ∃ e, (JobStore.dueJobs .epoch limit cap
      (current Table.empty (replay .empty deepCalls))).1 = .error e := by
  let t := current Table.empty (replay .empty deepCalls)
  have hrank : Table.rankIn (t.rows.toList.filter (Table.isDue Instant.epoch.millis))
      (Row.ofNew (.nested 128)) = 1 := by decide +kernel
  have hlength : t.rows.toList.length = 2 := by decide +kernel
  refine Table.dueJobs_fails (r := .ofNew (.nested 128)) (Row.isGarbled_nested_iff.mpr (by decide))
    (by decide +kernel) ?_ ?_
  · rw [hrank]
    refine Nat.le_min.mpr ⟨?_, by decide⟩
    cases cap with
    | none => decide
    | some n => exact Nat.pos_of_ne_zero fun hn => hcap (congrArg some hn)
  · rw [hlength]
    exact Nat.le_min.mpr ⟨hlimit, by decide⟩

/-- **A deep job hides another:** both are accepted, and wait. The deep one cannot be shown, and
looking for due jobs fails. The store in memory shows the deep one as it was given. -/
theorem a_deep_job_hides_another :
    let t := current Table.empty (replay .empty deepCalls)
    t.rows.toList.map Row.status = [Status.pending.name, Status.pending.name] ∧
    (∃ e, JobStore.peek t ⟨1⟩ = .error e) ∧
    (∃ e, (JobStore.dueJobs .epoch 2 none t).1 = .error e) ∧
    JobStore.peek (current Memory.empty (replay .empty deepCalls)) ⟨1⟩ =
      .ok (some (NewJob.nested 128).toPending) := by
  intro t
  have hgarbled : (Row.ofNew (.nested 128)).IsGarbled := Row.isGarbled_nested_iff.mpr (by decide)
  have hget : t.rows.get? (⟨1⟩ : JobId).storage = some (Row.ofNew (.nested 128)) := by
    decide +kernel
  exact ⟨by decide +kernel, Table.peek_fails_iff.mpr ⟨_, hget, hgarbled⟩,
    dueJobs_deepCalls_fails (Nat.le_refl 2) nofun, rfl⟩

end SyncJobs
