import SyncJobs.Proofs.Apart
import SyncJobs.Proofs.Legibility
import SyncJobs.Proofs.Staleness

/-!
# Jobs that wait stay on file

A store files a job under its id, as it is or as a row (`Filing`). As long as nobody claims it, a job
that waits is left where it is and as it is: whatever call is made that stores no other job under its
id, the job is filed as before, or it is being worked on (`Filing.waits`).

This also holds of rows that cannot be read, which a store cannot show.
-/

namespace SyncJobs

/-! ## Stores that file jobs -/

/-- **A store that files jobs** under their ids. -/
class Filing (σ : Type) (ρ : outParam Type) extends JobStore σ where
  /-- what is kept under an id -/
  entry : σ → JobId → Option ρ
  /-- what is kept of a job -/
  file : Job → ρ
  /-- the name of the status -/
  status : ρ → String
  status_file (j : Job) : status (file j) = j.status.name
  /-- a new job is refused, or filed under its id -/
  enqueue_files (n : NewJob) (s : σ) : (∃ e, enqueue n s = (.error e, s)) ∨
    ∃ s', enqueue n s = (.ok n.toPending, s') ∧ entry s' n.id = some (file n.toPending) ∧
      ∀ i, i ≠ n.id → entry s' i = entry s i
  look_same {c : StoreCall} (s : σ) : c.isLook → (c.run s).2 = s
  /-- a claim starts an attempt, or leaves things alone -/
  claim_starts (k : JobId) (now : Instant) (s : σ) (i : JobId) :
    entry (claim k now s).2 i = entry s i ∨
      ∃ a, entry (claim k now s).2 i = some a ∧ status a = Status.running.name
  complete_waiting {s : σ} {i : JobId} {a : ρ} (r : Receipt) (d : Decision) (now : Instant) :
    entry s i = some a → status a = Status.pending.name → entry (complete r d now s).2 i = some a
  recoverStale_waiting {s : σ} {i : JobId} {a : ρ} (staleBefore now : Instant) :
    entry s i = some a → status a = Status.pending.name →
      entry (recoverStale staleBefore now s).2 i = some a
  purgeSucceeded_waiting {s : σ} {i : JobId} {a : ρ} (olderThan : Instant) :
    entry s i = some a → status a = Status.pending.name →
      entry (purgeSucceeded olderThan s).2 i = some a

namespace Filing

variable {σ ρ : Type} [Filing σ ρ]

/-- Claims start attempts, or leave things alone. -/
theorem claimEach_starts (now : Instant) (is : List JobId) (s : σ) (i : JobId) :
    entry (JobStore.claimEach now is s).2 i = entry s i ∨
      ∃ a, entry (JobStore.claimEach now is s).2 i = some a ∧ status σ a = Status.running.name := by
  induction is generalizing s with
  | nil => exact .inl rfl
  | cons k is ih =>
    have hclaim := claim_starts k now s i
    rw [JobStore.claimEach_cons]
    revert hclaim
    cases JobStore.claim k now s with
    | mk answer s' =>
      intro hclaim
      cases answer with
      | error e => exact hclaim
      | ok found =>
        -- what an earlier claim has started is left alone by the later ones, or started again
        obtain hsame | hstarted := ih s'
        · obtain hsame' | ⟨a, ha, running⟩ := hclaim
          · exact .inl (hsame.trans hsame')
          · exact .inr ⟨a, hsame.trans ha, running⟩
        · exact .inr hstarted

/-- **A job that waits stays on file,** whatever call is made, until it is claimed. -/
theorem waits {s : σ} {c : StoreCall} {i : JobId} {a : ρ} (hnew : c.newId? ≠ some i)
    (ha : entry s i = some a) (pending : status σ a = Status.pending.name) :
    entry (c.run s).2 i = some a ∨
      ∃ b, entry (c.run s).2 i = some b ∧ status σ b = Status.running.name := by
  cases c with
  | enqueue n =>
    show entry (JobStore.enqueue n s).2 i = _ ∨ ∃ b, entry (JobStore.enqueue n s).2 i = _ ∧ _
    obtain ⟨e, hrefused⟩ | ⟨s', hdone, -, hothers⟩ := enqueue_files n s
    · rw [hrefused]
      exact .inl ha
    · rw [hdone]
      exact .inl ((hothers i fun hi => hnew (congrArg some hi.symm)).trans ha)
  | claim k now => exact (claim_starts k now s i).imp_left fun hsame => hsame.trans ha
  | claimDue now limit =>
    have hsame := look_same (c := .dueJobs now limit none) s rfl
    show entry (JobStore.claimDue now limit s).2 i = _ ∨
      ∃ b, entry (JobStore.claimDue now limit s).2 i = _ ∧ _
    rw [JobStore.claimDue_eq]
    revert hsame
    simp only [StoreCall.run, StoreCall.answering]
    cases JobStore.dueJobs now limit none s with
    | mk answer s' =>
      rintro rfl
      cases answer with
      | error e => exact .inl ha
      | ok js => exact (claimEach_starts now _ s' i).imp_left fun hsame => hsame.trans ha
  | complete r d now => exact .inl (complete_waiting r d now ha pending)
  | recoverStale staleBefore now => exact .inl (recoverStale_waiting staleBefore now ha pending)
  | purgeSucceeded olderThan => exact .inl (purgeSucceeded_waiting olderThan ha pending)
  | dueJobs | get | counts | deadLetters =>
    rw [look_same s rfl]
    exact .inl ha

end Filing

/-! ## The store in memory -/

/-- A name is the name of one status. -/
theorem Status.eq_of_name_eq {name : String} {s t : Status} (hs : name = s.name)
    (ht : name = t.name) : s = t :=
  name_inj.mp (hs.symm.trans ht)

instance : Filing Memory Job where
  entry := Memory.entry
  file j := j
  status j := j.status.name
  status_file _ := rfl
  enqueue_files n m := by
    refine .inr ⟨_, rfl, ?_, fun i hi => ?_⟩
    · exact (Keyed.get?_insert m.jobs n.toPending n.id).trans (if_pos rfl)
    · exact (Keyed.get?_insert m.jobs n.toPending i).trans (if_neg (Ne.symm hi))
  look_same {c} m hc := by
    cases c with
    | dueJobs | get | counts | deadLetters => rfl
    | enqueue | claim | claimDue | complete | recoverStale | purgeSucceeded => cases hc
  claim_starts k now m i := by
    obtain hsame | ⟨j, -, -, hstarted⟩ := m.claims_claim k now i
    · exact .inl hsame
    · exact .inr ⟨_, hstarted, rfl⟩
  complete_waiting {m i j} r d now hj pending := by
    have hview := (Memory.soloComplete r d now).view_eq m
    refine (congrArg (·.get? i) hview).trans ?_
    rw [Keyed.get?_update, show m.jobs.get? i = some j from hj, Option.map_some]
    split
    · refine congrArg some (if_neg fun hopen => ?_)
      cases Status.eq_of_name_eq pending (congrArg Status.name hopen.1)
    · rfl
  recoverStale_waiting {m i j} staleBefore now hj pending := by
    refine (Keyed.get?_update m.jobs _ _ (Job.id_interrupt now) i).trans ?_
    rw [show m.jobs.get? i = some j from hj, Option.map_some, if_neg fun hstale => ?_]
    cases Status.eq_of_name_eq pending (congrArg Status.name (Job.status_of_isStale hstale))
  purgeSucceeded_waiting {m i j} olderThan hj pending := by
    refine (Keyed.get?_filter m.jobs _ i).trans ?_
    rw [show m.jobs.get? i = some j from hj, Option.filter_some, if_pos]
    have hnot : ¬ Memory.isPurgeable olderThan j := fun hpurge => by
      cases Status.eq_of_name_eq pending (congrArg Status.name (Job.status_of_isPurgeable hpurge))
    simpa using hnot

/-! ## The table -/

theorem Row.ofNew_eq_ofJob (n : NewJob) : ofNew n = ofJob n.toPending := rfl

namespace Table

variable {t : Table}

/-- What a statement leaves alone, the table keeps. -/
theorem entry_of_rows_update {t' : Table} {p : Row → Bool} {f : Row → Row}
    {hf : ∀ r, (f r).id = r.id} (h : t'.rows = t.rows.update p f hf) {i : JobId} {r : Row}
    (hr : t.entry i = some r) (hp : ¬ p r) : t'.entry i = some r := by
  rw [entry, h, Keyed.get?_update, show t.rows.get? i.storage = some r from hr, Option.map_some,
    if_neg hp]

end Table

instance : Filing Table Row where
  entry := Table.entry
  file := Row.ofJob
  status := Row.status
  status_file _ := rfl
  enqueue_files n t := by
    obtain ⟨e, hrefused⟩ | ⟨t', -, hrows, hdone⟩ := t.enqueue_cases n
    · exact .inl ⟨_, hrefused⟩
    · refine .inr ⟨t', hdone, ?_, fun i hi => ?_⟩
      · rw [Table.entry, hrows, Keyed.get?_insert, if_pos (Row.id_ofNew n), Row.ofNew_eq_ofJob]
      · rw [Table.entry, hrows, Keyed.get?_insert, if_neg fun hid => hi ?_]
        · rfl
        · exact (Id.storage_inj.mp hid).symm
  look_same {c} t hc := by
    cases c with
    | dueJobs | get | counts | deadLetters => rfl
    | enqueue | claim | claimDue | complete | recoverStale | purgeSucceeded => cases hc
  claim_starts k now t i := by
    obtain ⟨-, hsame⟩ | ⟨r, t', -, -, hrows, hclaim⟩ := t.claim_cases k now
    · exact .inl (congrArg (Table.entry · i) hsame)
    · show Table.entry (t.claim k now).2 i = _ ∨ ∃ a, Table.entry (t.claim k now).2 i = _ ∧ _
      rw [hclaim]
      simp only [Table.entry, hrows, Keyed.get?_update]
      cases t.rows.get? i.storage with
      | none => exact .inl rfl
      | some q =>
        by_cases hstart : Table.mayStart k now q
        · exact .inr ⟨q.start now.millis, congrArg some (if_pos hstart), rfl⟩
        · exact .inl (congrArg some (if_neg hstart))
  complete_waiting {t i r} receipt d now hr pending := by
    obtain ⟨e, hrefused⟩ | ⟨_, t', -, -, hrows, -, hdone⟩ := t.complete_cases receipt d now
    · show Table.entry (t.complete receipt d now).2 i = _
      rw [hrefused]
      exact hr
    · show Table.entry (t.complete receipt d now).2 i = _
      rw [hdone]
      refine Table.entry_of_rows_update hrows hr fun hsettle => ?_
      cases Status.eq_of_name_eq pending (Table.maySettle_iff.mp hsettle).2.1
  recoverStale_waiting {t i r} staleBefore now hr pending := by
    show Table.entry (t.recoverStale staleBefore now).2 i = _
    by_cases hfree : ∀ q ∈ t.stale staleBefore, q.attempts < q.maxAttempts
    · obtain ⟨t', hrows, hdone⟩ := Table.recoverStale_granted now hfree
      rw [hdone]
      refine Table.entry_of_rows_update hrows hr fun hstale => ?_
      cases Status.eq_of_name_eq pending (of_decide_eq_true (Bool.and_eq_true_iff.mp hstale).1)
    · rw [Table.recoverStale_refused hfree]
      exact hr
  purgeSucceeded_waiting {t i r} olderThan hr pending := by
    refine (Keyed.get?_filter t.rows _ _).trans ?_
    rw [show t.rows.get? i.storage = some r from hr, Option.filter_some, if_pos]
    have hnot : ¬ Table.isPurgeable olderThan.millis r := fun hpurge => by
      cases Status.eq_of_name_eq pending (of_decide_eq_true (Bool.and_eq_true_iff.mp hpurge).1)
    simpa using hnot

end SyncJobs
