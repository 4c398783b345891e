import SyncJobs.Proofs.IdTexts
import SyncJobs.Proofs.Ledger
import SyncJobs.Store.Table

/-!
# Rows that hold jobs

A row that was written for a job holds what the job holds, down to whole milliseconds. The jobs
with times in whole milliseconds (`Job.IsWhole`) are therefore read back from their rows
(`Row.toJob?_ofJob`), if their payloads are. Tests, steps and orders of rows do on the row of such
a job what those of jobs do on the job.
-/

namespace SyncJobs

/-! ## Whole milliseconds -/

namespace Instant

/-- An instant without the part behind its whole milliseconds. -/
def floor (t : Instant) : Instant where
  nanos := t.millis * 1000000
  lower := by
    have h := t.lower
    rw [millis, Int.fdiv_eq_ediv_of_nonneg _ (by decide)]
    omega
  upper := by
    have h := t.upper
    rw [millis, Int.fdiv_eq_ediv_of_nonneg _ (by decide)]
    omega

theorem nanos_floor (t : Instant) : t.floor.nanos = t.millis * 1000000 := rfl

@[simp] theorem millis_floor (t : Instant) : t.floor.millis = t.millis := by
  rw [millis, nanos_floor, Int.fdiv_eq_ediv_of_nonneg _ (by decide)]
  omega

@[simp] theorem floor_floor (t : Instant) : t.floor.floor = t.floor :=
  ext (by rw [nanos_floor, millis_floor, nanos_floor])

/-- Whole milliseconds are read back as the instant without the rest. -/
theorem ofMillis?_millis (t : Instant) : ofMillis? t.millis = some t.floor :=
  dif_pos ⟨t.floor.lower, t.floor.upper⟩

/-- Instants without the rest are ordered as their whole milliseconds. -/
theorem floor_le_floor {s t : Instant} : s.floor ≤ t.floor ↔ s.millis ≤ t.millis := by
  rw [le_def, nanos_floor, nanos_floor]
  omega

theorem floor_lt_floor {s t : Instant} : s.floor < t.floor ↔ s.millis < t.millis := by
  rw [lt_def, nanos_floor, nanos_floor]
  omega

variable {s t : Instant}

/-- A whole time is compared with another one by their milliseconds. -/
theorem millis_le_millis (h : s.floor = s) : s.millis ≤ t.millis ↔ s ≤ t.floor := by
  rw [← floor_le_floor, h]

theorem millis_lt_millis (h : s.floor = s) : s.millis < t.millis ↔ s < t.floor := by
  rw [← floor_lt_floor, h]

/-- Whole times are equal if their milliseconds are. -/
theorem millis_inj (hs : s.floor = s) (ht : t.floor = t) :
    s.millis = t.millis ↔ s.nanos = t.nanos := by
  rw [← hs, ← ht, nanos_floor, nanos_floor, hs, ht]
  omega

theorem millis_lt_iff (hs : s.floor = s) (ht : t.floor = t) :
    s.millis < t.millis ↔ s.nanos < t.nanos := by
  rw [← hs, ← ht, nanos_floor, nanos_floor, hs, ht]
  omega

end Instant

/-- Statuses are told apart by their names. -/
theorem Status.name_inj {s t : Status} : s.name = t.name ↔ s = t := by
  refine ⟨fun h => ?_, fun h => h ▸ rfl⟩
  have hs := ofName?_name s
  rw [h, ofName?_name] at hs
  exact (Option.some.inj hs).symm

namespace Job

/-- A job without the parts of its times behind whole milliseconds. -/
def floor (j : Job) : Job :=
  { j with
    runAfter := j.runAfter.floor
    createdAt := j.createdAt.floor
    updatedAt := j.updatedAt.floor }

/-- All times of the job are whole milliseconds. -/
def IsWhole (j : Job) : Prop := j.floor = j

theorem IsWhole.runAfter {j : Job} (h : j.IsWhole) : j.runAfter.floor = j.runAfter :=
  congrArg Job.runAfter h

theorem IsWhole.createdAt {j : Job} (h : j.IsWhole) : j.createdAt.floor = j.createdAt :=
  congrArg Job.createdAt h

theorem IsWhole.updatedAt {j : Job} (h : j.IsWhole) : j.updatedAt.floor = j.updatedAt :=
  congrArg Job.updatedAt h

/-- Wholeness is shown time by time. -/
theorem isWhole_of {j : Job} (hr : j.runAfter.floor = j.runAfter)
    (hc : j.createdAt.floor = j.createdAt) (hu : j.updatedAt.floor = j.updatedAt) : j.IsWhole := by
  rw [IsWhole, floor, hr, hc, hu]

/-- New jobs whose times are cut are stored as whole jobs. -/
theorem isWhole_toPending (n : NewJob) : (n.round Instant.floor).toPending.IsWhole :=
  isWhole_of (Instant.floor_floor _) (Instant.floor_floor _) (Instant.floor_floor _)

/-! Steps at whole times keep jobs whole. -/

theorem IsWhole.start {j : Job} (h : j.IsWhole) (now : Instant) : (j.start now.floor).IsWhole :=
  isWhole_of h.runAfter h.createdAt (Instant.floor_floor _)

theorem IsWhole.settle {j : Job} (h : j.IsWhole) (d : Decision) (now : Instant) :
    (j.settle (d.round Instant.floor) now.floor).IsWhole := by
  refine isWhole_of ?_ h.createdAt (Instant.floor_floor _)
  cases d with
  | retry t e => exact Instant.floor_floor t
  | succeed n => exact h.runAfter
  | deadLetter e => exact h.runAfter

theorem IsWhole.interrupt {j : Job} (h : j.IsWhole) (now : Instant) :
    (j.interrupt now.floor).IsWhole := by
  refine isWhole_of ?_ h.createdAt (Instant.floor_floor _)
  rw [Job.interrupt]
  split
  · exact h.runAfter
  · exact Instant.floor_floor _

end Job

/-! ## Rows of jobs -/

/-- What a table makes of a payload: it is written as a text, and read from it. -/
def Payload.reread (p : Payload) : Except StoreError Payload := Row.readPayload p.value.compact

namespace Row

theorem ofNew_eq (n : NewJob) : ofNew n = ofJob (n.round Instant.floor).toPending := by
  simp [ofNew, ofJob, NewJob.toPending, NewJob.round]

theorem readCount_toNat (row column : String) (n : UInt32) :
    readCount row column n.toNat = .ok n := by
  have hlt := n.toNat_lt
  rw [readCount, if_pos ⟨by omega, by omega⟩, Int.toNat_natCast, UInt32.ofNat_toNat]

theorem readTime_millis (row column : String) {t : Instant} (h : t.floor = t) :
    readTime row column t.millis = .ok t := by
  rw [readTime, Instant.ofMillis?_millis, h]

/-- **Jobs are read back from their rows,** if their payloads are. -/
theorem toJob?_ofJob {j : Job} (h : j.IsWhole) :
    (ofJob j).toJob? = j.readWith Payload.reread := by
  simp only [toJob?, ofJob, readId, Id.parse_storage, readName, Domain.ofName?_name,
    Status.ofName?_name, readCount_toNat, readTime_millis _ _ h.runAfter,
    readTime_millis _ _ h.createdAt, readTime_millis _ _ h.updatedAt, Job.readWith, Payload.reread]
  cases readPayload j.payload.value.compact <;> rfl

/-- The job that is read from the row of a job has its id and its account. -/
theorem spells_ofJob {j k : Job} (hk : k.IsWhole) (h : (ofJob k).toJob? = .ok j) :
    (ofJob k).id = j.id.storage ∧ (ofJob k).account = j.account.storage := by
  rw [toJob?_ofJob hk] at h
  obtain ⟨p, -, rfl⟩ := Job.readWith_eq_ok.mp h
  exact ⟨rfl, rfl⟩

/-- A sound job keeps the rules of the table. -/
theorem rule?_ofJob {j : Job} (h : j.standing.Sound) : (ofJob j).rule? = none := by
  have hwithin := h.within
  have hopen := h.open_
  have hsucceeded := h.succeeded
  have hdead := h.deadLetter
  simp only [Job.standing] at hwithin hopen hsucceeded hdead
  -- whatever its status, a sound job has had an attempt or has one left
  have hmax : (1 : Int) ≤ j.maxAttempts.toNat := by
    cases hs : j.status with
    | pending => have := (hopen (.inl hs)).1; omega
    | running => have := (hopen (.inr hs)).1; omega
    | succeeded => have := (hsucceeded hs).1; omega
    | deadLetter => have := (hdead hs).1; omega
  have hkeeps : ∀ rule, (ofJob j).keeps rule = true := by
    intro rule
    cases rule with
    | domain => exact List.any_eq_true.mpr ⟨_, Domain.mem_all j.domain, decide_eq_true rfl⟩
    | status => exact List.any_eq_true.mpr ⟨_, Status.mem_all j.status, decide_eq_true rfl⟩
    | attempts => exact decide_eq_true (Int.natCast_nonneg j.attempts.toNat)
    | maxAttempts => exact decide_eq_true hmax
    | ceiling => exact decide_eq_true hwithin
  refine List.find?_eq_none.mpr fun rule _ => ?_
  simp [hkeeps rule]

/-! ## Tests -/

theorem id_ofJob (j : Job) : (ofJob j).id = j.id.storage := rfl

theorem account_ofJob (j : Job) : (ofJob j).account = j.account.storage := rfl

theorem id_ofNew (n : NewJob) : (ofNew n).id = n.id.storage := rfl

theorem isDue_ofJob {j : Job} (h : j.IsWhole) (now : Instant) :
    Table.isDue now.millis (ofJob j) = j.isDue now.floor := by
  simp only [Table.isDue, Job.isDue, ofJob, Status.name_inj, Instant.millis_le_millis h.runAfter]

theorem isStale_ofJob {j : Job} (h : j.IsWhole) (staleBefore : Instant) :
    Table.isStale staleBefore.millis (ofJob j) = Memory.isStale staleBefore.floor j := by
  simp only [Table.isStale, Memory.isStale, ofJob, Status.name_inj,
    Instant.millis_le_millis h.updatedAt]

theorem isPurgeable_ofJob {j : Job} (h : j.IsWhole) (olderThan : Instant) :
    Table.isPurgeable olderThan.millis (ofJob j) = Memory.isPurgeable olderThan.floor j := by
  simp only [Table.isPurgeable, Memory.isPurgeable, ofJob, Status.name_inj,
    Instant.millis_lt_millis h.updatedAt]

/-! ## Steps -/

theorem start_ofJob (j : Job) (now : Instant) :
    (ofJob j).start now.millis = ofJob (j.start now.floor) := by
  simp [start, ofJob, Job.start]

theorem settle_ofJob {j : Job} (h : j.attempts.toNat < j.maxAttempts.toNat) (d : Decision)
    (now : Instant) :
    (ofJob j).settle d now.millis = ofJob (j.settle (d.round Instant.floor) now.floor) := by
  have hnext := Job.toNat_nextAttempt_of_lt h
  cases d <;> simp [settle, ofJob, Job.settle, Decision.round, Decision.nextStatus,
    Decision.runAfter?, Decision.error?, hnext]

theorem interrupt_ofJob {j : Job} (h : j.attempts.toNat < j.maxAttempts.toNat) (now : Instant) :
    (ofJob j).interrupt now.millis = ofJob (j.interrupt now.floor) := by
  have hnext := Job.toNat_nextAttempt_of_lt h
  have hexhausted : (j.maxAttempts.toNat : Int) ≤ j.attempts.toNat + 1 ↔
      j.maxAttempts ≤ nextAttempt j.attempts := by
    rw [UInt32.le_iff_toNat_le, hnext]
    omega
  by_cases hx : j.maxAttempts ≤ nextAttempt j.attempts <;>
    simp [interrupt, ofJob, Job.interrupt, hexhausted, hx, hnext]

/-! ## Orders -/

theorem precedes_ofJob {a b : Job} (ha : a.IsWhole) (hb : b.IsWhole) :
    (ofJob a).precedes (ofJob b) = a.precedes b := by
  simp only [precedes, Job.precedes, ofJob, Id.storage_le_storage, ne_eq,
    Instant.millis_inj ha.runAfter hb.runAfter, Instant.millis_lt_iff ha.runAfter hb.runAfter,
    Instant.millis_inj ha.createdAt hb.createdAt, Instant.millis_lt_iff ha.createdAt hb.createdAt]

theorem newerFirst_ofJob {a b : Job} (ha : a.IsWhole) (hb : b.IsWhole) :
    (ofJob a).newerFirst (ofJob b) = a.newerFirst b := by
  simp only [newerFirst, Job.newerFirst, ofJob, Id.storage_le_storage, ne_eq,
    Instant.millis_inj ha.updatedAt hb.updatedAt, Instant.millis_lt_iff hb.updatedAt ha.updatedAt]

end Row

end SyncJobs
