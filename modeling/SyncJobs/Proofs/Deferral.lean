import SyncJobs.Proofs.Dispenser
import SyncJobs.Proofs.Snapshots

/-!
# A retry is always later

A delay is at least a millisecond and at least the backoff (`Backoff.le_delayWith?`): jitter only
adds to it, and what is too long for a duration is cut off at the longest. A retry is therefore put
off by a millisecond at least, unless time ends before (`Job.le_of_retry`).

One millisecond is what it takes. The table cuts off the part of a time behind whole milliseconds,
both when it writes down the retry and when it looks for due rows; a time a millisecond later is
later still when its own part is cut off (`Instant.lt_floor`). So in both stores the job waits
(`Waits`) when its completion is answered.
-/

namespace SyncJobs

/-! ## Delays -/

theorem Duration.nanos_max (d e : Duration) : (d.max e).nanos = Max.max d.nanos e.nanos := by
  unfold max
  split
  · rename_i hle
    exact (Nat.max_eq_right hle).symm
  · rename_i hle
    exact (Nat.max_eq_left (Nat.le_of_not_le hle)).symm

/-- **A delay is at least a millisecond,** and at least the backoff. -/
theorem Backoff.le_delayWith? {b : Backoff} {n : UInt32} {sample : Binary64} {d : Duration}
    (h : b.delayWith? n sample = some d) : max 1000000 (b.delay n).nanos ≤ d.nanos := by
  obtain ⟨jitter, -, rfl⟩ := Option.map_eq_some_iff.mp h
  have hsum : ((b.delay n).add jitter).nanos =
      min ((b.delay n).nanos + jitter.nanos) 18446744073709551615999999999 :=
    Duration.nanos_add (b.delay n) jitter
  have hlongest := (b.delay n).fits
  have hshortest : shortest.nanos = 1000000 := rfl
  rw [Duration.nanos_max, hsum, hshortest]
  omega

/-- A time that is a millisecond later is later when its part behind whole milliseconds is cut off. -/
theorem Instant.lt_floor {s t : Instant} (h : s.nanos + 1000000 ≤ t.nanos) : s < t.floor := by
  rw [lt_def, nanos_floor, millis, Int.fdiv_eq_ediv_of_nonneg _ (by decide)]
  omega

/-! ## Decisions -/

namespace Job

variable {j : Job} {policy : Backoff} {outcome : Outcome} {now t : Instant} {sample : Binary64}
  {e : String}

/-- Attempts that are left are counted without regard to the largest number of 32 bits. -/
theorem mayRetry_iff : j.mayRetry ↔ j.attempts.toNat + 1 < j.maxAttempts.toNat := by
  have hmax := j.maxAttempts.toNat_lt
  rw [mayRetry, decide_eq_true_eq, UInt32.lt_iff_toNat_lt, toNat_nextAttempt]
  omega

/-- **A retry** is decided on a transient failure that leaves attempts, with the delay added. -/
theorem decide?_eq_retry (h : j.decide? policy outcome now sample = some (.retry t e)) :
    outcome = .transient e ∧ j.mayRetry ∧
      ∃ delay, policy.delayWith? (nextAttempt j.attempts) sample = some delay ∧
        t = now.add delay := by
  cases outcome with
  | success n => cases h
  | permanent e => cases h
  | transient e' =>
    rw [decide?] at h
    split at h
    · rename_i hretry
      obtain ⟨delay, hdelay, hd⟩ := Option.map_eq_some_iff.mp h
      obtain ⟨rfl, rfl⟩ := Decision.retry.inj hd
      exact ⟨rfl, hretry, delay, hdelay, rfl⟩
    · cases h

/-- A decision is a retry exactly on a transient failure that leaves attempts. -/
theorem retries_of_decide? {d : Decision} (h : j.decide? policy outcome now sample = some d) :
    (∃ t e, d = .retry t e) ↔ (∃ e, outcome = .transient e) ∧ j.mayRetry := by
  constructor
  · rintro ⟨t, e, rfl⟩
    obtain ⟨hout, hretry, -⟩ := decide?_eq_retry h
    exact ⟨⟨e, hout⟩, hretry⟩
  · rintro ⟨⟨e, rfl⟩, hretry⟩
    rw [decide?, if_pos hretry] at h
    obtain ⟨delay, -, rfl⟩ := Option.map_eq_some_iff.mp h
    exact ⟨_, _, rfl⟩

/-- **A retry is put off** by the backoff and by a millisecond, unless time ends before. -/
theorem le_of_retry (h : j.decide? policy outcome now sample = some (.retry t e)) :
    min Instant.latest.nanos
      (now.nanos + max 1000000 (policy.delay (nextAttempt j.attempts)).nanos) ≤ t.nanos := by
  obtain ⟨-, -, delay, hdelay, rfl⟩ := decide?_eq_retry h
  have hle := Backoff.le_delayWith? hdelay
  rw [Instant.nanos_add]
  omega

end Job

/-! ## Stores -/

section Stores

variable {σ : Type} [Dispenser σ]

/-- **A job waits** beyond a time, in the store that shows it and to all who ask then. -/
structure Waits (s : σ) (i : JobId) (k : Job) (now : Instant) : Prop where
  shown : JobStore.peek s i = .ok (some k)
  pending : k.status = .pending
  later : now < k.runAfter
  not_due : k.isDue now = false
  /-- a claim hands nothing out -/
  unclaimed : JobStore.claim i now s = (.ok none, s)
  /-- a store in good order does not list it -/
  unlisted : Dispenser.IsOrderly s → ∀ limit cap js,
    (JobStore.dueJobs now limit cap s).1 = .ok js → ∀ j ∈ js, j.id ≠ i

/-- A job that is shown and due later waits. -/
theorem waits_of_shown {s : σ} {i : JobId} {k : Job} {now : Instant}
    (hshown : JobStore.peek s i = .ok (some k)) (hpending : k.status = .pending)
    (hlater : now < k.runAfter) : Waits s i k now := by
  have hnot : k.isDue now = false := by
    have hlate : ¬ k.runAfter ≤ now := Int.not_le.mpr hlater
    rw [Job.isDue, decide_eq_false hlate, Bool.and_false]
  refine ⟨hshown, hpending, hlater, hnot, Dispenser.claim_not_due hshown (by simp [hnot]),
    fun horderly limit cap js hjs j hj hid => ?_⟩
  obtain ⟨hstored, hdue⟩ := (Dispenser.line_dueJobs horderly hjs).stored j hj
  rw [hid, hshown] at hstored
  obtain rfl := Option.some.inj (Except.ok.inj hstored)
  rw [hnot] at hdue
  cases hdue

/-- **A completion puts a job off:** it succeeds if the attempt is under way, and the job that it
answers waits, due later than before. -/
structure PutsOff (s : σ) (j : Job) (d : Decision) (now : Instant) : Prop where
  succeeds : JobStore.peek s j.id = .ok (some j) → j.status = .running →
    ∃ k, (JobStore.complete j.receipt d now s).1 = .ok k
  waits : ∀ k, (JobStore.complete j.receipt d now s).1 = .ok k →
    j.runAfter < k.runAfter ∧ Waits (JobStore.complete j.receipt d now s).2 j.id k now

end Stores

/-- A retry that is a millisecond later puts the job off, in memory as well as in the table. -/
theorem Memory.putsOff (m : Memory) {j : Job} {t now : Instant} (e : String)
    (hrun : j.runAfter ≤ now) (hlater : now.nanos + 1000000 ≤ t.nanos) :
    PutsOff m j (.retry t e) now where
  succeeds hshown running := by
    have hj : m.jobs.get? j.id = some j := Except.ok.inj hshown
    obtain ⟨hnone, -⟩ | ⟨k, -, hok, -⟩ := m.complete_eq j.receipt (.retry t e) now
    · have hsome : m.underway j.receipt = some j :=
        Memory.underway_eq_some_iff.mpr ⟨hj, running, rfl⟩
      rw [hnone] at hsome
      cases hsome
    · exact ⟨_, hok⟩
  waits k hk := by
    have hanswer : (m.complete j.receipt (.retry t e) now).1 = .ok k := hk
    obtain ⟨-, e', hrefused⟩ | ⟨k', -, hok, hsettled⟩ := m.complete_eq j.receipt (.retry t e) now
    · rw [hrefused] at hanswer
      cases hanswer
    · obtain rfl := Except.ok.inj (hanswer.symm.trans hok)
      have hnow : now < t := by
        rw [Instant.lt_def]
        omega
      exact ⟨Int.lt_of_le_of_lt hrun hnow, waits_of_shown (congrArg Except.ok hsettled) rfl hnow⟩

namespace Table

theorem putsOff (t : Table) {j : Job} {later now : Instant} (e : String)
    (hretry : j.mayRetry) (hrun : j.runAfter ≤ now) (hlater : now.nanos + 1000000 ≤ later.nanos) :
    PutsOff t j (.retry later e) now where
  succeeds hshown running := by
    obtain ⟨r, hr, hreads⟩ := peek_eq_ok_iff.mp hshown
    have hbelow : r.attempts < r.maxAttempts := by
      have hbelow := Job.mayRetry_iff.mp hretry
      rw [hreads.attempts_eq, hreads.maxAttempts_eq]
      omega
    have hunderway : isUnderway j.receipt r := by
      rw [isUnderway, hreads.status_eq, hreads.attempts_eq, running]
      simp [Job.receipt]
    have hrule : (r.settle (.retry later e) now.millis).rule? = none := by
      rw [Row.rule?_settle (t.kept r (Keyed.get?_eq_some_iff.mp hr).1), if_pos hbelow]
    have hsettled := hreads.settle (.retry later e) now hbelow
    have hfound : t.rows.get? j.receipt.job.storage = some r := hr
    have hanswer := (t.complete_statement j.receipt (.retry later e) now).1
    rw [hfound, statementAnswer, Option.filter_some, if_pos hunderway] at hanswer
    simp only [hrule] at hanswer
    exact ⟨_, hanswer.trans (Row.toJob?_eq_ok_iff.mpr hsettled)⟩
  waits k hk := by
    have hanswer : (t.complete j.receipt (.retry later e) now).1 = .ok k := hk
    show _ ∧ Waits (t.complete j.receipt (.retry later e) now).2 j.id k now
    obtain ⟨r, -, -, hreads, hget⟩ := complete_eq_ok hanswer
    have hpending : Status.pending.name = k.status.name := hreads.status_eq
    have hrunAfter : k.runAfter = later.floor :=
      Except.ok.inj (hreads.runAfter.symm.trans (Row.readTime_floor _ _ later))
    have hnow : now < k.runAfter := by
      rw [hrunAfter]
      exact Instant.lt_floor hlater
    exact ⟨Int.lt_of_le_of_lt hrun hnow, waits_of_shown (peek_eq_ok_iff.mpr ⟨_, hget, hreads⟩)
      (Status.name_inj.mp hpending).symm hnow⟩

end Table

/-! ## Retries -/

/-- **A job is put off** until a time, after an attempt that ended now. -/
structure Job.IsPutOff (j : Job) (policy : Backoff) (now t : Instant) (e : String) : Prop where
  /-- by the backoff and by a millisecond, unless time ends before -/
  delayed : min Instant.latest.nanos
    (now.nanos + max 1000000 (policy.delay (nextAttempt j.attempts)).nanos) ≤ t.nanos
  later : j.runAfter < t
  inMemory : ∀ s : Memory, PutsOff s j (.retry t e) now
  inTable : ∀ s : Table, PutsOff s j (.retry t e) now

/-- The plain job with three attempts, at its first one. -/
def Job.firstOfThree : Job :=
  (NewJob.toPending { NewJob.plain with maxAttempts := 3 }).start .epoch

/-- No backoff at all. -/
def Backoff.atOnce : Backoff := .ofDelays .zero .zero

/-- A millisecond before the end of time. -/
def Instant.almostLatest : Instant := ⟨8210266876799998999999, by decide, by decide⟩

end SyncJobs
