import SyncJobs.Proofs.Listing
import SyncJobs.Proofs.Summaries

/-!
# Stores in any state

A store may be in a state to which no calls of ours have led: a table may hold rows that somebody
else has written, and some of them cannot be read. `Custodian` says what calls do to the jobs that
such a store shows. They start, settle and interrupt them, under the same conditions as ever, and
do nothing else.

A row that can be read can be read after each of these steps (`Row.Reads.start`, `Row.Reads.settle`,
`Row.Reads.interrupt`), because the rules of the table keep its counts within bounds.
-/

namespace SyncJobs

/-! ## Custodians -/

/-- **A store that looks after the jobs that it shows,** whatever state it is in. -/
class Custodian (σ : Type) extends JobStore σ where
  /-- a look at the due jobs changes nothing -/
  dueJobs_same (now : Instant) (limit : Nat) (cap : Option Nat) (s : σ) :
    (JobStore.dueJobs now limit cap s).2 = s
  /-- a claim starts jobs that wait -/
  claim_shown {s : σ} {i : JobId} {j : Job} (k : JobId) (now : Instant) :
    JobStore.peek s i = .ok (some j) →
      JobStore.peek (JobStore.claim k now s).2 i = .ok (some j) ∨
        j.status = .pending ∧
          ∃ t, JobStore.peek (JobStore.claim k now s).2 i = .ok (some (j.start t))
  /-- what a claim hands out runs, and has waited with as many attempts if it was shown -/
  claimed {s : σ} {i : JobId} {now : Instant} {k : Job} :
    (JobStore.claim i now s).1 = .ok (some k) →
      k.id = i ∧ k.status = .running ∧ JobStore.peek (JobStore.claim i now s).2 i = .ok (some k) ∧
        ∀ j, JobStore.peek s i = .ok (some j) → j.status = .pending ∧ j.attempts = k.attempts
  /-- a completion leaves other jobs alone -/
  complete_others {s : σ} {i : JobId} (r : Receipt) (d : Decision) (now : Instant) :
    i ≠ r.job → JobStore.peek (JobStore.complete r d now s).2 i = JobStore.peek s i
  /-- it settles the attempt of its receipt, or fails and changes nothing -/
  complete_shown {s : σ} {j : Job} (r : Receipt) (d : Decision) (now : Instant) :
    JobStore.peek s r.job = .ok (some j) →
      (∃ e, JobStore.complete r d now s = (.error e, s)) ∨
        (∃ k, (JobStore.complete r d now s).1 = .ok k) ∧
          j.status = .running ∧ j.attempts = r.attempts ∧ ∃ d' t, d'.nextStatus = d.nextStatus ∧
            JobStore.peek (JobStore.complete r d now s).2 r.job = .ok (some (j.settle d' t))
  /-- a recovery interrupts jobs that run -/
  recoverStale_shown {s : σ} {i : JobId} {j : Job} (staleBefore now : Instant) :
    JobStore.peek s i = .ok (some j) →
      JobStore.peek (JobStore.recoverStale staleBefore now s).2 i = .ok (some j) ∨
        j.status = .running ∧ ∃ t,
          JobStore.peek (JobStore.recoverStale staleBefore now s).2 i = .ok (some (j.interrupt t))

/-! ## The store in memory -/

instance : Custodian Memory where
  dueJobs_same _ _ _ _ := rfl
  claim_shown {m i j} k now h := by
    have hj : m.jobs.get? i = some j := Except.ok.inj h
    obtain hsame | ⟨j', hj', hdue, hstarted⟩ := m.claims_claim k now i
    · exact .inl (congrArg Except.ok (hsame.trans hj))
    · obtain rfl := Option.some.inj (hj.symm.trans hj')
      exact .inr ⟨Job.status_of_isDue hdue, now, congrArg Except.ok hstarted⟩
  claimed {m i now k} h := by
    have hanswer : (m.claim i now).1 = some k := Except.ok.inj h
    rw [Memory.claim_eq, Option.map_eq_some_iff] at hanswer
    obtain ⟨j, hdue, rfl⟩ := hanswer
    have hstate : (m.claim i now).2 = m.modify i (Job.start now) (Job.id_start now) := by
      rw [Memory.claim_eq, hdue]
      rfl
    obtain ⟨hj, hdue⟩ := Option.filter_eq_some_iff.mp hdue
    have hid : j.id = i := Memory.id_of_get? hj
    refine ⟨hid, rfl, ?_, fun j' hj' => ?_⟩
    · show Except.ok ((m.claim i now).2.jobs.get? i) = _
      rw [hstate, Memory.get?_modify, if_pos rfl, hj]
      rfl
    · obtain rfl := Option.some.inj (hj.symm.trans (Except.ok.inj hj'))
      exact ⟨Job.status_of_isDue hdue, rfl⟩
  complete_others {m i} r d now hi := by
    refine congrArg Except.ok ?_
    show (m.complete r d now).2.jobs.get? i = _
    cases hanswer : (m.complete r d now).1 with
    | error e => rw [m.complete_state_of_error hanswer]
    | ok k =>
      obtain ⟨j, hj, running, current, -⟩ := Memory.complete_eq_ok hanswer
      simp only [Memory.complete, hj, running, current, ne_eq, not_true_eq_false, if_false]
      rw [Memory.get?_modify, if_neg hi]
  complete_shown {m j} r d now h := by
    have hj : m.jobs.get? r.job = some j := Except.ok.inj h
    obtain ⟨-, hrefused⟩ | ⟨k, hk, hok, hsettled⟩ := m.complete_eq r d now
    · exact .inl hrefused
    · obtain ⟨hk, running, current⟩ := Memory.underway_eq_some_iff.mp hk
      obtain rfl := Option.some.inj (hj.symm.trans hk)
      exact .inr ⟨⟨_, hok⟩, running, current, d, now, rfl, congrArg Except.ok hsettled⟩
  recoverStale_shown {m i j} staleBefore now h := by
    have hj : m.jobs.get? i = some j := Except.ok.inj h
    have hget := Keyed.get?_update m.jobs (Memory.isStale staleBefore) (Job.interrupt now)
      (Job.id_interrupt now) i
    rw [hj, Option.map_some] at hget
    by_cases hstale : Memory.isStale staleBefore j
    · rw [if_pos hstale] at hget
      exact .inr ⟨Job.status_of_isStale hstale, now, congrArg Except.ok hget⟩
    · rw [if_neg hstale] at hget
      exact .inl (congrArg Except.ok hget)

/-! ## Rows that can be read -/

namespace Row

/-- **A row is read as a job,** column by column. -/
structure Reads (r : Row) (j : Job) : Prop where
  id : readId r.id r.id = .ok j.id
  account : readId r.id r.account = .ok j.account
  domain : readName r.id .domain Domain.ofName? r.domain = .ok j.domain
  status : readName r.id .status Status.ofName? r.status = .ok j.status
  payload : readPayload r.payload = .ok j.payload
  attempts : readCount r.id "attempt_count" r.attempts = .ok j.attempts
  maxAttempts : readCount r.id "max_attempts" r.maxAttempts = .ok j.maxAttempts
  runAfter : readTime r.id "run_after" r.runAfter = .ok j.runAfter
  lastError : r.lastError = j.lastError
  createdAt : readTime r.id "created_at" r.createdAt = .ok j.createdAt
  updatedAt : readTime r.id "updated_at" r.updatedAt = .ok j.updatedAt

theorem toJob?_eq_ok_iff {r : Row} {j : Job} : r.toJob? = .ok j ↔ r.Reads j := by
  constructor
  · intro h
    rw [toJob?] at h
    obtain ⟨_, hid, h⟩ := exists_of_bind_eq_ok h
    obtain ⟨_, haccount, h⟩ := exists_of_bind_eq_ok h
    obtain ⟨_, hdomain, h⟩ := exists_of_bind_eq_ok h
    obtain ⟨_, hstatus, h⟩ := exists_of_bind_eq_ok h
    obtain ⟨_, hpayload, h⟩ := exists_of_bind_eq_ok h
    obtain ⟨_, hattempts, h⟩ := exists_of_bind_eq_ok h
    obtain ⟨_, hmaxAttempts, h⟩ := exists_of_bind_eq_ok h
    obtain ⟨_, hrunAfter, h⟩ := exists_of_bind_eq_ok h
    obtain ⟨_, hcreatedAt, h⟩ := exists_of_bind_eq_ok h
    obtain ⟨_, hupdatedAt, h⟩ := exists_of_bind_eq_ok h
    obtain rfl := Except.ok.inj h
    exact ⟨hid, haccount, hdomain, hstatus, hpayload, hattempts, hmaxAttempts, hrunAfter, rfl,
      hcreatedAt, hupdatedAt⟩
  · intro h
    rw [toJob?, h.id, h.account, h.domain, h.status, h.payload, h.attempts, h.maxAttempts,
      h.runAfter, h.createdAt, h.updatedAt, h.lastError]
    rfl

variable {r : Row} {j : Job}

theorem readName_status (row : String) (s : Status) :
    readName row .status Status.ofName? s.name = .ok s := by
  rw [readName, Status.ofName?_name]

theorem readTime_floor (row column : String) (t : Instant) :
    readTime row column t.millis = .ok t.floor := by
  rw [readTime, Instant.ofMillis?_millis]

/-- A count that is read is the number of the column. -/
theorem toNat_of_readCount {row column : String} {n : Int} {c : UInt32}
    (h : readCount row column n = .ok c) : n = c.toNat := by
  rw [readCount] at h
  split at h
  · rename_i hn
    obtain rfl := Except.ok.inj h
    have hlt : n.toNat < 2 ^ 32 := by omega
    rw [UInt32.toNat_ofNat_of_lt' hlt]
    omega
  · cases h

namespace Reads

theorem status_eq (h : r.Reads j) : r.status = j.status.name := by
  have hname := List.find?_some (ofName?_of_readName h.status)
  exact (of_decide_eq_true hname).symm

theorem attempts_eq (h : r.Reads j) : r.attempts = j.attempts.toNat := toNat_of_readCount h.attempts

theorem maxAttempts_eq (h : r.Reads j) : r.maxAttempts = j.maxAttempts.toNat :=
  toNat_of_readCount h.maxAttempts

/-- The next attempt can be read if it is within the ceiling. -/
theorem readCount_next (h : r.Reads j) (hceiling : r.attempts + 1 ≤ r.maxAttempts) :
    readCount r.id "attempt_count" (r.attempts + 1) = .ok (nextAttempt j.attempts) := by
  have hmax := j.maxAttempts.toNat_lt
  rw [h.attempts_eq, h.maxAttempts_eq] at hceiling
  have hnext : (nextAttempt j.attempts).toNat = j.attempts.toNat + 1 := by
    rw [toNat_nextAttempt]
    omega
  have hsame : r.attempts + 1 = ((nextAttempt j.attempts).toNat : Int) := by
    rw [h.attempts_eq, hnext]
    rfl
  rw [hsame]
  exact readCount_toNat _ _ _

/-- A row that is claimed. -/
theorem start (h : r.Reads j) (now : Instant) : (r.start now.millis).Reads (j.start now.floor) :=
  { h with
    status := readName_status r.id .running
    updatedAt := readTime_floor r.id _ now }

/-- A row that is settled within its ceiling. -/
theorem settle (h : r.Reads j) (d : Decision) (now : Instant)
    (hceiling : r.attempts + 1 ≤ r.maxAttempts) :
    (r.settle d now.millis).Reads (j.settle (d.round Instant.floor) now.floor) where
  id := h.id
  account := h.account
  domain := h.domain
  status := by
    rw [Job.settle, Decision.nextStatus_round]
    exact readName_status r.id d.nextStatus
  payload := h.payload
  attempts := h.readCount_next hceiling
  maxAttempts := h.maxAttempts
  runAfter := by
    cases d with
    | retry t e => exact readTime_floor r.id _ t
    | succeed | deadLetter => exact h.runAfter
  lastError := (Decision.error?_round Instant.floor d).symm
  createdAt := h.createdAt
  updatedAt := readTime_floor r.id _ now

/-- A row that is interrupted within its ceiling. -/
theorem interrupt (h : r.Reads j) (now : Instant) (hceiling : r.attempts + 1 ≤ r.maxAttempts) :
    (r.interrupt now.millis).Reads (j.interrupt now.floor) := by
  have hmax := j.maxAttempts.toNat_lt
  have hattempts := h.attempts_eq
  have hmaxAttempts := h.maxAttempts_eq
  have hexhausted : (r.maxAttempts ≤ r.attempts + 1) ↔ j.maxAttempts ≤ nextAttempt j.attempts := by
    rw [UInt32.le_iff_toNat_le, toNat_nextAttempt]
    omega
  refine ⟨h.id, h.account, h.domain, ?_, h.payload, h.readCount_next hceiling, h.maxAttempts, ?_,
    rfl, h.createdAt, readTime_floor r.id _ now⟩
  · by_cases hlast : j.maxAttempts ≤ nextAttempt j.attempts
    · simp only [Row.interrupt, Job.interrupt, hexhausted, hlast, decide_true, if_true]
      exact readName_status r.id .deadLetter
    · simp only [Row.interrupt, Job.interrupt, hexhausted, hlast, decide_false, Bool.false_eq_true,
        if_false]
      exact readName_status r.id .pending
  · by_cases hlast : j.maxAttempts ≤ nextAttempt j.attempts
    · simp only [Row.interrupt, Job.interrupt, hexhausted, hlast, decide_true, if_true]
      exact h.runAfter
    · simp only [Row.interrupt, Job.interrupt, hexhausted, hlast, decide_false, Bool.false_eq_true,
        if_false]
      exact readTime_floor r.id _ now

end Reads

/-- A row that keeps the rules is within its ceiling. -/
theorem ceiling_of_rule? (h : r.rule? = none) : r.attempts ≤ r.maxAttempts := by
  have hkept := List.find?_eq_none.mp h .ceiling (by simp [rules])
  simpa [keeps] using hkept

end Row

/-! ## The table -/

namespace Table

variable {t : Table}

/-- A statement is refused, or changes the rows that it chooses. -/
theorem update_cases (p : Row → Bool) (f : Row → Row) (hf : ∀ r, (f r).id = r.id) (t : Table) :
    (∃ e, t.update p f hf = .error e) ∨ ∃ t', t.update p f hf = .ok t' ∧
      t'.rows = t.rows.update p f hf ∧ ∀ r ∈ t.rows.toList, p r → (f r).rule? = none := by
  rw [update]
  split
  · exact .inl ⟨_, rfl⟩
  · rename_i hkept
    refine .inr ⟨_, rfl, rfl, fun r hr hp => ?_⟩
    exact List.findSome?_eq_none_iff.mp hkept _ (List.mem_map_of_mem (List.mem_filter.mpr ⟨hr, hp⟩))

/-- What the table shows is read off a row. -/
theorem peek_eq_ok_iff {i : JobId} {j : Job} : JobStore.peek t i = .ok (some j) ↔
    ∃ r, t.rows.get? i.storage = some r ∧ r.Reads j := by
  show t.get i = _ ↔ _
  rw [get]
  cases hr : t.rows.get? i.storage with
  | none =>
    constructor
    · intro h
      cases h
    · rintro ⟨r, hr', -⟩
      cases hr'
  | some r =>
    simp only [Option.some.injEq, exists_eq_left', ← Row.toJob?_eq_ok_iff]
    cases r.toJob? with
    | error e => constructor <;> intro h <;> cases h
    | ok k =>
      simp only [Except.map, Except.ok.injEq, Option.some.injEq]

/-- **After a statement,** a job that was shown is shown as before, or its row was chosen. -/
theorem peek_of_update {t' : Table} {p : Row → Bool} {f : Row → Row} {hf : ∀ r, (f r).id = r.id}
    (h : t'.rows = t.rows.update p f hf) {i : JobId} {j : Job}
    (hj : JobStore.peek t i = .ok (some j)) : JobStore.peek t' i = .ok (some j) ∨
      ∃ r, t.rows.get? i.storage = some r ∧ r.Reads j ∧ p r ∧
        t'.rows.get? i.storage = some (f r) := by
  obtain ⟨r, hr, hreads⟩ := peek_eq_ok_iff.mp hj
  have hget : t'.rows.get? i.storage = some (if p r then f r else r) := by
    rw [h, Keyed.get?_update, hr, Option.map_some]
  by_cases hp : p r
  · rw [if_pos hp] at hget
    exact .inr ⟨r, hr, hreads, hp, hget⟩
  · rw [if_neg hp] at hget
    exact .inl (peek_eq_ok_iff.mpr ⟨r, hget, hreads⟩)

/-- The rows that a claim may start. -/
def mayStart (i : JobId) (now : Instant) (r : Row) : Bool :=
  r.id = i.storage && isDue now.millis r

theorem mayStart_iff {i : JobId} {now : Instant} {r : Row} : mayStart i now r ↔
    r.id = i.storage ∧ r.status = Status.pending.name ∧ r.runAfter ≤ now.millis := by
  simp only [mayStart, isDue, Bool.and_eq_true, decide_eq_true_eq]

/-- A claim changes nothing and hands nothing out, or starts the row with the id. -/
theorem claim_cases (i : JobId) (now : Instant) (t : Table) :
    ((∀ k, (t.claim i now).1 ≠ .ok (some k)) ∧ (t.claim i now).2 = t) ∨
      ∃ r t', t.rows.get? i.storage = some r ∧ mayStart i now r ∧
        t'.rows = t.rows.update (mayStart i now) (Row.start now.millis) (Row.id_start now.millis) ∧
        t.claim i now = ((r.start now.millis).toJob?.map some, t') := by
  cases hfind : t.rows.toList.find? (mayStart i now) with
  | none =>
    have hclaim : t.claim i now = (.ok none, t) := by
      unfold mayStart at hfind
      simp only [claim, hfind]
    rw [hclaim]
    refine .inl ⟨fun k hk => ?_, rfl⟩
    cases hk
  | some r =>
    have hmem := List.mem_of_find?_eq_some hfind
    have hchosen := List.find?_some hfind
    have hid : r.id = i.storage := (mayStart_iff.mp hchosen).1
    obtain ⟨e, hupdate⟩ | ⟨t', hupdate, hrows, -⟩ := t.update_cases (mayStart i now)
      (Row.start now.millis) (Row.id_start now.millis)
    · have hclaim : t.claim i now = (refused e, t) := by
        unfold mayStart at hfind hupdate
        simp only [claim, hfind, hupdate]
      rw [hclaim]
      refine .inl ⟨fun k hk => ?_, rfl⟩
      cases hk
    · refine .inr ⟨r, t', Keyed.get?_eq_some_iff.mpr ⟨hmem, hid⟩, hchosen, hrows, ?_⟩
      unfold mayStart at hfind hupdate
      simp only [claim, hfind, hupdate]

/-- The rows that a completion may settle. -/
def maySettle (receipt : Receipt) (r : Row) : Bool :=
  r.id = receipt.job.storage && r.status = Status.running.name &&
    r.attempts = receipt.attempts.toNat

theorem maySettle_iff {receipt : Receipt} {r : Row} : maySettle receipt r ↔
    r.id = receipt.job.storage ∧ r.status = Status.running.name ∧
      r.attempts = receipt.attempts.toNat := by
  simp only [maySettle, Bool.and_eq_true, decide_eq_true_eq, and_assoc]

/-- A completion fails and changes nothing, or settles the row of its receipt. -/
theorem complete_cases (receipt : Receipt) (d : Decision) (now : Instant) (t : Table) :
    (∃ e, t.complete receipt d now = (.error e, t)) ∨
      ∃ r t', t.rows.get? receipt.job.storage = some r ∧ maySettle receipt r ∧
        t'.rows = t.rows.update (maySettle receipt) (Row.settle d now.millis)
          (Row.id_settle d now.millis) ∧
        (r.settle d now.millis).rule? = none ∧
        t.complete receipt d now = ((r.settle d now.millis).toJob?, t') := by
  cases hfind : t.rows.toList.find? (maySettle receipt) with
  | none =>
    unfold maySettle at hfind
    exact .inl ⟨t.refusal receipt, by simp only [complete, hfind]⟩
  | some r =>
    have hmem := List.mem_of_find?_eq_some hfind
    have hchosen := List.find?_some hfind
    have hid : r.id = receipt.job.storage := (maySettle_iff.mp hchosen).1
    obtain ⟨e, hupdate⟩ | ⟨t', hupdate, hrows, hrule⟩ := t.update_cases (maySettle receipt)
      (Row.settle d now.millis) (Row.id_settle d now.millis)
    · unfold maySettle at hfind hupdate
      exact .inl ⟨.database e, by simp only [complete, hfind, hupdate, refused]⟩
    · refine .inr ⟨r, t', Keyed.get?_eq_some_iff.mpr ⟨hmem, hid⟩, hchosen, hrows,
        hrule r hmem hchosen, ?_⟩
      unfold maySettle at hfind hupdate
      simp only [complete, hfind, hupdate]

/-- A completion that is answered has settled the row of its receipt, and has read it. -/
theorem complete_eq_ok {receipt : Receipt} {d : Decision} {now : Instant} {k : Job}
    (h : (t.complete receipt d now).1 = .ok k) :
    ∃ r, t.rows.get? receipt.job.storage = some r ∧ maySettle receipt r ∧
      (r.settle d now.millis).Reads k ∧
      (t.complete receipt d now).2.rows.get? receipt.job.storage =
        some (r.settle d now.millis) := by
  obtain ⟨e, hfails⟩ | ⟨r, t', hr, hsettle, hrows, -, hdone⟩ := t.complete_cases receipt d now
  · rw [hfails] at h
    cases h
  · rw [hdone] at h ⊢
    refine ⟨r, hr, hsettle, Row.toJob?_eq_ok_iff.mp h, ?_⟩
    rw [hrows, Keyed.get?_update, hr, Option.map_some, if_pos hsettle]

end Table

instance : Custodian Table where
  dueJobs_same _ _ _ _ := rfl
  claim_shown {t i j} k now h := by
    show JobStore.peek (t.claim k now).2 i = _ ∨ _ ∧ ∃ _, JobStore.peek (t.claim k now).2 i = _
    obtain ⟨-, hsame⟩ | ⟨_, t', -, -, hrows, hclaim⟩ := t.claim_cases k now
    · rw [hsame]
      exact .inl h
    · rw [hclaim]
      obtain hsame | ⟨r, hr, hreads, hstart, hget⟩ := Table.peek_of_update hrows h
      · exact .inl hsame
      · obtain ⟨-, pending, -⟩ := Table.mayStart_iff.mp hstart
        exact .inr ⟨Status.name_inj.mp (hreads.status_eq.symm.trans pending), now.floor,
          Table.peek_eq_ok_iff.mpr ⟨_, hget, hreads.start now⟩⟩
  claimed {t i now k} h := by
    have hanswer : (t.claim i now).1 = .ok (some k) := h
    show _ ∧ _ ∧ JobStore.peek (t.claim i now).2 i = _ ∧ _
    obtain ⟨hnone, -⟩ | ⟨r, t', hr, hstart, hrows, hclaim⟩ := t.claim_cases i now
    · exact absurd hanswer (hnone k)
    · rw [hclaim] at hanswer ⊢
      have hget : t'.rows.get? i.storage = some (r.start now.millis) := by
        rw [hrows, Keyed.get?_update, hr, Option.map_some, if_pos hstart]
      have hreads : (r.start now.millis).Reads k := by
        rw [← Row.toJob?_eq_ok_iff]
        cases hread : (r.start now.millis).toJob? with
        | error e =>
          rw [hread] at hanswer
          cases hanswer
        | ok k' =>
          rw [hread] at hanswer
          exact congrArg Except.ok (Option.some.inj (Except.ok.inj hanswer))
      obtain ⟨hrow, pending, -⟩ := Table.mayStart_iff.mp hstart
      refine ⟨?_, ?_, Table.peek_eq_ok_iff.mpr ⟨_, hget, hreads⟩, fun j hj => ?_⟩
      · have hid := hreads.id
        rw [Row.id_start, hrow, Row.readId, Id.parse_storage] at hid
        exact (Except.ok.inj hid).symm
      · have hstatus : Status.running.name = k.status.name := hreads.status_eq
        exact (Status.name_inj.mp hstatus).symm
      · obtain ⟨r', hr', hreads'⟩ := Table.peek_eq_ok_iff.mp hj
        obtain rfl := Option.some.inj (hr.symm.trans hr')
        refine ⟨Status.name_inj.mp (hreads'.status_eq.symm.trans pending), ?_⟩
        exact Except.ok.inj (hreads'.attempts.symm.trans hreads.attempts)
  complete_others {t i} r d now hi := by
    show (t.complete r d now).2.get i = t.get i
    obtain ⟨e, hfails⟩ | ⟨_, t', -, -, hrows, -, hcomplete⟩ := t.complete_cases r d now
    · rw [hfails]
    · have hget : t'.rows.get? i.storage = t.rows.get? i.storage := by
        rw [hrows, Keyed.get?_update]
        cases hrow : t.rows.get? i.storage with
        | none => rfl
        | some row =>
          have hid : row.id = i.storage := (Keyed.get?_eq_some_iff.mp hrow).2
          have hother : ¬ Table.maySettle r row := fun hsettle =>
            hi (Id.storage_inj.mp (hid.symm.trans (Table.maySettle_iff.mp hsettle).1))
          rw [Option.map_some, if_neg hother]
      rw [hcomplete]
      simp only [Table.get, hget]
  complete_shown {t j} r d now h := by
    show (∃ e, t.complete r d now = _) ∨ (∃ k, (t.complete r d now).1 = .ok k) ∧ _ ∧ _ ∧ ∃ _ _, _ ∧
      JobStore.peek (t.complete r d now).2 r.job = _
    obtain hfails | ⟨row, t', hrow, hsettle, hrows, hrule, hcomplete⟩ := t.complete_cases r d now
    · exact .inl hfails
    · obtain ⟨row', hrow', hreads⟩ := Table.peek_eq_ok_iff.mp h
      obtain rfl := Option.some.inj (hrow.symm.trans hrow')
      have hsettled := hreads.settle d now (Row.ceiling_of_rule? hrule)
      have hget : t'.rows.get? r.job.storage = some (row.settle d now.millis) := by
        rw [hrows, Keyed.get?_update, hrow, Option.map_some, if_pos hsettle]
      obtain ⟨-, running, current⟩ := Table.maySettle_iff.mp hsettle
      rw [hcomplete]
      refine .inr ⟨⟨_, Row.toJob?_eq_ok_iff.mpr hsettled⟩, ?_, ?_, _, _,
        Decision.nextStatus_round Instant.floor d, Table.peek_eq_ok_iff.mpr ⟨_, hget, hsettled⟩⟩
      · exact Status.name_inj.mp (hreads.status_eq.symm.trans running)
      · exact UInt32.toNat_inj.mp (Int.natCast_inj.mp (hreads.attempts_eq.symm.trans current))
  recoverStale_shown {t i j} staleBefore now h := by
    show JobStore.peek (t.recoverStale staleBefore now).2 i = _ ∨ _ ∧
      ∃ _, JobStore.peek (t.recoverStale staleBefore now).2 i = _
    simp only [Table.recoverStale]
    obtain ⟨e, hupdate⟩ | ⟨t', hupdate, hrows, hrule⟩ := t.update_cases
      (Table.isStale staleBefore.millis) (Row.interrupt now.millis) (Row.id_interrupt now.millis)
    · simp only [hupdate]
      exact .inl h
    · simp only [hupdate]
      obtain hsame | ⟨r, hr, hreads, hstale, hget⟩ := Table.peek_of_update hrows h
      · exact .inl hsame
      · have hceiling := Row.ceiling_of_rule?
          (hrule r (Keyed.get?_eq_some_iff.mp hr).1 hstale)
        simp only [Table.isStale, Bool.and_eq_true, decide_eq_true_eq] at hstale
        refine .inr ⟨Status.name_inj.mp (hreads.status_eq.symm.trans hstale.1), now.floor,
          Table.peek_eq_ok_iff.mpr ⟨_, hget, hreads.interrupt now hceiling⟩⟩

end SyncJobs
