import SyncJobs.Proofs.Recovery

/-!
# Calls that fail after a change

A claim, a completion and a recovery of the table are statements that rewrite rows. The rows are
read after the statement took effect, so the call fails if one of them cannot be read, and the
change stays. There is no other way in which a call fails and changes something
(`unreadable_rows_make_calls_fail_late`): calls that are refused change nothing, and neither does
any call that fails while all rows can be read.

A row that cannot be read is started by a claim that hands nothing out, and a recovery that answers
with an error counts an attempt for it (`failed_calls_leave_a_change`).
-/

namespace SyncJobs

/-- A row that cannot be read. -/
def Row.IsGarbled (r : Row) : Prop := ∃ e, r.toJob? = .error e

theorem Row.not_isGarbled_iff {r : Row} : ¬ r.IsGarbled ↔ ∃ j, r.Reads j := by
  simp only [IsGarbled, ← Row.toJob?_eq_ok_iff]
  cases r.toJob? <;> simp

/-- Whether a call is one operation of a store, and not several of them. -/
def StoreCall.isSingle : StoreCall → Bool
  | claimDue _ _ => false
  | _ => true

/-- A call fails if its operation does. -/
theorem StoreCall.answering_fails_iff {σ β : Type} (form : β → StoreAnswer) (op : StoreM σ β)
    (s : σ) : (∃ e, (answering form op s).1 = .error e) ↔ ∃ e, (op s).1 = .error e := by
  rw [answering]
  cases (op s).1 <;> simp [Except.map]

namespace Table

variable {t : Table}

/-! ## Rewritten rows -/

/-- What a statement writes in the place of the row with an id. -/
def rewrittenAt (k : String) (p : Row → Bool) (f : Row → Row) (t : Table) : List Row :=
  ((((t.rows.get? k).filter p).map f).filter fun r => r.rule?.isNone).toList

/-- **The rows that a call rewrites,** as it writes them. A statement that the database refuses
writes none. -/
def rewritten (t : Table) : StoreCall → List Row
  | .claim i now => t.rewrittenAt i.storage (isDue now.millis) (Row.start now.millis)
  | .complete receipt d now =>
    t.rewrittenAt receipt.job.storage (isUnderway receipt) (Row.settle d now.millis)
  | .recoverStale staleBefore now =>
    if ∀ r ∈ t.stale staleBefore, r.attempts < r.maxAttempts then t.takenBack staleBefore now
    else []
  | _ => []

/-- **An operation that rewrites rows and then reads them.** -/
structure Rewrites {β : Type} (t : Table) (result : Except StoreError β × Table)
    (rows : List Row) : Prop where
  /-- the rows are in the table afterwards -/
  kept : ∀ r ∈ rows, r ∈ result.2.rows.toList
  /-- and were not before -/
  new : ∀ r ∈ rows, r ∉ t.rows.toList
  /-- the operation fails if one of them cannot be read, and only then -/
  read : rows ≠ [] → ((∃ e, result.1 = .error e) ↔ ∃ r ∈ rows, r.IsGarbled)
  /-- an operation that rewrites nothing and fails changes nothing -/
  same : rows = [] → (∃ e, result.1 = .error e) → result.2 = t

variable {β : Type} {result : Except StoreError β × Table} {rows : List Row}

/-- **When an operation fails and leaves a change.** -/
theorem Rewrites.failsLate_iff (h : t.Rewrites result rows) :
    ((∃ e, result.1 = .error e) ∧ result.2 ≠ t) ↔ ∃ r ∈ rows, r.IsGarbled := by
  constructor
  · rintro ⟨hfails, hchanged⟩
    exact (h.read fun hnone => hchanged (h.same hnone hfails)).mp hfails
  · rintro ⟨r, hr, hgarbled⟩
    refine ⟨(h.read (List.ne_nil_of_mem hr)).mpr ⟨r, hr, hgarbled⟩, fun hsame => ?_⟩
    exact h.new r hr (hsame ▸ h.kept r hr)

/-- An operation that rewrites nothing and leaves the table alone when it fails. -/
theorem rewrites_nil (h : (∃ e, result.1 = .error e) → result.2 = t) : t.Rewrites result [] where
  kept _ hr := absurd hr List.not_mem_nil
  new _ hr := absurd hr List.not_mem_nil
  read hnone := absurd rfl hnone
  same _ := h

/-- The form of an answer does not matter. -/
theorem Rewrites.answering {form : β → StoreAnswer} {op : StoreM Table β}
    (h : t.Rewrites (op t) rows) : t.Rewrites (StoreCall.answering form op t) rows := by
  have hfails := StoreCall.answering_fails_iff form op t
  exact ⟨h.kept, h.new, fun hsome => hfails.trans (h.read hsome),
    fun hnone hfailed => h.same hnone (hfails.mp hfailed)⟩

/-! ## Statements on one row -/

/-- A row is rewritten if it is found, passes the test and keeps the rules. -/
theorem mem_rewrittenAt {k : String} {p : Row → Bool} {f : Row → Row} {r' : Row} :
    r' ∈ t.rewrittenAt k p f ↔
      ∃ r, t.rows.get? k = some r ∧ p r ∧ (f r).rule? = none ∧ f r = r' := by
  simp only [rewrittenAt, Option.mem_toList, Option.filter_eq_some_iff, Option.map_eq_some_iff,
    Option.isNone_iff_eq_none]
  constructor
  · rintro ⟨⟨r, ⟨hr, hp⟩, rfl⟩, hrule⟩
    exact ⟨r, hr, hp, hrule, rfl⟩
  · rintro ⟨r, hr, hp, hrule, rfl⟩
    exact ⟨⟨r, ⟨hr, hp⟩, rfl⟩, hrule⟩

/-- **A statement on the row with an id** that changes the row whenever it writes it. -/
theorem rewrites_statement {k : String} {p : Row → Bool} {f : Row → Row}
    (hf : ∀ r, (f r).id = r.id) {missing : Option Row → Except StoreError β}
    {read : Row → Except StoreError β}
    (h : result.1 = statementAnswer p f missing read (t.rows.get? k) ∧
      result.2.rows = t.rows.update (fun r => r.id = k) (statementChange p f)
        (id_statementChange hf))
    (hread : ∀ r, (∃ e, read r = .error e) ↔ r.IsGarbled) (hchanges : ∀ r, p r → f r ≠ r) :
    t.Rewrites result (t.rewrittenAt k p f) := by
  obtain ⟨hanswer, hrows⟩ := h
  constructor
  case kept =>
    intro r' hr'
    obtain ⟨r, hr, hp, hrule, rfl⟩ := mem_rewrittenAt.mp hr'
    have hget : result.2.rows.get? k = some (f r) := by
      rw [hrows, Keyed.get?_update, hr, Option.map_some,
        if_pos (decide_eq_true (Keyed.get?_eq_some_iff.mp hr).2), statementChange,
        if_pos ⟨hp, hrule⟩]
    exact (Keyed.get?_eq_some_iff.mp hget).1
  case new =>
    intro r' hr' hmem
    obtain ⟨r, hr, hp, -, rfl⟩ := mem_rewrittenAt.mp hr'
    obtain ⟨hrmem, -⟩ := Keyed.get?_eq_some_iff.mp hr
    exact hchanges r hp (Keyed.eq_of_key_eq hmem hrmem (hf r))
  case read =>
    intro hsome
    obtain ⟨r', hr'⟩ := List.exists_mem_of_ne_nil _ hsome
    obtain ⟨r, hr, hp, hrule, rfl⟩ := mem_rewrittenAt.mp hr'
    have hone : ∀ s ∈ t.rewrittenAt k p f, s = f r := by
      intro s hs
      obtain ⟨r₂, hr₂, -, -, rfl⟩ := mem_rewrittenAt.mp hs
      rw [Option.some.inj (hr₂.symm.trans hr)]
    have hfound : (t.rows.get? k).filter p = some r := by rw [hr, Option.filter_some, if_pos hp]
    rw [hanswer, statementAnswer, hfound]
    simp only [hrule, hread]
    refine ⟨fun hgarbled => ⟨_, hr', hgarbled⟩, ?_⟩
    rintro ⟨s, hs, hgarbled⟩
    exact hone s hs ▸ hgarbled
  case same =>
    refine fun hnone _ => rows_injective (hrows.trans (Keyed.update_eq_self fun r hr => if_neg ?_))
    rintro ⟨hp, hrule⟩
    have hmem := mem_rewrittenAt.mpr ⟨r, hr, hp, hrule, rfl⟩
    rw [hnone] at hmem
    cases hmem

theorem rewrites_claim (i : JobId) (now : Instant) (t : Table) :
    t.Rewrites (t.claim i now) (t.rewritten (.claim i now)) := by
  refine rewrites_statement (Row.id_start now.millis) (t.claim_statement i now) (fun r => ?_)
    fun r hdue hsame => ?_
  · rw [Row.IsGarbled]
    cases r.toJob? <;> simp [Except.map]
  · -- a row that is due is not running
    have hstatus : Status.running.name = r.status := congrArg Row.status hsame
    have hwaits := of_decide_eq_true (Bool.and_eq_true_iff.mp hdue).1
    exact absurd (Status.name_inj.mp (hstatus.trans hwaits)) (by decide)

/-- An attempt more is another row. -/
theorem ne_of_attempts {r r' : Row} (h : r'.attempts = r.attempts + 1) : r' ≠ r := by
  rintro rfl
  omega

theorem rewrites_complete (receipt : Receipt) (d : Decision) (now : Instant) (t : Table) :
    t.Rewrites (t.complete receipt d now) (t.rewritten (.complete receipt d now)) :=
  rewrites_statement (Row.id_settle d now.millis) (t.complete_statement receipt d now)
    (fun _ => Iff.rfl) fun _ _ => ne_of_attempts rfl

/-! ## Recoveries -/

/-- Rows cannot be read together if one of them cannot be read. -/
theorem readAll_fails_iff {rows : List Row} :
    (∃ e, readAll rows = .error e) ↔ ∃ r ∈ rows, r.IsGarbled := by
  constructor
  · rintro ⟨e, he⟩
    obtain ⟨r, hr, hgarbled⟩ := exists_of_readAll_eq_error he
    exact ⟨r, hr, e, hgarbled⟩
  · rintro ⟨r, hr, e, hgarbled⟩
    cases hread : readAll rows with
    | error e' => exact ⟨e', rfl⟩
    | ok js =>
      have hok := (readAll_eq_map hread).2 r hr
      rw [hgarbled] at hok
      cases hok

theorem rewrites_recoverStale (staleBefore now : Instant) (t : Table) :
    t.Rewrites (t.recoverStale staleBefore now) (t.rewritten (.recoverStale staleBefore now)) := by
  rw [rewritten]
  by_cases hfree : ∀ r ∈ t.stale staleBefore, r.attempts < r.maxAttempts
  · rw [if_pos hfree]
    obtain ⟨t', hrows, hdone⟩ := recoverStale_granted now hfree
    rw [hdone]
    constructor
    case kept =>
      intro r' hr'
      obtain ⟨r, hr, rfl⟩ := mem_takenBack.mp hr'
      obtain ⟨hmem, hstale⟩ := List.mem_filter.mp hr
      rw [hrows, Keyed.toList_update]
      exact List.mem_map.mpr ⟨r, hmem, if_pos hstale⟩
    case new =>
      intro r' hr' hmem
      obtain ⟨r, hr, rfl⟩ := mem_takenBack.mp hr'
      exact ne_of_attempts rfl (Keyed.eq_of_key_eq hmem (mem_stale.mp hr).1 rfl)
    case read =>
      intro _
      rw [← readAll_fails_iff]
      cases readAll (t.takenBack staleBefore now) <;> simp [Except.map]
    case same =>
      rintro hnone -
      -- no row was stale, so none was changed
      refine rows_injective (hrows.trans (Keyed.ext ?_))
      rw [Keyed.toList_update]
      refine (List.map_congr_left fun r hr => if_neg fun hstale => ?_).trans (List.map_id' _)
      have hmem : r.interrupt now.millis ∈ t.takenBack staleBefore now :=
        mem_takenBack.mpr ⟨r, List.mem_filter.mpr ⟨hr, hstale⟩, rfl⟩
      rw [hnone] at hmem
      cases hmem
  · rw [if_neg hfree, recoverStale_refused hfree]
    exact rewrites_nil fun _ => rfl

/-! ## All operations -/

/-- **Every operation** rewrites rows and then reads them, or changes nothing when it fails. -/
theorem rewrites {c : StoreCall} (hc : c.isSingle) (t : Table) :
    t.Rewrites (c.run t) (t.rewritten c) := by
  cases c with
  | enqueue n =>
    refine (rewrites_nil fun ⟨e, he⟩ => ?_).answering
    obtain ⟨e, hrefused⟩ | ⟨t', -, -, hdone⟩ := t.enqueue_cases n
    · exact congrArg Prod.snd hrefused
    · have hok : (t.enqueue n).1 = .error e := he
      rw [hdone] at hok
      cases hok
  | claim i now => exact (t.rewrites_claim i now).answering
  | complete receipt d now => exact (t.rewrites_complete receipt d now).answering
  | recoverStale staleBefore now => exact (t.rewrites_recoverStale staleBefore now).answering
  | purgeSucceeded olderThan => exact (rewrites_nil fun ⟨_, he⟩ => by cases he).answering
  | dueJobs | get | counts | deadLetters =>
    refine Rewrites.answering (rewrites_nil ?_)
    exact fun _ => rfl
  | claimDue now limit => cases hc

/-- Rows that could be read are rewritten so that they can be read. -/
theorem not_isGarbled_of_mem_rewritten {c : StoreCall} (ht : t.IsLegible) {r : Row}
    (hr : r ∈ t.rewritten c) : ¬ r.IsGarbled := by
  refine Row.not_isGarbled_iff.mpr ?_
  cases c with
  | claim i now =>
    obtain ⟨s, hs, -, -, rfl⟩ := mem_rewrittenAt.mp hr
    obtain ⟨j, hj⟩ := ht s (Keyed.get?_eq_some_iff.mp hs).1
    exact ⟨_, hj.start now⟩
  | complete receipt d now =>
    obtain ⟨s, hs, -, hrule, rfl⟩ := mem_rewrittenAt.mp hr
    obtain ⟨j, hj⟩ := ht s (Keyed.get?_eq_some_iff.mp hs).1
    exact ⟨_, hj.settle d now (Row.ceiling_of_rule? hrule)⟩
  | recoverStale staleBefore now =>
    rw [rewritten] at hr
    split at hr
    · rename_i hfree
      obtain ⟨s, hs, rfl⟩ := mem_takenBack.mp hr
      obtain ⟨j, hj⟩ := ht s (mem_stale.mp hs).1
      exact ⟨_, hj.interrupt now (hfree s hs)⟩
    · cases hr
  | _ => cases hr

/-- **The call fails, and leaves a change.** -/
def FailsLate (t : Table) (c : StoreCall) : Prop := (∃ e, (c.run t).1 = .error e) ∧ (c.run t).2 ≠ t

end Table

/-! ## Late failures -/

/-- **Unreadable rows make calls fail late.** Whatever a table holds, an operation that fails leaves
it as it was, unless a row that it rewrites cannot be read; then the operation fails, and the
rewritten rows stay. So no operation fails late while all rows can be read. -/
theorem unreadable_rows_make_calls_fail_late {c : StoreCall} (hc : c.isSingle) (t : Table) :
    (t.FailsLate c ↔ ∃ r ∈ t.rewritten c, r.IsGarbled) ∧
    (∀ r ∈ t.rewritten c, r ∈ (c.run t).2.rows.toList) ∧
    (t.IsLegible → ¬ t.FailsLate c) := by
  have hrewrites := Table.rewrites hc t
  refine ⟨hrewrites.failsLate_iff, hrewrites.kept, fun ht hlate => ?_⟩
  obtain ⟨r, hr, hgarbled⟩ := hrewrites.failsLate_iff.mp hlate
  exact Table.not_isGarbled_of_mem_rewritten ht hr hgarbled

/-! ## A row that cannot be read -/

/-- The plain job in a row whose payload is no JSON. -/
def Row.garbled : Row := { Row.ofNew .plain with payload := "not json" }

/-- The table with one row. -/
def Table.only (r : Row) (h : r.rule? = none) : Table :=
  ⟨⟨[r], List.nodup_singleton _⟩, fun _ hs => List.mem_singleton.mp hs ▸ h⟩

/-- A table with a waiting job that cannot be read. -/
def Table.garbled : Table := .only .garbled (by decide)

/-- The same table after the job was claimed. -/
def Table.garbledClaimed : Table := .only (Row.garbled.start 0) (by decide)

/-- The claim of such a job fails late; a completion that finds no job at all fails in time. -/
theorem a_claim_fails_late : Table.garbled.FailsLate (.claim ⟨1⟩ .epoch) ∧
    ¬ Table.empty.FailsLate (.complete ⟨⟨1⟩, 0⟩ (.succeed 0) .epoch) := by
  refine ⟨(unreadable_rows_make_calls_fail_late rfl .garbled).1.mpr ⟨Row.garbled.start 0, ?_, ?_⟩,
    (unreadable_rows_make_calls_fail_late rfl .empty).2.2 fun r hr => absurd hr List.not_mem_nil⟩
  · decide +kernel
  · exact ⟨.payload, rfl⟩

/-- **Failed calls leave a change:** the claim of such a job fails, and leaves it running though it
was not handed out. A recovery fails as well, and counts an attempt. -/
theorem failed_calls_leave_a_change :
    JobStore.claim ⟨1⟩ .epoch Table.garbled = (.error .payload, Table.garbledClaimed) ∧
    ∃ t, JobStore.recoverStale .epoch .epoch Table.garbledClaimed = (.error .payload, t) ∧
      t.rows.toList = [(Row.garbled.start 0).interrupt 0] ∧
      t.rows.toList.map Row.attempts = [1] := by
  refine ⟨rfl, ?_⟩
  have hfree : ∀ r ∈ Table.garbledClaimed.stale .epoch, r.attempts < r.maxAttempts := by
    decide +kernel
  have htaken : Table.garbledClaimed.takenBack .epoch .epoch =
      [(Row.garbled.start 0).interrupt 0] := by decide +kernel
  obtain ⟨t', hrows, hdone⟩ := Table.recoverStale_granted .epoch hfree
  rw [htaken] at hdone
  exact ⟨t', hdone, by rw [hrows]; decide +kernel, by rw [hrows]; decide +kernel⟩

end SyncJobs
