import SyncJobs.Proofs.Recovery

/-!
# Jobs that are answered and jobs that are shown

New jobs, claims, completions and recoveries are answered with jobs. An exchange is *faithful* if
the store shows each of these jobs under its id right afterwards, equal in every part. All
exchanges with the store in memory are faithful. So are all with the table except one kind: the
answer to a new job is the job as it was given, and not its row. The row keeps whole milliseconds,
and a payload that is read from a text (`answered_jobs_are_shown`).
-/

namespace SyncJobs

/-! ## Faithful exchanges -/

namespace Exchange

variable {σ : Type} [JobStore σ]

/-- **The jobs that an answer tells of,** as the store is said to hold them now. -/
def told (e : Exchange σ) : List Job :=
  match e.call, e.answer with
  | .enqueue _, .ok (.job j) => [j]
  | .claim _ _, .ok (.found j) => j.toList
  | .complete _ _ _, .ok (.job j) => [j]
  | .recoverStale _ _, .ok (.jobs js) => js
  | _, _ => []

/-- **The store shows what it has answered.** -/
def IsFaithful (e : Exchange σ) : Prop :=
  ∀ j ∈ e.told, JobStore.peek e.after j.id = .ok (some j)

variable {s : σ}

/-! What is told is read off the operations. -/

theorem isFaithful_enqueue_iff {n : NewJob} : (mk s (.enqueue n)).IsFaithful ↔
    ∀ j, (JobStore.enqueue n s).1 = .ok j →
      JobStore.peek (JobStore.enqueue n s).2 j.id = .ok (some j) := by
  simp only [IsFaithful, told, answer, after, StoreCall.run, StoreCall.answering]
  cases (JobStore.enqueue n s).1 <;> simp [Except.map]

theorem isFaithful_claim_iff {i : JobId} {now : Instant} : (mk s (.claim i now)).IsFaithful ↔
    ∀ j, (JobStore.claim i now s).1 = .ok (some j) →
      JobStore.peek (JobStore.claim i now s).2 j.id = .ok (some j) := by
  simp only [IsFaithful, told, answer, after, StoreCall.run, StoreCall.answering]
  cases (JobStore.claim i now s).1 <;> simp [Except.map]

theorem isFaithful_complete_iff {r : Receipt} {d : Decision} {now : Instant} :
    (mk s (.complete r d now)).IsFaithful ↔ ∀ j, (JobStore.complete r d now s).1 = .ok j →
      JobStore.peek (JobStore.complete r d now s).2 j.id = .ok (some j) := by
  simp only [IsFaithful, told, answer, after, StoreCall.run, StoreCall.answering]
  cases (JobStore.complete r d now s).1 <;> simp [Except.map]

theorem isFaithful_recoverStale_iff {staleBefore now : Instant} :
    (mk s (.recoverStale staleBefore now)).IsFaithful ↔
      ∀ js, (JobStore.recoverStale staleBefore now s).1 = .ok js → ∀ j ∈ js,
        JobStore.peek (JobStore.recoverStale staleBefore now s).2 j.id = .ok (some j) := by
  simp only [IsFaithful, told, answer, after, StoreCall.run, StoreCall.answering]
  cases (JobStore.recoverStale staleBefore now s).1 <;> simp [Except.map]

/-- Claims are faithful whenever a store shows what it hands out. -/
theorem isFaithful_claim {τ : Type} [Custodian τ] (s : τ) (i : JobId) (now : Instant) :
    (mk s (.claim i now)).IsFaithful :=
  isFaithful_claim_iff.mpr fun _ hj => by
    obtain ⟨rfl, -, hshown, -⟩ := Custodian.claimed hj
    exact hshown

end Exchange

/-! ## The store in memory -/

/-- **All exchanges with the store in memory are faithful.** -/
theorem Memory.isFaithful (m : Memory) (c : StoreCall) : (Exchange.mk m c).IsFaithful := by
  cases c with
  | enqueue n =>
    refine Exchange.isFaithful_enqueue_iff.mpr fun j hj => ?_
    obtain rfl := Except.ok.inj hj
    exact congrArg Except.ok ((m.jobs.get?_insert n.toPending n.id).trans (if_pos rfl))
  | claim i now => exact Exchange.isFaithful_claim m i now
  | complete r d now =>
    refine Exchange.isFaithful_complete_iff.mpr fun j hj => ?_
    have hanswer : (m.complete r d now).1 = .ok j := hj
    obtain ⟨-, e, hrefused⟩ | ⟨k, hk, hok, hsettled⟩ := m.complete_eq r d now
    · rw [hrefused] at hanswer
      cases hanswer
    · obtain rfl := Except.ok.inj (hanswer.symm.trans hok)
      have hid : k.id = r.job := Memory.id_of_get? (Memory.underway_eq_some_iff.mp hk).1
      rw [Job.id_settle, hid]
      exact congrArg Except.ok hsettled
  | recoverStale staleBefore now =>
    refine Exchange.isFaithful_recoverStale_iff.mpr fun js hjs j hj => ?_
    obtain rfl : (m.recoverStale staleBefore now).1 = js := Except.ok.inj hjs
    rw [Memory.recoverStale, List.mem_mergeSort] at hj
    obtain ⟨k, hk, rfl⟩ := List.mem_map.mp hj
    obtain ⟨hmem, hstale⟩ := List.mem_filter.mp hk
    refine congrArg Except.ok ?_
    show (m.recoverStale staleBefore now).2.jobs.get? k.id = _
    rw [Memory.recoverStale, Keyed.get?_update, Keyed.get?_key hmem, Option.map_some, if_pos hstale]
  | dueJobs | claimDue | get | counts | deadLetters | purgeSucceeded =>
    intro j hj
    cases hj

/-! ## The table -/

/-- **A new job that its row holds in every part:** its times are whole milliseconds, and its payload
is read as it was written. -/
structure NewJob.IsExact (n : NewJob) : Prop where
  runAfter : n.runAfter.floor = n.runAfter
  createdAt : n.createdAt.floor = n.createdAt
  payload : n.payload.reread = .ok n.payload

namespace Table

variable {t : Table}

/-- Rows of jobs spell ids as they are written. -/
theorem AllFiled.spellsIds {good : Payload → Prop} (h : t.AllFiled good) : t.SpellsIds := by
  intro r hr j hj
  obtain ⟨k, hk, -, rfl⟩ := h r hr
  exact Row.spells_ofJob hk hj

/-- What the table shows of a new job. -/
theorem peek_enqueue {n : NewJob} {j : Job} (h : (t.enqueue n).1 = .ok j) :
    j = n.toPending ∧ JobStore.peek (t.enqueue n).2 n.id =
      Job.readFound Payload.reread (some (n.round Instant.floor).toPending) := by
  obtain ⟨e, hrefused⟩ | ⟨t', -, hrows, hdone⟩ := t.enqueue_cases n
  · rw [hrefused] at h
    cases h
  · rw [hdone] at h ⊢
    refine ⟨(Except.ok.inj h).symm, ?_⟩
    have hget : t'.rows.get? n.id.storage = some (Row.ofNew n) := by
      rw [hrows, Keyed.get?_insert, if_pos (Row.id_ofNew n)]
    show t'.get n.id = _
    rw [get, hget, Row.ofNew_eq]
    exact congrArg (Except.map some) (Row.toJob?_ofJob (Job.isWhole_toPending n))

/-- **A new job that is accepted** is shown as it was given exactly if its row holds it. -/
theorem isFaithful_enqueue_iff {n : NewJob} : (Exchange.mk t (.enqueue n)).IsFaithful ↔
    ∀ j, (t.enqueue n).1 = .ok j → n.IsExact := by
  refine Exchange.isFaithful_enqueue_iff.trans (forall_congr' fun j => imp_congr_right fun hj => ?_)
  obtain ⟨rfl, hshown⟩ := peek_enqueue hj
  have hread : Job.readFound Payload.reread (some (n.round Instant.floor).toPending) =
      .ok (some n.toPending) ↔
        (n.round Instant.floor).toPending.readWith Payload.reread = .ok n.toPending := by
    rw [Job.readFound]
    cases (n.round Instant.floor).toPending.readWith Payload.reread <;> simp [Except.map]
  show JobStore.peek (t.enqueue n).2 n.id = _ ↔ _
  rw [hshown, hread, Job.readWith_eq_ok]
  constructor
  · rintro ⟨p, hp, hsame⟩
    obtain rfl : p = n.payload := congrArg Job.payload hsame
    exact ⟨congrArg Job.runAfter hsame, congrArg Job.createdAt hsame, hp⟩
  · rintro ⟨hrunAfter, hcreatedAt, hpayload⟩
    refine ⟨n.payload, hpayload, ?_⟩
    simp only [NewJob.toPending, NewJob.round, hrunAfter, hcreatedAt]

theorem isFaithful_complete (t : Table) (receipt : Receipt) (d : Decision) (now : Instant) :
    (Exchange.mk t (.complete receipt d now)).IsFaithful := by
  refine Exchange.isFaithful_complete_iff.mpr fun j hj => ?_
  have hanswer : (t.complete receipt d now).1 = .ok j := hj
  show JobStore.peek (t.complete receipt d now).2 j.id = _
  obtain ⟨r, -, hsettle, hreads, hget⟩ := complete_eq_ok hanswer
  have hrow : r.id = receipt.job.storage := (maySettle_iff.mp hsettle).1
  have hid := hreads.id
  rw [Row.id_settle, hrow, Row.readId, Id.parse_storage] at hid
  exact peek_eq_ok_iff.mpr ⟨_, Except.ok.inj hid ▸ hget, hreads⟩

theorem isFaithful_recoverStale {good : Payload → Prop} (ht : t.AllFiled good)
    (staleBefore now : Instant) :
    (Exchange.mk t (.recoverStale staleBefore now)).IsFaithful := by
  refine Exchange.isFaithful_recoverStale_iff.mpr fun js hjs j hj => ?_
  have hanswer : (t.recoverStale staleBefore now).1 = .ok js := hjs
  have hfiled : (t.recoverStale staleBefore now).2.AllFiled good :=
    (isKept_allFiled good).recoverStale staleBefore now ht
  show JobStore.peek (t.recoverStale staleBefore now).2 j.id = _
  by_cases hfree : ∀ r ∈ t.stale staleBefore, r.attempts < r.maxAttempts
  · obtain ⟨t', hrows, hdone⟩ := recoverStale_granted now hfree
    rw [hdone] at hanswer hfiled ⊢
    cases hread : readAll (t.takenBack staleBefore now) with
    | error e =>
      rw [hread] at hanswer
      cases hanswer
    | ok ks =>
      rw [hread] at hanswer
      obtain rfl := Except.ok.inj hanswer
      obtain ⟨rfl, hrow⟩ := readAll_eq_map hread
      obtain ⟨r', hr', rfl⟩ := List.mem_map.mp (List.mem_mergeSort.mp hj)
      obtain ⟨r, hr, rfl⟩ := mem_takenBack.mp hr'
      obtain ⟨hmem, hstale⟩ := List.mem_filter.mp hr
      have hmem' : r.interrupt now.millis ∈ t'.rows.toList := by
        rw [hrows, Keyed.toList_update]
        exact List.mem_map.mpr ⟨r, hmem, if_pos hstale⟩
      have hspelled := (hfiled.spellsIds _ hmem' _ (hrow _ hr')).1
      exact peek_eq_ok_iff.mpr ⟨_, Keyed.get?_eq_some_iff.mpr ⟨hmem', hspelled⟩,
        Row.toJob?_eq_ok_iff.mp (hrow _ hr')⟩
  · rw [recoverStale_refused hfree] at hanswer
    cases hanswer

/-- **Exchanges with a table of filed rows** are faithful, but for new jobs that rows do not hold. -/
theorem isFaithful_iff {good : Payload → Prop} (ht : t.AllFiled good) (c : StoreCall) :
    (Exchange.mk t c).IsFaithful ↔
      ∀ n, c = .enqueue n → ∀ j, (t.enqueue n).1 = .ok j → n.IsExact := by
  cases c with
  | enqueue n =>
    refine isFaithful_enqueue_iff.trans ⟨fun h n' hn' => ?_, fun h => h n rfl⟩
    cases hn'
    exact h
  | claim i now =>
    exact iff_of_true (Exchange.isFaithful_claim t i now) (by rintro _ ⟨⟩)
  | complete r d now => exact iff_of_true (t.isFaithful_complete r d now) (by rintro _ ⟨⟩)
  | recoverStale staleBefore now =>
    exact iff_of_true (isFaithful_recoverStale ht staleBefore now) (by rintro _ ⟨⟩)
  | dueJobs | claimDue | get | counts | deadLetters | purgeSucceeded =>
    refine iff_of_true (fun j hj => ?_) (by rintro _ ⟨⟩)
    cases hj

end Table

/-! ## Answers and rows -/

/-- **Answered jobs are shown.** Every exchange with the store in memory is faithful, whatever it
holds. After any calls, an exchange with the table is faithful as well, unless it stores a new job
that a row does not hold: one whose times have parts behind whole milliseconds, or whose payload is
not read as it was written. The answer to a new job is always the job that was given; what is shown
is the job that is read from its row. -/
theorem answered_jobs_are_shown (m : Memory) (calls : List StoreCall) (c : StoreCall) :
    let t := current Table.empty (replay .empty calls)
    (Exchange.mk m c).IsFaithful ∧
    ((Exchange.mk t c).IsFaithful ↔
      ∀ n, c = .enqueue n → ∀ j, (JobStore.enqueue n t).1 = .ok j → n.IsExact) ∧
    ∀ n j, (JobStore.enqueue n t).1 = .ok j → j = n.toPending ∧
      JobStore.peek (JobStore.enqueue n t).2 n.id =
        Job.readFound Payload.reread (some (n.round Instant.floor).toPending) := by
  have hfiled : (current Table.empty (replay .empty calls)).AllFiled fun _ => True :=
    Table.allFiled fun _ _ => trivial
  exact ⟨m.isFaithful c, Table.isFaithful_iff hfiled c, fun _ _ => Table.peek_enqueue⟩

/-! ## A time that is cut off -/

/-- The plain job, due half a millisecond after it was made. -/
def NewJob.fine : NewJob := { NewJob.plain with runAfter := ⟨500000, by decide, by decide⟩ }

/-- **A new job is not shown as it was answered:** the answer has it due half a millisecond after the
start of 1970, and the table shows it due at the start. -/
theorem half_a_millisecond_is_cut_off :
    ¬ (Exchange.mk Table.empty (.enqueue .fine)).IsFaithful ∧
    (Exchange.mk Table.empty (.enqueue .fine)).told.map (fun j => j.runAfter.nanos) = [500000] ∧
    ∃ j, JobStore.peek (JobStore.enqueue .fine Table.empty).2 NewJob.fine.id = .ok (some j) ∧
      j.runAfter.nanos = 0 := by
  refine ⟨fun h => ?_, rfl, ⟨_, rfl, rfl⟩⟩
  have hexact := Table.isFaithful_enqueue_iff.mp h _ rfl
  exact absurd (congrArg Instant.nanos hexact.runAfter) (by decide)

end SyncJobs
