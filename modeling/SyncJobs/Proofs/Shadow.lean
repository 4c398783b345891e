import SyncJobs.Proofs.Rows

/-!
# The table as a shadow of the store in memory

`Table.Holds` says that the rows of a table are the rows of the jobs of a store in memory, in the
same order. Every statement on the table keeps this up with the operation on the jobs, at times
without the parts behind whole milliseconds. No statement is refused: rows of sound jobs keep the
rules of the table, and the operations keep jobs sound.

So the table is a `Ledger`, whose payloads are read back from texts.
-/

namespace SyncJobs

namespace Table

/-- **The table holds the jobs** of a store in memory. -/
structure Holds (t : Table) (m : Memory) : Prop where
  rows : t.rows.toList = m.jobs.toList.map Row.ofJob
  whole : ∀ j ∈ m.jobs.toList, j.IsWhole

variable {t : Table} {m : Memory}

/-! ## Look-up -/

theorem Holds.get? (h : t.Holds m) (i : JobId) :
    t.rows.get? i.storage = (m.jobs.get? i).map Row.ofJob := by
  have hkeys : ((fun r : Row => decide (r.id = i.storage)) ∘ Row.ofJob) =
      fun j => decide (j.id = i) := by
    funext j
    simp only [Function.comp_apply, Row.id_ofJob, Id.storage_inj]
  rw [Keyed.get?, Keyed.get?, h.rows, List.find?_map, hkeys]

/-- The rows that are chosen by a test of jobs. -/
theorem Holds.filter (h : t.Holds m) {p : Row → Bool} {q : Job → Bool}
    (hpq : ∀ j ∈ m.jobs.toList, p (Row.ofJob j) = q j) :
    t.rows.toList.filter p = (m.jobs.toList.filter q).map Row.ofJob := by
  rw [h.rows, List.filter_map]
  exact congrArg _ (List.filter_congr hpq)

/-- The row that is chosen by id and by a test of jobs. -/
theorem Holds.find? (h : t.Holds m) (i : JobId) {p : Row → Bool} {q : Job → Bool}
    (hpq : ∀ j ∈ m.jobs.toList, p (Row.ofJob j) = q j) :
    t.rows.toList.find? (fun r => r.id = i.storage && p r) =
      ((m.jobs.get? i).filter q).map Row.ofJob := by
  rw [Keyed.find?_key_and, h.get? i]
  cases hj : m.jobs.get? i with
  | none => rfl
  | some j =>
    have hq := hpq j (Keyed.get?_eq_some_iff.mp hj).1
    rw [Option.map_some, Option.filter_some, Option.filter_some, hq]
    split <;> rfl

theorem Holds.isWhole (h : t.Holds m) {i : JobId} {j : Job} (hj : m.jobs.get? i = some j) :
    j.IsWhole :=
  h.whole j (Keyed.get?_eq_some_iff.mp hj).1

theorem Holds.get_eq (h : t.Holds m) (i : JobId) :
    t.get i = Job.readFound Payload.reread (m.jobs.get? i) := by
  rw [Table.get, h.get? i]
  cases hj : m.jobs.get? i with
  | none => rfl
  | some j => exact congrArg (Except.map some) (Row.toJob?_ofJob (h.isWhole hj))

/-! ## Statements -/

theorem holds_empty : empty.Holds .empty := ⟨rfl, by rintro _ ⟨⟩⟩

/-- Without a broken rule, rows are changed. -/
theorem update_of_kept {p : Row → Bool} {f : Row → Row} (hf : ∀ r, (f r).id = r.id)
    (h : brokenRule? ((t.rows.toList.filter p).map f) = none) :
    ∃ t', t.update p f hf = .ok t' ∧ t'.rows = t.rows.update p f hf := by
  rw [update]
  split
  · rename_i hrule
    rw [h] at hrule
    cases hrule
  · exact ⟨_, rfl, rfl⟩

/-- **Changing rows** is changing jobs, if jobs stay sound and whole. -/
theorem Holds.update (h : t.Holds m) {p : Row → Bool} {f : Row → Row}
    (hf : ∀ r, (f r).id = r.id) {q : Job → Bool} {g : Job → Job} (hg : ∀ j, (g j).id = j.id)
    (hpq : ∀ j ∈ m.jobs.toList, p (Row.ofJob j) = q j)
    (hfg : ∀ j ∈ m.jobs.toList, q j →
      f (Row.ofJob j) = Row.ofJob (g j) ∧ (g j).IsWhole ∧ (g j).standing.Sound) :
    ∃ t', t.update p f hf = .ok t' ∧ t'.Holds ⟨m.jobs.update q g hg⟩ := by
  -- the changed rows are those of sound jobs, and break no rule
  have hkept : brokenRule? ((t.rows.toList.filter p).map f) = none := by
    refine List.findSome?_eq_none_iff.mpr fun r hr => ?_
    obtain ⟨s, hs, rfl⟩ := List.mem_map.mp hr
    obtain ⟨hs, hps⟩ := List.mem_filter.mp hs
    rw [h.rows] at hs
    obtain ⟨j, hj, rfl⟩ := List.mem_map.mp hs
    obtain ⟨hrow, -, hsound⟩ := hfg j hj (hpq j hj ▸ hps)
    rw [hrow]
    exact Row.rule?_ofJob hsound
  obtain ⟨t', ht', hrows⟩ := update_of_kept hf hkept
  refine ⟨t', ht', ?_, fun k hk => ?_⟩
  · rw [hrows, Keyed.toList_update, Keyed.toList_update, h.rows, List.map_map, List.map_map]
    refine List.map_congr_left fun j hj => ?_
    simp only [Function.comp, hpq j hj]
    split
    · rename_i hq
      exact (hfg j hj hq).1
    · rfl
  · obtain ⟨j, hj, rfl⟩ := List.mem_map.mp hk
    split
    · rename_i hq
      exact (hfg j hj hq).2.1
    · exact h.whole j hj

/-- Changing the row of one job. -/
theorem Holds.modify (h : t.Holds m) {i : JobId} {j : Job} (hj : m.jobs.get? i = some j)
    {p : Row → Bool} (hp : p (Row.ofJob j)) {f : Row → Row} (hf : ∀ r, (f r).id = r.id)
    {g : Job → Job} (hg : ∀ j, (g j).id = j.id) (hrow : f (Row.ofJob j) = Row.ofJob (g j))
    (hwhole : (g j).IsWhole) (hsound : (g j).standing.Sound) :
    ∃ t', t.update (fun r => r.id = i.storage && p r) f hf = .ok t' ∧
      t'.Holds (m.modify i g hg) := by
  obtain ⟨hmem, hid⟩ := Keyed.get?_eq_some_iff.mp hj
  have only : ∀ k ∈ m.jobs.toList, k.id = i → k = j := fun k hk hki =>
    Keyed.eq_of_key_eq hk hmem (hki.trans hid.symm)
  refine h.update hf hg (fun k hk => ?_) fun k hk hki => ?_
  · by_cases hki : k.id = i
    · rw [only k hk hki]
      simp [Row.id_ofJob, hid, hp]
    · simp [Row.id_ofJob, Id.storage_inj, hki]
  · obtain rfl := only k hk (of_decide_eq_true hki)
    exact ⟨hrow, hwhole, hsound⟩

/-! ## Operations -/

/-- A new job is stored. -/
theorem Holds.enqueue (h : t.Holds m) {n : NewJob} (hn : m.jobs.get? n.id = none)
    (hmax : 1 ≤ n.maxAttempts) :
    ∃ t', t.enqueue n = (.ok n.toPending, t') ∧ t'.Holds (m.enqueue (n.round Instant.floor)) := by
  have hsound : (n.round Instant.floor).toPending.standing.Sound := by
    have hstored : Change Instant.floor n.id (.enqueue n) none _ := .stored n rfl
    exact hstored.sound hmax (by rintro _ ⟨⟩) _ rfl
  have hrule : (Row.ofNew n).rule? = none := by
    rw [Row.ofNew_eq]
    exact Row.rule?_ofJob hsound
  have hfree : t.rows.contains (Row.ofNew n).id = false := by
    have hget := h.get? n.id
    rw [hn] at hget
    exact congrArg Option.isSome hget
  have hinsert : ∃ t', t.insert (Row.ofNew n) = .ok t' ∧ t'.rows = t.rows.insert (Row.ofNew n) := by
    rw [insert]
    split
    · rename_i hbroken
      rw [hrule] at hbroken
      cases hbroken
    · exact ⟨_, if_neg (by simp [hfree]), rfl⟩
  obtain ⟨t', ht', hrows⟩ := hinsert
  refine ⟨t', by rw [Table.enqueue, ht'], ?_, fun k hk => ?_⟩
  · have hkeys : ((fun r => decide (r.id ≠ (Row.ofNew n).id)) ∘ Row.ofJob) =
        fun j => decide (j.id ≠ n.id) := by
      funext j
      simp only [Function.comp_apply, Row.id_ofJob, Row.id_ofNew, ne_eq, Id.storage_inj]
    rw [hrows, Keyed.toList_insert, Memory.enqueue, Keyed.toList_insert, h.rows, List.map_append,
      List.filter_map, hkeys, Row.ofNew_eq]
    rfl
  · rcases List.mem_append.mp hk with hk | hk
    · exact h.whole k (List.mem_filter.mp hk).1
    · rw [List.mem_singleton.mp hk]
      exact Job.isWhole_toPending n

/-- A claim. -/
theorem Holds.claim (h : t.Holds m) (hm : m.Sound) (i : JobId) (now : Instant) :
    (t.claim i now).1 = Job.readFound Payload.reread (m.claim i now.floor).1 ∧
      (t.claim i now).2.Holds (m.claim i now.floor).2 := by
  have hfind := h.find? i fun j hj => Row.isDue_ofJob (h.whole j hj) now
  rw [Table.claim, Memory.claim]
  cases hj : m.jobs.get? i with
  | none =>
    rw [hj] at hfind
    simp only [hfind, Option.filter_none, Option.map_none]
    exact ⟨rfl, h⟩
  | some j =>
    rw [hj, Option.filter_some] at hfind
    have hwhole := h.isWhole hj
    by_cases due : j.isDue now.floor
    · rw [if_pos due] at hfind
      have hsound : (j.start now.floor).standing.Sound := by
        have hstarted : Change Instant.floor i (.claim i now) (some j) (some _) :=
          .started (if_pos rfl) due
        exact hstarted.sound trivial (fun _ hk => Option.some.inj hk ▸ hm.of_get? hj) _ rfl
      obtain ⟨t', ht', hholds⟩ := h.modify hj ((Row.isDue_ofJob hwhole now).trans due)
        (Row.id_start now.millis) (Job.id_start now.floor) (Row.start_ofJob j now)
        (hwhole.start now) hsound
      simp only [hfind, Option.map_some, ht', due, if_true]
      refine ⟨?_, hholds⟩
      rw [Row.start_ofJob, Row.toJob?_ofJob (hwhole.start now)]
      rfl
    · rw [if_neg due] at hfind
      simp only [hfind, Option.map_none, due, Bool.false_eq_true, if_false]
      exact ⟨rfl, h⟩

/-- What a completion asks of a row besides its id. -/
def receiptTest (r : Receipt) (row : Row) : Bool :=
  row.status = Status.running.name && row.attempts = r.attempts.toNat

/-- The job that a completion chooses, if there is one. -/
theorem Holds.find?_complete (h : t.Holds m) (r : Receipt) :
    t.rows.toList.find? (fun row => row.id = r.job.storage && row.status = Status.running.name &&
      row.attempts = (r.attempts.toNat : Int)) =
    ((m.jobs.get? r.job).filter fun j => j.status = .running && j.attempts = r.attempts).map
      Row.ofJob := by
  have htest : ∀ j ∈ m.jobs.toList, receiptTest r (Row.ofJob j) =
      (decide (j.status = .running) && decide (j.attempts = r.attempts)) := by
    intro j _
    simp only [receiptTest, Row.ofJob, Status.name_inj, Int.natCast_inj, UInt32.toNat_inj]
  rw [← h.find? r.job htest]
  simp only [receiptTest, Bool.and_assoc]

/-- A completion that settles its attempt. -/
theorem Holds.complete (h : t.Holds m) (hm : m.Sound) {r : Receipt} {d : Decision} {now : Instant}
    (hfits : (StoreCall.complete r d now).Fits (m.jobs.get? r.job)) {k : Job}
    (hk : (m.complete r (d.round Instant.floor) now.floor).1 = .ok k) :
    (t.complete r d now).1 = k.readWith Payload.reread ∧
      (t.complete r d now).2.Holds (m.complete r (d.round Instant.floor) now.floor).2 := by
  have hfind := h.find?_complete r
  rw [Memory.complete] at hk ⊢
  cases hj : m.jobs.get? r.job with
  | none => rw [hj] at hk; cases hk
  | some j =>
    rw [hj] at hk hfind
    simp only at hk ⊢
    by_cases running : j.status = .running
    · by_cases hatt : j.attempts = r.attempts
      · simp only [running, hatt, ne_eq, not_true_eq_false, if_false] at hk ⊢
        obtain rfl := Except.ok.inj hk
        have hwhole := (h.isWhole hj).settle d now
        have hreceipt : j.receipt = r := by
          rw [Job.receipt, Memory.id_of_get? hj, hatt]
        have hsound : (j.settle (d.round Instant.floor) now.floor).standing.Sound := by
          have hsettled : Change Instant.floor r.job (.complete j.receipt d now) (some j)
              (some _) := .settled d now running
          rw [hj, ← hreceipt] at hfits
          exact hsettled.sound hfits (fun _ hk => Option.some.inj hk ▸ hm.of_get? hj) _ rfl
        have hrow := Row.settle_ofJob ((hm.of_get? hj).attempts_lt running) d now
        have htest : receiptTest r (Row.ofJob j) := by
          simp [receiptTest, Row.ofJob, running, hatt]
        obtain ⟨t', ht', hholds⟩ := h.modify hj htest (Row.id_settle d now.millis)
          (Job.id_settle (d.round Instant.floor) now.floor) hrow hwhole hsound
        simp only [receiptTest, ← Bool.and_assoc] at ht'
        simp only [Option.filter_some, running, hatt, decide_true, Bool.and_self, if_true,
          Option.map_some] at hfind
        simp only [Table.complete, hfind, ht']
        refine ⟨?_, hholds⟩
        rw [hrow, Row.toJob?_ofJob hwhole]
      · simp only [running, hatt, ne_eq, not_true_eq_false, not_false_eq_true, if_false,
          if_true] at hk
        cases hk
    · simp only [running, ne_eq, not_false_eq_true, if_true] at hk
      cases hk

/-- A completion that is refused. -/
theorem Holds.refuses_complete (h : t.Holds m) {r : Receipt} {d : Decision} {now : Instant}
    {e : StoreError} (he : (m.complete r (d.round Instant.floor) now.floor).1 = .error e) :
    (t.complete r d now).2 = t ∧ (t.complete r d now).1 =
      (Job.readFound Payload.reread (m.jobs.get? r.job)).bind fun _ => .error e := by
  have hfind := h.find?_complete r
  have hget := h.get_eq r.job
  rw [Memory.complete] at he
  cases hj : m.jobs.get? r.job with
  | none =>
    rw [hj] at he hfind hget
    obtain rfl := Except.error.inj he
    simp only [Option.filter_none, Option.map_none] at hfind
    simp only [Table.complete, hfind, refusal, hget]
    exact ⟨trivial, rfl⟩
  | some j =>
    rw [hj] at he hfind hget
    simp only at he
    -- the row is not chosen, since the completion would not be refused otherwise
    have hnone : ((some j).filter fun j => j.status = .running && j.attempts = r.attempts) =
        none := by
      rw [Option.filter_some]
      refine if_neg fun hp => ?_
      rw [Bool.and_eq_true, decide_eq_true_eq, decide_eq_true_eq] at hp
      simp only [hp, ne_eq, not_true_eq_false, if_false] at he
      cases he
    rw [hnone] at hfind
    simp only [Option.map_none] at hfind
    simp only [Table.complete, hfind, refusal, hget, Job.readFound]
    refine ⟨trivial, ?_⟩
    cases hr : j.readWith Payload.reread with
    | error e' => rfl
    | ok k =>
      obtain ⟨p, -, rfl⟩ := Job.readWith_eq_ok.mp hr
      simp only [Except.map, Except.bind]
      by_cases running : j.status = .running
      · simp only [running, ne_eq, not_true_eq_false, if_false] at he ⊢
        split at he
        · exact he
        · cases he
      · simp only [running, ne_eq, not_false_eq_true, if_true] at he ⊢
        exact he

/-- A recovery. Its answer reads the recovered jobs from their rows. -/
theorem Holds.recoverStale (h : t.Holds m) (hm : m.Sound) (staleBefore now : Instant) :
    ∃ t', t.recoverStale staleBefore now =
      ((readAll ((((m.jobs.toList.filter (Memory.isStale staleBefore.floor)).map
        Row.ofJob).mergeSort Row.dueBefore).map (Row.interrupt now.millis))).map
          fun js => js.mergeSort recoveredBefore, t') ∧
      t'.Holds (m.recoverStale staleBefore.floor now.floor).2 := by
  have hstale : ∀ j ∈ m.jobs.toList, Table.isStale staleBefore.millis (Row.ofJob j) =
      Memory.isStale staleBefore.floor j := fun j hj => Row.isStale_ofJob (h.whole j hj) staleBefore
  obtain ⟨t', ht', hholds⟩ := h.update (Row.id_interrupt now.millis) (Job.id_interrupt now.floor)
    hstale fun j hj hq => by
      have running := Job.status_of_isStale hq
      exact ⟨Row.interrupt_ofJob ((hm j hj).attempts_lt running) now, (h.whole j hj).interrupt now,
        (hm j hj).interrupt now.floor running⟩
  refine ⟨t', ?_, hholds⟩
  simp only [Table.recoverStale, ht', h.filter hstale]

/-- A purge. -/
theorem Holds.purgeSucceeded (h : t.Holds m) (olderThan : Instant) :
    (t.purgeSucceeded olderThan).1 = (m.purgeSucceeded olderThan.floor).1 ∧
      (t.purgeSucceeded olderThan).2.Holds (m.purgeSucceeded olderThan.floor).2 := by
  have hold : ∀ j ∈ m.jobs.toList, Table.isPurgeable olderThan.millis (Row.ofJob j) =
      Memory.isPurgeable olderThan.floor j := fun j hj =>
    Row.isPurgeable_ofJob (h.whole j hj) olderThan
  refine ⟨?_, ?_, fun j hj => h.whole j (List.mem_filter.mp hj).1⟩
  · simp only [Table.purgeSucceeded, Memory.purgeSucceeded, h.filter hold, List.length_map]
  · simp only [Table.purgeSucceeded, Table.delete, Memory.purgeSucceeded, Keyed.toList_filter]
    exact h.filter fun j hj => congrArg Bool.not (hold j hj)

/-- **The table is a ledger.** -/
instance : Ledger Table where
  start := .empty
  round := Instant.floor
  reread := Payload.reread
  Keeps := Holds
  keeps_start := holds_empty
  keeps_enqueue := by
    intro t m n h _ hn hmax
    obtain ⟨t', ht', hholds⟩ := h.enqueue hn hmax
    exact ⟨congrArg Prod.fst ht', (congrArg Prod.snd ht').symm ▸ hholds⟩
  dueJobs_state _ _ _ _ := rfl
  keeps_claim i now h hm := h.claim hm i now
  keeps_complete r d now _ h hm hfits hk := h.complete hm hfits hk
  refuses_complete r d now _ h _ he := h.refuses_complete he
  get_eq i h _ := congrArg (·, _) (h.get_eq i)
  counts_state _ := rfl
  deadLetters_state _ _ := rfl
  keeps_recoverStale := by
    intro t m staleBefore now h hm
    obtain ⟨t', ht', hholds⟩ := h.recoverStale hm staleBefore now
    exact (congrArg Prod.snd ht').symm ▸ hholds
  keeps_purgeSucceeded olderThan h _ := (h.purgeSucceeded olderThan).2

end Table

end SyncJobs
