import Mathlib.Data.List.Forall2
import SyncJobs.Proofs.JsonText
import SyncJobs.Proofs.Shadow
import SyncJobs.Proofs.Tracking
import SyncJobs.Proofs.Window

/-!
# The table refines the store in memory

Make the same calls to the table and to the store in memory, to the latter at times without the
parts behind whole milliseconds. If payloads hold no floats and are not nested too deep, then the
answers are the same, call by call (`StoreCall.Agree`), and the database refuses nothing.

`Table.Holds` carries the proof. What it does not say is shown here: with payloads that are read
back, whole answers are the same, and a table holds the jobs of one store only (`Holds.unique`).
So the store in memory that a history tracks is the one that the same calls lead to.
-/

namespace SyncJobs

/-! ## Payloads that are read back -/

/-- **A payload that is read back as it was:** no floats, and at most 127 levels. -/
structure Payload.IsPlain (p : Payload) : Prop where
  floatFree : p.value.isFloatFree
  nested : p.value.nesting ≤ 127

theorem Payload.IsPlain.reread {p : Payload} (h : p.IsPlain) : p.reread = .ok p := by
  rw [Payload.reread, Row.readPayload, Json.parse?_compact h.floatFree h.nested]
  exact congrArg Except.ok p.ofJson_value

/-- A payload is not read back exactly if it is nested too deep. -/
theorem Payload.reread_fails_iff {p : Payload} (h : p.value.floatsFit) :
    (∃ e, p.reread = .error e) ↔ Json.maxDepth < p.value.nesting := by
  rw [reread, Row.readPayload, Json.parse?_compact_eq h]
  by_cases hdeep : p.value.nesting ≤ Json.maxDepth
  · simp [hdeep]
  · simp [hdeep, Nat.lt_of_not_le hdeep]

/-- The plain job with nested arrays as its payload. -/
def NewJob.nested (n : Nat) : NewJob := { NewJob.plain with payload := .nested n }

theorem NewJob.reread_nested_fails_iff {n : Nat} :
    (∃ e, (nested n).payload.reread = .error e) ↔ Json.maxDepth < n := by
  have hfit : (nested n).payload.value.floatsFit := Json.floatsFit_nested n
  have hnesting : (nested n).payload.value.nesting = n := Json.nesting_nested n
  rw [Payload.reread_fails_iff hfit, hnesting]

/-- A job with a plain payload is read as it is. -/
theorem Job.readWith_of_isPlain {j : Job} (h : j.payload.IsPlain) :
    j.readWith Payload.reread = .ok j :=
  Job.readWith_eq_ok.mpr ⟨j.payload, h.reread, rfl⟩

theorem Job.readFound_of_isPlain {found : Option Job}
    (h : ∀ j, found = some j → j.payload.IsPlain) :
    Job.readFound Payload.reread found = .ok found := by
  cases found with
  | none => rfl
  | some j => exact congrArg (Except.map some) (Job.readWith_of_isPlain (h j rfl))

/-- All payloads of a store are plain. -/
def Memory.Plain (m : Memory) : Prop := ∀ i j, m.jobs.get? i = some j → j.payload.IsPlain

theorem Memory.Plain.of_mem {m : Memory} (h : m.Plain) {j : Job} (hj : j ∈ m.jobs.toList) :
    j.payload.IsPlain :=
  h j.id j (Keyed.get?_key hj)

/-- Steps keep payloads plain. -/
theorem Ledger.Step.plain {σ : Type} [Ledger σ] {e : Exchange σ} {m m' : Memory}
    (h : Ledger.Step e m m') (hm : m.Plain) (hc : ∀ n, e.call = .enqueue n → n.payload.IsPlain) :
    m'.Plain :=
  fun i => (h.change i).payload (hm i) hc

/-! ## Answers of the table -/

namespace Table

variable {t : Table} {m : Memory}

/-- Rows of whole jobs with plain payloads are read as these jobs. -/
theorem readAll_map {js : List Job} (hw : ∀ j ∈ js, j.IsWhole) (hp : ∀ j ∈ js, j.payload.IsPlain) :
    readAll (js.map Row.ofJob) = .ok js := by
  induction js with
  | nil => rfl
  | cons j js ih =>
    have hj : (Row.ofJob j).toJob? = .ok j := by
      rw [Row.toJob?_ofJob (hw j List.mem_cons_self)]
      exact Job.readWith_of_isPlain (hp j List.mem_cons_self)
    have hjs := ih (fun k hk => hw k (List.mem_cons_of_mem _ hk))
      (fun k hk => hp k (List.mem_cons_of_mem _ hk))
    rw [readAll] at hjs
    rw [readAll, List.map_cons, List.mapM_cons, hj, hjs]
    rfl

/-- **A table holds the jobs of one store only,** if their payloads are plain. -/
theorem Holds.unique {m' : Memory} (h : t.Holds m) (h' : t.Holds m') (hp : m.Plain)
    (hp' : m'.Plain) : m = m' := by
  have hread := readAll_map h.whole fun _ hj => hp.of_mem hj
  have hread' := readAll_map h'.whole fun _ hj => hp'.of_mem hj
  rw [← h.rows] at hread
  rw [← h'.rows, hread] at hread'
  obtain ⟨jobs⟩ := m
  obtain ⟨jobs'⟩ := m'
  exact congrArg Memory.mk (Keyed.ext (Except.ok.inj hread'))

/-- A limit that no list of rows reaches changes nothing. -/
theorem take_min_largest {α : Type} {l : List α} (h : l.length ≤ largest) (limit : Nat) :
    l.take (limit.min largest) = l.take limit := by
  have htake := List.take_take (i := limit) (j := largest) (l := l)
  rw [List.take_of_length_le h] at htake
  exact htake.symm

/-- Places of rows are the places of their jobs. -/
theorem rankIn_map {jobs : List Job} (hw : ∀ j ∈ jobs, j.IsWhole) {j : Job} (hj : j ∈ jobs) :
    rankIn (jobs.map Row.ofJob) (Row.ofJob j) = Job.placeIn jobs j := by
  rw [rankIn, List.filter_map, List.length_map, Job.placeIn]
  refine congrArg List.length (List.filter_congr fun k hk => ?_)
  simp only [Function.comp, Row.precedes_ofJob (hw k hk) (hw j hj), Row.account_ofJob,
    Id.storage_inj]

/-- **The due rows to look at** are the rows of the due jobs to look at. -/
theorem Holds.dueRows (h : t.Holds m) (hfits : t.rows.toList.length ≤ largest) (now : Instant)
    (limit : Nat) (cap : Option Nat) :
    t.dueRows now.millis limit cap = (m.dueJobs now.floor limit cap).map Row.ofJob := by
  let due := m.jobs.toList.filter fun j => j.isDue now.floor
  have hdue : t.rows.toList.filter (Table.isDue now.millis) = due.map Row.ofJob :=
    h.filter fun j hj => Row.isDue_ofJob (h.whole j hj) now
  have hwhole : ∀ j ∈ due, j.IsWhole := fun j hj => h.whole j (List.mem_filter.mp hj).1
  have hlength : due.length ≤ largest := by
    have hle : due.length ≤ m.jobs.toList.length := List.length_filter_le _ _
    rw [h.rows, List.length_map] at hfits
    exact Nat.le_trans hle hfits
  have hids : (due.map Job.id).Nodup := m.jobs.nodup.sublist (List.filter_sublist.map _)
  have hranked : (due.map Row.ofJob).filter
      (fun r => rankIn (due.map Row.ofJob) r ≤ (cap.getD largest).min largest) =
      (due.filter fun j => cap.all fun c => Job.placeIn due j ≤ c).map Row.ofJob := by
    rw [List.filter_map]
    refine congrArg _ (List.filter_congr fun j hj => ?_)
    -- no place is beyond the largest number, so that only the cap counts
    have hplace := Nat.le_trans (Job.placeIn_le_length due j) hlength
    rw [Function.comp_apply, rankIn_map hwhole hj]
    cases cap with
    | none => simp [hplace]
    | some c => simp [hplace]
  have hsort : ∀ jobs : List Job, (∀ j ∈ jobs, j.IsWhole) →
      (jobs.map Row.ofJob).mergeSort Row.precedes = (jobs.mergeSort Job.precedes).map Row.ofJob :=
    fun jobs hjobs => (List.map_mergeSort fun a ha b hb =>
      (Row.precedes_ofJob (hjobs a ha) (hjobs b hb)).symm).symm
  have hle : ((due.filter fun j => cap.all fun c => Job.placeIn due j ≤ c).mergeSort
      Job.precedes).length ≤ largest := by
    rw [List.length_mergeSort]
    exact Nat.le_trans (List.length_filter_le _ _) hlength
  simp only [Table.dueRows, hdue, hranked]
  rw [hsort _ fun j hj => hwhole j (List.mem_filter.mp hj).1, ← List.map_take,
    take_min_largest hle, ← takeWindow_eq hids limit]
  rfl

/-- Jobs of a window are jobs of the list. -/
theorem mem_of_mem_takeWindow {limit : Nat} {cap : Option Nat} {taken : List AccountId}
    {l : List Job} {j : Job} (h : j ∈ takeWindow limit cap taken l) : j ∈ l := by
  induction l generalizing taken with
  | nil => exact h
  | cons k l ih =>
    rw [takeWindow] at h
    split at h
    · cases h
    · split at h
      · exact List.mem_cons_of_mem _ (ih h)
      · rcases List.mem_cons.mp h with rfl | h
        · exact List.mem_cons_self
        · exact List.mem_cons_of_mem _ (ih h)

theorem Holds.dueJobs (h : t.Holds m) (hp : m.Plain) (hfits : t.rows.toList.length ≤ largest)
    (now : Instant) (limit : Nat) (cap : Option Nat) :
    JobStore.dueJobs now limit cap t = (.ok (m.dueJobs now.floor limit cap), t) := by
  have hmem : ∀ j ∈ m.dueJobs now.floor limit cap, j ∈ m.jobs.toList := fun j hj =>
    (List.mem_filter.mp (List.mem_mergeSort.mp (mem_of_mem_takeWindow hj))).1
  refine Prod.ext ?_ rfl
  show readAll (t.dueRows now.millis limit cap) = _
  rw [h.dueRows hfits now limit cap]
  exact readAll_map (fun j hj => h.whole j (hmem j hj)) fun j hj => hp.of_mem (hmem j hj)

theorem Holds.counts (h : t.Holds m) : t.counts = .ok m.counts := by
  have hread : ∀ jobs : List Job, ((jobs.map Row.ofJob).mapM fun r =>
      Row.readName "<aggregate>" .status Status.ofName? r.status) =
      .ok (jobs.map Job.status) := by
    intro jobs
    induction jobs with
    | nil => rfl
    | cons j jobs ih =>
      rw [List.map_cons, List.mapM_cons, ih]
      simp only [Row.ofJob, Row.readName, Status.ofName?_name]
      rfl
  rw [Table.counts, h.rows, hread]
  rfl

theorem Holds.deadLetters (h : t.Holds m) (hp : m.Plain)
    (hfits : t.rows.toList.length ≤ largest) (limit : Nat) :
    t.deadLetters limit = .ok (m.deadLetters limit) := by
  let dead := m.jobs.toList.filter fun j => j.status = .deadLetter
  have hdead : t.rows.toList.filter (fun r => r.status = Status.deadLetter.name) =
      dead.map Row.ofJob :=
    h.filter fun j _ => by simp only [Row.ofJob, Status.name_inj]
  have hmem : ∀ j ∈ dead, j ∈ m.jobs.toList := fun j hj => (List.mem_filter.mp hj).1
  have hsort : (dead.map Row.ofJob).mergeSort Row.newerFirst =
      (dead.mergeSort Job.newerFirst).map Row.ofJob :=
    (List.map_mergeSort fun a ha b hb =>
      (Row.newerFirst_ofJob (h.whole a (hmem a ha)) (h.whole b (hmem b hb))).symm).symm
  have hle : (dead.mergeSort Job.newerFirst).length ≤ largest := by
    rw [h.rows, List.length_map] at hfits
    rw [List.length_mergeSort]
    exact Nat.le_trans (List.length_filter_le _ _) hfits
  have hmem' : ∀ j ∈ (dead.mergeSort Job.newerFirst).take limit, j ∈ m.jobs.toList := fun j hj =>
    hmem j (List.mem_mergeSort.mp (List.mem_of_mem_take hj))
  rw [Table.deadLetters, hdead, hsort, ← List.map_take, take_min_largest hle]
  exact readAll_map (fun j hj => h.whole j (hmem' j hj)) fun j hj => hp.of_mem (hmem' j hj)

/-- A recovery answers with the jobs that it took back, in some order. -/
theorem Holds.recovered (h : t.Holds m) (hm : m.Sound) (hp : m.Plain)
    (staleBefore now : Instant) :
    ∃ js, (t.recoverStale staleBefore now).1 = .ok js ∧
      js.Perm (m.recoverStale staleBefore.floor now.floor).1 := by
  obtain ⟨t', ht', -⟩ := h.recoverStale hm staleBefore now
  let stale := m.jobs.toList.filter (Memory.isStale staleBefore.floor)
  -- the statement visits its rows by other keys than dispatch order has
  let order : Job → Job → Bool := fun a b => Row.dueBefore (Row.ofJob a) (Row.ofJob b)
  have hsort : (stale.map Row.ofJob).mergeSort Row.dueBefore =
      (stale.mergeSort order).map Row.ofJob :=
    (List.map_mergeSort (r := order) (s := Row.dueBefore) fun _ _ _ _ => rfl).symm
  have hmem : ∀ j ∈ stale.mergeSort order, j ∈ m.jobs.toList ∧ j.status = .running := by
    intro j hj
    obtain ⟨hj, hstale⟩ := List.mem_filter.mp (List.mem_mergeSort.mp hj)
    exact ⟨hj, Job.status_of_isStale hstale⟩
  have hrows : ((stale.mergeSort order).map Row.ofJob).map (Row.interrupt now.millis) =
      ((stale.mergeSort order).map (Job.interrupt now.floor)).map Row.ofJob := by
    rw [List.map_map, List.map_map]
    refine List.map_congr_left fun j hj => ?_
    exact Row.interrupt_ofJob ((hm j (hmem j hj).1).attempts_lt (hmem j hj).2) now
  have hread : readAll (((stale.map Row.ofJob).mergeSort Row.dueBefore).map
      (Row.interrupt now.millis)) =
      .ok ((stale.mergeSort order).map (Job.interrupt now.floor)) := by
    rw [hsort, hrows]
    refine readAll_map (fun k hk => ?_) fun k hk => ?_
    · obtain ⟨j, hj, rfl⟩ := List.mem_map.mp hk
      exact (h.whole j (hmem j hj).1).interrupt now
    · obtain ⟨j, hj, rfl⟩ := List.mem_map.mp hk
      show j.payload.IsPlain
      exact hp.of_mem (hmem j hj).1
  refine ⟨((stale.mergeSort order).map (Job.interrupt now.floor)).mergeSort recoveredBefore, ?_, ?_⟩
  · rw [congrArg Prod.fst ht', hread]
    rfl
  · refine (List.mergeSort_perm _ _).trans (List.Perm.trans ?_ (List.mergeSort_perm _ _).symm)
    exact (List.mergeSort_perm stale order).map _

/-! ### Claims one after the other -/

/-- A claim. -/
theorem Holds.claimed (h : t.Holds m) (hm : m.Sound) (hp : m.Plain) (i : JobId) (now : Instant) :
    (t.claim i now).1 = .ok (m.claim i now.floor).1 := by
  rw [(h.claim hm i now).1]
  refine Job.readFound_of_isPlain fun j hj => ?_
  rw [Memory.claim] at hj
  cases hk : m.jobs.get? i with
  | none => rw [hk] at hj; cases hj
  | some k =>
    rw [hk] at hj
    simp only at hj
    split at hj
    · obtain rfl := Option.some.inj hj
      exact hp i k hk
    · cases hj

/-- Claims one after the other. -/
theorem Holds.claimEach (h : t.Holds m) (hm : m.Sound) (hp : m.Plain) (now : Instant)
    (is : List JobId) :
    (JobStore.claimEach now is t).1 = (JobStore.claimEach now.floor is m).1 ∧
      (JobStore.claimEach now is t).2.Holds (JobStore.claimEach now.floor is m).2 := by
  induction is generalizing t m with
  | nil => exact ⟨rfl, h⟩
  | cons i is ih =>
    have hclaims := Memory.claims_claim i now.floor m
    have hp' : (m.claim i now.floor).2.Plain := by
      intro k
      have hch : Change Instant.floor k (.claimDue now 0) (m.jobs.get? k)
          ((m.claim i now.floor).2.jobs.get? k) := hclaims.change fun _ => rfl
      exact hch.payload (hp k) (by rintro _ ⟨⟩)
    -- both stores go on from there
    obtain ⟨hanswer, hholds⟩ := ih (h.claim hm i now).2 (Ledger.sound_of_claims hm hclaims) hp'
    have htable : JobStore.claim i now t = (.ok (m.claim i now.floor).1, (t.claim i now).2) :=
      Prod.ext (h.claimed hm hp i now) rfl
    have hmemory : JobStore.claim i now.floor m =
        (.ok (m.claim i now.floor).1, (m.claim i now.floor).2) := rfl
    rw [JobStore.claimEach_cons, JobStore.claimEach_cons, htable, hmemory]
    exact ⟨congrArg (Except.map _) hanswer, hholds⟩

end Table

/-! ## Agreement -/

/-- A call at times without the parts behind whole milliseconds. -/
def StoreCall.floor : StoreCall → StoreCall
  | enqueue n => enqueue (n.round Instant.floor)
  | dueJobs now limit cap => dueJobs now.floor limit cap
  | claim id now => claim id now.floor
  | claimDue now limit => claimDue now.floor limit
  | complete receipt d now => complete receipt (d.round Instant.floor) now.floor
  | get id => get id
  | counts => counts
  | deadLetters limit => deadLetters limit
  | recoverStale staleBefore now => recoverStale staleBefore.floor now.floor
  | purgeSucceeded olderThan => purgeSucceeded olderThan.floor

/-- **The answer of the table agrees with that of the store in memory.** The same answer, but for
two calls: a new job is handed back with its times in full, and recovered jobs stand in another
order. -/
def StoreCall.Agree (c : StoreCall) (a b : Except StoreError StoreAnswer) : Prop :=
  match c with
  | .enqueue _ => ∃ j k, a = .ok (.job j) ∧ b = .ok (.job k) ∧ j.floor = k
  | .recoverStale _ _ => ∃ js ks, a = .ok (.jobs js) ∧ b = .ok (.jobs ks) ∧ js.Perm ks
  | _ => a = b

/-- Without the parts behind whole milliseconds, a call respects the same. -/
theorem StoreCall.FitsIn.floor {c : StoreCall} {m : Memory} (h : c.FitsIn m) :
    c.floor.FitsIn m := by
  cases c with
  | enqueue n => exact ⟨h.fresh, h.fits⟩
  | complete r d now =>
    refine ⟨fresh_of_none rfl, fun i j hj running hr => ?_⟩
    rw [Job.Permits, Decision.nextStatus_round]
    exact h.fits i j hj running hr
  | dueJobs | claim | claimDue | get | counts | deadLetters | recoverStale | purgeSucceeded =>
    exact ⟨fresh_of_none rfl, fun _ => trivial⟩

/-- **Every call is answered alike,** and leaves the table holding the same jobs. -/
theorem Table.Holds.run {t : Table} {m : Memory} (h : t.Holds m) (hm : m.Sound) (hp : m.Plain)
    (hfits : t.rows.toList.length ≤ largest) {c : StoreCall} (hc : c.FitsIn m) :
    c.Agree (c.run t).1 (c.floor.run m).1 ∧ (c.run t).2.Holds (c.floor.run m).2 := by
  cases c with
  | enqueue n =>
    obtain ⟨t', ht', hholds⟩ := h.enqueue (hc.fresh n.id rfl) (hc.fits n.id)
    have hrun : (StoreCall.enqueue n).run t = (.ok (.job n.toPending), t') :=
      congrArg (fun r : Except StoreError Job × Table => (r.1.map StoreAnswer.job, r.2)) ht'
    rw [hrun]
    exact ⟨⟨_, _, rfl, rfl, rfl⟩, hholds⟩
  | dueJobs now limit cap =>
    have hdue := h.dueJobs hp hfits now limit cap
    have hrun : (StoreCall.dueJobs now limit cap).run t =
        (.ok (.jobs (m.dueJobs now.floor limit cap)), t) :=
      congrArg (fun r : Except StoreError (List Job) × Table =>
        (r.1.map StoreAnswer.jobs, r.2)) hdue
    rw [hrun]
    exact ⟨rfl, h⟩
  | claim i now =>
    exact ⟨congrArg (Except.map StoreAnswer.found) (h.claimed hm hp i now), (h.claim hm i now).2⟩
  | claimDue now limit =>
    have htable := JobStore.claimDue_eq now limit t
    rw [h.dueJobs hp hfits now limit none] at htable
    have hmemory : JobStore.claimDue now.floor limit m =
        JobStore.claimEach now.floor ((m.dueJobs now.floor limit none).map Job.id) m :=
      JobStore.claimDue_eq now.floor limit m
    obtain ⟨hanswer, hholds⟩ := h.claimEach hm hp now ((m.dueJobs now.floor limit none).map Job.id)
    simp only [StoreCall.run, StoreCall.floor, StoreCall.answering, htable, hmemory]
    exact ⟨congrArg (Except.map StoreAnswer.jobs) hanswer, hholds⟩
  | complete r d now =>
    cases hr : (m.complete r (d.round Instant.floor) now.floor).1 with
    | ok k =>
      obtain ⟨hanswer, hholds⟩ := h.complete hm (hc.fits r.job) hr
      obtain ⟨j, hj, -, -, rfl⟩ := Memory.complete_eq_ok hr
      have hplain : (j.settle (d.round Instant.floor) now.floor).payload.IsPlain := hp r.job j hj
      rw [Job.readWith_of_isPlain hplain] at hanswer
      exact ⟨congrArg (Except.map StoreAnswer.job) (hanswer.trans hr.symm), hholds⟩
    | error e =>
      obtain ⟨hstate, hanswer⟩ := h.refuses_complete hr
      rw [Job.readFound_of_isPlain (hp r.job)] at hanswer
      refine ⟨congrArg (Except.map StoreAnswer.job) (hanswer.trans hr.symm), ?_⟩
      have htable : ((StoreCall.complete r d now).run t).2 = t := hstate
      have hmemory : ((StoreCall.complete r d now).floor.run m).2 = m :=
        m.complete_state_of_error hr
      rw [htable, hmemory]
      exact h
  | get i =>
    have hget := (h.get_eq i).trans (Job.readFound_of_isPlain (hp i))
    exact ⟨congrArg (Except.map StoreAnswer.found) hget, h⟩
  | counts => exact ⟨congrArg (Except.map StoreAnswer.counts) h.counts, h⟩
  | deadLetters limit =>
    exact ⟨congrArg (Except.map StoreAnswer.jobs) (h.deadLetters hp hfits limit), h⟩
  | recoverStale staleBefore now =>
    obtain ⟨js, hjs, hperm⟩ := h.recovered hm hp staleBefore now
    obtain ⟨t', ht', hholds⟩ := h.recoverStale hm staleBefore now
    refine ⟨⟨js, _, congrArg (Except.map StoreAnswer.jobs) hjs, rfl, hperm⟩, ?_⟩
    exact (congrArg Prod.snd ht').symm ▸ hholds
  | purgeSucceeded olderThan =>
    obtain ⟨hanswer, hholds⟩ := h.purgeSucceeded olderThan
    exact ⟨congrArg (fun n => Except.ok (StoreAnswer.number n)) hanswer, hholds⟩

/-- In memory no call is refused by a database. -/
theorem Memory.run_ne_database (c : StoreCall) (m : Memory) (err : DatabaseError) :
    (c.run m).1 ≠ .error (.database err) := by
  have hclaims : ∀ now is m, ∃ js, (JobStore.claimEach (σ := Memory) now is m).1 = .ok js := by
    intro now is
    induction is with
    | nil => exact fun m => ⟨[], rfl⟩
    | cons i is ih =>
      intro m
      obtain ⟨js, hjs⟩ := ih (m.claim i now).2
      refine ⟨(m.claim i now).1.toList ++ js, ?_⟩
      rw [JobStore.claimEach_cons]
      exact congrArg (Except.map ((m.claim i now).1.toList ++ ·)) hjs
  intro h
  cases c with
  | claimDue now limit =>
    obtain ⟨js, hjs⟩ := hclaims now ((m.dueJobs now limit none).map Job.id) m
    have hrun : ((StoreCall.claimDue now limit).run m).1 = .ok (.jobs js) := by
      have hdue := JobStore.claimDue_eq now limit m
      exact congrArg (Except.map StoreAnswer.jobs) ((congrArg Prod.fst hdue).trans hjs)
    rw [hrun] at h
    cases h
  | complete r d now =>
    have hcomplete : (m.complete r d now).1 = .error (.database err) := by
      cases hc : (m.complete r d now).1 with
      | ok k =>
        have hrun : ((StoreCall.complete r d now).run m).1 = .ok (.job k) :=
          congrArg (Except.map StoreAnswer.job) hc
        rw [hrun] at h
        cases h
      | error e =>
        have hrun : ((StoreCall.complete r d now).run m).1 = .error e :=
          congrArg (Except.map StoreAnswer.job) hc
        rw [Except.error.inj (h.symm.trans hrun)]
    rw [Memory.complete] at hcomplete
    split at hcomplete
    · cases hcomplete
    · split at hcomplete
      · cases hcomplete
      · split at hcomplete <;> cases hcomplete
  | enqueue | dueJobs | claim | get | counts | deadLetters | recoverStale | purgeSucceeded =>
    cases h

/-- What agrees with an answer of the store in memory is no refusal by the database. -/
theorem StoreCall.Agree.ne_database {c : StoreCall} {a b : Except StoreError StoreAnswer}
    (h : c.Agree a b) {err : DatabaseError} (hb : b ≠ .error (.database err)) :
    a ≠ .error (.database err) := by
  cases c with
  | enqueue n =>
    obtain ⟨j, k, rfl, -⟩ := h
    rintro ⟨⟩
  | recoverStale staleBefore now =>
    obtain ⟨js, ks, rfl, -⟩ := h
    rintro ⟨⟩
  | dueJobs | claim | claimDue | complete | get | counts | deadLetters | purgeSucceeded =>
    exact fun ha => hb (Eq.trans (Eq.symm h) ha)

/-! ## Histories -/

/-- The exchanges of the store in memory at the same calls, at times without the parts behind
whole milliseconds. -/
def inMemory (past : List (Exchange Table)) : List (Exchange Memory) :=
  replay .empty (past.map fun e => e.call.floor)

/-- **A history of the table and the store in memory at its end.** -/
structure Mirrors (past : List (Exchange Table)) : Prop where
  tracks : Ledger.Tracks past (current .empty (inMemory past))
  plain : (current .empty (inMemory past)).Plain
  agree : List.Forall₂ (fun e e' => e.call.Agree e.answer e'.answer) past (inMemory past)

/-- **The step of the refinement.** -/
theorem Mirrors.step {past : List (Exchange Table)} (h : Mirrors past) {c : StoreCall}
    (hc : c.Allowed past) (hplain : ∀ n, c = .enqueue n → n.payload.IsPlain)
    (hfits : (current Table.empty past).rows.toList.length ≤ Table.largest) :
    Mirrors (⟨current Table.empty past, c⟩ :: past) := by
  have hfit := h.tracks.fitsIn hc
  have hholds : (current Table.empty past).Holds (current .empty (inMemory past)) := h.tracks.keeps
  obtain ⟨hagree, hafter⟩ := hholds.run h.tracks.sound h.plain hfits hfit
  -- the jobs that the table keeps afterwards, and those that the store in memory has
  obtain ⟨m, hs⟩ := Ledger.step (σ := Table) h.tracks.keeps h.tracks.sound c hfit
  obtain ⟨m', hs'⟩ := Ledger.step (σ := Memory) rfl h.tracks.sound c.floor hfit.floor
  obtain rfl : (c.floor.run (current .empty (inMemory past))).2 = m' := hs'.keeps
  have hplain' : ∀ n, c.floor = .enqueue n → n.payload.IsPlain := by
    intro n hn
    cases c with
    | enqueue n' =>
      obtain rfl := StoreCall.enqueue.inj hn
      exact hplain n' rfl
    | dueJobs | claim | claimDue | complete | get | counts | deadLetters | recoverStale
      | purgeSucceeded => cases hn
  have hafter' := hs'.plain h.plain hplain'
  have hkeeps : ((⟨current Table.empty past, c⟩ : Exchange Table).after).Holds m := hs.keeps
  obtain rfl := hkeeps.unique hafter (hs.plain h.plain hplain) hafter'
  exact ⟨h.tracks.step hc hs, hafter', .cons hagree h.agree⟩

/-- A table has no more rows than calls were made. -/
theorem length_rows_le {past : List (Exchange Table)} (h : History Table.empty past) :
    (current Table.empty past).rows.toList.length ≤ past.length := by
  obtain ⟨m, hm⟩ := h.tracks
  have hholds : (current Table.empty past).Holds m := hm.keeps
  have hsub : m.jobs.toList.map Job.id ⊆ newIds past := by
    intro i hi
    obtain ⟨j, hj, rfl⟩ := List.mem_map.mp hi
    exact hm.known j.id j (Keyed.get?_key hj)
  have hle := m.jobs.nodup.length_le_of_subset hsub
  rw [List.length_map] at hle
  rw [hholds.rows, List.length_map]
  exact Nat.le_trans hle (List.length_filterMap_le _ _)

/-- So the rows can be counted as long as the calls can be. -/
theorem rows_fit {past : List (Exchange Table)} (h : History Table.empty past)
    (hpast : past.length ≤ Table.largest) :
    ∀ e ∈ past, e.before.rows.toList.length ≤ Table.largest := by
  induction h with
  | nil => exact fun e he => absurd he List.not_mem_nil
  | step h c hc ih =>
    intro e he
    rw [List.length_cons] at hpast
    rcases List.mem_cons.mp he with rfl | he
    · exact Nat.le_trans (length_rows_le h) (Nat.le_of_succ_le hpast)
    · exact ih (Nat.le_of_succ_le hpast) e he

/-- Where all answers agree, the database refuses nothing. -/
theorem ne_database_of_agree {past : List (Exchange Table)} {past' : List (Exchange Memory)}
    (h : List.Forall₂ (fun e e' => e.call.Agree e.answer e'.answer) past past')
    (hpast' : ∀ e' ∈ past', ∀ err, e'.answer ≠ .error (.database err)) :
    ∀ e ∈ past, ∀ err, e.answer ≠ .error (.database err) := by
  induction h with
  | nil => exact fun e he => absurd he List.not_mem_nil
  | cons hagree _ ih =>
    intro e he err
    rcases List.mem_cons.mp he with rfl | he
    · exact hagree.ne_database (hpast' _ List.mem_cons_self err)
    · exact ih (fun e' he' => hpast' e' (List.mem_cons_of_mem _ he')) e he err

/-- **The table refines the store in memory.** In every history with plain payloads all answers
agree with those of the store in memory, and the database refuses nothing. The database numbers the
rows of a table by signed numbers of 64 bits, so there are never more rows than these can count. -/
theorem table_refines_memory {past : List (Exchange Table)} (h : History Table.empty past)
    (hplain : ∀ e ∈ past, ∀ n, e.call = .enqueue n → n.payload.IsPlain)
    (hfits : ∀ e ∈ past, e.before.rows.toList.length ≤ Table.largest) :
    List.Forall₂ (fun e e' => e.call.Agree e.answer e'.answer) past (inMemory past) ∧
      ∀ e ∈ past, ∀ err, e.answer ≠ .error (.database err) := by
  have hmirrors : Mirrors past := by
    induction h with
    | nil => exact ⟨Ledger.tracks_nil, by rintro _ _ ⟨⟩, .nil⟩
    | step _ c hc ih =>
      have hm := ih (fun e he => hplain e (List.mem_cons_of_mem _ he))
        fun e he => hfits e (List.mem_cons_of_mem _ he)
      exact hm.step hc (hplain _ List.mem_cons_self) (hfits _ List.mem_cons_self)
  refine ⟨hmirrors.agree, ne_database_of_agree hmirrors.agree fun e' _ err => ?_⟩
  exact Memory.run_ne_database e'.call e'.before err

/-- A plain job is stored, claimed and done in the table as it is in memory. -/
theorem plain_attempt_is_mirrored :
    List.Forall₂ (fun e e' => e.call.Agree e.answer e'.answer)
        (replay Table.empty (firstAttempt .plain .epoch 1))
        (inMemory (replay Table.empty (firstAttempt .plain .epoch 1))) ∧
      ∀ e ∈ replay Table.empty (firstAttempt .plain .epoch 1), ∀ err,
        e.answer ≠ .error (.database err) := by
  have history : History Table.empty (replay Table.empty (firstAttempt .plain .epoch 1)) :=
    History.firstAttempt 1 (by decide) (by decide) rfl
  refine table_refines_memory history ?_ (rows_fit history (by decide))
  rintro e he n hn
  simp only [firstAttempt, replay, List.mem_cons, List.not_mem_nil, or_false] at he
  rcases he with rfl | rfl | rfl
  · cases hn
  · cases hn
  · obtain rfl := StoreCall.enqueue.inj hn
    exact ⟨rfl, by decide⟩

end SyncJobs
