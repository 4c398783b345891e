import SyncJobs.Proofs.Recovery

/-!
# New jobs arrive

The two stores take a new job differently if its id is stored already (`new_jobs_arrive`). The table
refuses it and stays as it is; a job that it accepts is one row more behind all others. The store in
memory accepts every new job, and a job with the same id gives way to it, even one that is being
worked on (`a_running_job_gives_way`).

So the jobs of the table are those that were stored less those that were purged. Of the store in
memory this is true only if the jobs that gave way are taken off as well. Both is one law on the
calls of a `Census` (`Census.population_replay`).
-/

namespace SyncJobs

/-! ## What an exchange brings and takes -/

/-- Whether no job has an id. -/
def JobStore.isFree {σ : Type} [JobStore σ] (s : σ) (i : JobId) : Bool :=
  match peek s i with
  | .ok none => true
  | _ => false

namespace Exchange

variable {σ : Type} [JobStore σ]

/-- How many jobs were accepted. -/
def accepted (e : Exchange σ) : Nat :=
  match e.call, e.answer with
  | .enqueue _, .ok _ => 1
  | _, _ => 0

/-- How many jobs were purged. -/
def purged (e : Exchange σ) : Nat :=
  match e.call, e.answer with
  | .purgeSucceeded _, .ok (.number k) => k
  | _, _ => 0

/-- How many jobs gave way to one that was accepted under their id. -/
def displaced (e : Exchange σ) : Nat :=
  match e.call, e.answer with
  | .enqueue n, .ok _ => if JobStore.isFree e.before n.id then 0 else 1
  | _, _ => 0

end Exchange

/-! ## Stores whose jobs are counted -/

/-- **A store with a number of jobs.** New jobs and purges change the number, and nothing else. -/
class Census (σ : Type) extends Custodian σ where
  /-- how many jobs are stored -/
  population : σ → Nat
  /-- a job is refused, or there is one job more, unless another one gave way -/
  population_enqueue (n : NewJob) (s : σ) : (∃ e, enqueue n s = (.error e, s)) ∨
    ∃ s', enqueue n s = (.ok n.toPending, s') ∧
      population s' + (if JobStore.isFree s n.id then 0 else 1) = population s + 1
  population_claim (i : JobId) (now : Instant) (s : σ) :
    population (claim i now s).2 = population s
  population_complete (r : Receipt) (d : Decision) (now : Instant) (s : σ) :
    population (complete r d now s).2 = population s
  get_same (i : JobId) (s : σ) : (get i s).2 = s
  /-- the counts add up to all jobs -/
  counts_total (s : σ) : ∃ c, counts s = (.ok c, s) ∧ c.total = population s
  deadLetters_same (limit : Nat) (s : σ) : (deadLetters limit s).2 = s
  population_recoverStale (staleBefore now : Instant) (s : σ) :
    population (recoverStale staleBefore now s).2 = population s
  /-- the answer to a purge is how many jobs there are less -/
  population_purgeSucceeded (olderThan : Instant) (s : σ) : ∃ k s',
    purgeSucceeded olderThan s = (.ok k, s') ∧ population s' + k = population s

namespace Census

variable {σ : Type} [Census σ]

theorem population_claimEach (now : Instant) (is : List JobId) (s : σ) :
    population (JobStore.claimEach now is s).2 = population s := by
  induction is generalizing s with
  | nil => rfl
  | cons i is ih =>
    have hclaim := population_claim i now s
    rw [JobStore.claimEach_cons]
    revert hclaim
    cases JobStore.claim i now s with
    | mk answer s' =>
      intro hclaim
      cases answer with
      | error e => exact hclaim
      | ok found => exact (ih s').trans hclaim

theorem population_claimDue (now : Instant) (limit : Nat) (s : σ) :
    population (JobStore.claimDue now limit s).2 = population s := by
  have hsame := Custodian.dueJobs_same now limit none s
  rw [JobStore.claimDue_eq]
  revert hsame
  cases JobStore.dueJobs now limit none s with
  | mk answer s' =>
    rintro rfl
    cases answer with
    | error e => rfl
    | ok js => exact population_claimEach now (js.map Job.id) s'

/-- **What one call brings and takes.** -/
theorem population_run (c : StoreCall) (s : σ) :
    population (Exchange.mk s c).after + (Exchange.mk s c).purged + (Exchange.mk s c).displaced =
      population s + (Exchange.mk s c).accepted := by
  cases c with
  | enqueue n =>
    obtain ⟨e, hrefused⟩ | ⟨s', hdone, hpopulation⟩ := population_enqueue n s
    · simp only [Exchange.after, Exchange.purged, Exchange.displaced, Exchange.accepted,
        Exchange.answer, StoreCall.run, StoreCall.answering, hrefused, Except.map]
    · simp only [Exchange.after, Exchange.purged, Exchange.displaced, Exchange.accepted,
        Exchange.answer, StoreCall.run, StoreCall.answering, hdone, Except.map]
      exact hpopulation
  | dueJobs now limit cap => exact congrArg population (Custodian.dueJobs_same now limit cap s)
  | claim i now => exact population_claim i now s
  | claimDue now limit => exact population_claimDue now limit s
  | complete r d now => exact population_complete r d now s
  | get i => exact congrArg population (get_same i s)
  | counts =>
    obtain ⟨c, hcounts, -⟩ := counts_total s
    exact congrArg population (congrArg Prod.snd hcounts)
  | deadLetters limit => exact congrArg population (deadLetters_same limit s)
  | recoverStale staleBefore now => exact population_recoverStale staleBefore now s
  | purgeSucceeded olderThan =>
    obtain ⟨k, s', hdone, hpopulation⟩ := population_purgeSucceeded olderThan s
    simp only [Exchange.after, Exchange.purged, Exchange.displaced, Exchange.accepted,
      Exchange.answer, StoreCall.run, StoreCall.answering, hdone, Except.map]
    exact hpopulation

/-- **What calls bring and take,** one after the other. -/
theorem population_replay (s : σ) (calls : List StoreCall) :
    population (current s (replay s calls)) + ((replay s calls).map Exchange.purged).sum +
        ((replay s calls).map Exchange.displaced).sum =
      population s + ((replay s calls).map Exchange.accepted).sum := by
  induction calls with
  | nil => rfl
  | cons c calls ih =>
    have hrun := population_run c (current s (replay s calls))
    simp only [replay, List.map_cons, List.sum_cons]
    rw [current]
    omega

/-- The counts after calls, as a sum. -/
theorem total_replay {s : σ} (h : population s = 0) (calls : List StoreCall) :
    ∃ c, (JobStore.counts (current s (replay s calls))).1 = .ok c ∧
      c.total + ((replay s calls).map Exchange.purged).sum +
        ((replay s calls).map Exchange.displaced).sum =
          ((replay s calls).map Exchange.accepted).sum := by
  obtain ⟨c, hcounts, htotal⟩ := counts_total (current s (replay s calls))
  have hreplay := population_replay s calls
  exact ⟨c, congrArg Prod.fst hcounts, by omega⟩

end Census

/-- Counts of statuses add up to their number. -/
theorem Counts.total_ofStatuses (l : List Status) : (ofStatuses l).total = l.length := by
  have hsum : ∀ (l : List Status) (c : Counts),
      (l.foldl (fun c s => c.add 1 s) c).total = c.total + l.length := by
    intro l
    induction l with
    | nil => exact fun c => rfl
    | cons s l ih =>
      intro c
      have hadd : (c.add 1 s).total = c.total + 1 := by
        cases s <;> simp only [add, total] <;> omega
      rw [List.foldl_cons, ih, hadd, List.length_cons]
      omega
  exact (hsum l {}).trans (Nat.zero_add _)

/-! ## The store in memory -/

/-- A key is carried by one item, or by none. -/
theorem Keyed.length_filter_ne {α κ : Type} {key : α → κ} [DecidableEq κ] (c : Keyed key) (k : κ) :
    (c.toList.filter fun a => key a ≠ k).length + (if (c.get? k).isNone then 0 else 1) =
      c.toList.length := by
  have hcount : c.toList.countP (fun a => key a = k) = (c.toList.map key).count k := by
    rw [List.count, List.countP_map]
    exact List.countP_congr fun a _ => by simp
  have hsplit := List.length_eq_countP_add_countP (fun a => decide (key a = k)) (l := c.toList)
  simp only [decide_eq_true_eq] at hsplit
  rw [← List.countP_eq_length_filter, hsplit, hcount, Nat.add_comm]
  congr 1
  split
  · rename_i hnone
    refine (List.count_eq_zero_of_not_mem fun hk => ?_).symm
    obtain ⟨a, ha, rfl⟩ := List.mem_map.mp hk
    exact Keyed.get?_eq_none_iff.mp (Option.isNone_iff_eq_none.mp hnone) a ha rfl
  · rename_i hsome
    obtain ⟨a, ha⟩ := Option.ne_none_iff_exists'.mp (mt Option.isNone_iff_eq_none.mpr hsome)
    obtain ⟨hmem, rfl⟩ := Keyed.get?_eq_some_iff.mp ha
    exact (List.count_eq_one_of_mem c.nodup (List.mem_map_of_mem hmem)).symm

theorem Memory.isFree_eq (m : Memory) (i : JobId) :
    JobStore.isFree m i = (m.jobs.get? i).isNone := by
  have hpeek : JobStore.peek m i = .ok (m.jobs.get? i) := rfl
  rw [JobStore.isFree, hpeek]
  cases m.jobs.get? i <;> rfl

/-- A new job leaves all others where they are exactly if its id is free. -/
theorem Memory.enqueue_keeps_iff (n : NewJob) (m : Memory) :
    (m.enqueue n).jobs.toList = m.jobs.toList ++ [n.toPending] ↔ m.jobs.get? n.id = none := by
  rw [Memory.enqueue, Keyed.toList_insert, List.append_left_inj, List.filter_eq_self,
    Keyed.get?_eq_none_iff]
  exact forall₂_congr fun j _ => decide_eq_true_iff

namespace Memory

/-! Purges take jobs away, and all operations but these and new jobs keep their number. -/

theorem length_claim (i : JobId) (now : Instant) (m : Memory) :
    (m.claim i now).2.jobs.toList.length = m.jobs.toList.length := by
  rw [claim_eq]
  dsimp only
  split
  · rw [modify, Keyed.toList_update, List.length_map]
  · rfl

theorem length_complete (r : Receipt) (d : Decision) (now : Instant) (m : Memory) :
    (m.complete r d now).2.jobs.toList.length = m.jobs.toList.length := by
  rw [complete]
  split
  · rfl
  · split
    · rfl
    · split
      · rfl
      · rw [modify, Keyed.toList_update, List.length_map]

theorem length_recoverStale (staleBefore now : Instant) (m : Memory) :
    (m.recoverStale staleBefore now).2.jobs.toList.length = m.jobs.toList.length := by
  rw [recoverStale, Keyed.toList_update, List.length_map]

theorem length_purgeSucceeded (olderThan : Instant) (m : Memory) :
    (m.purgeSucceeded olderThan).2.jobs.toList.length + (m.purgeSucceeded olderThan).1 =
      m.jobs.toList.length := by
  have hsplit := List.length_eq_length_filter_add (l := m.jobs.toList) (isPurgeable olderThan)
  rw [purgeSucceeded, Keyed.toList_filter]
  omega

end Memory

instance : Census Memory where
  population m := m.jobs.toList.length
  population_enqueue n m := by
    refine .inr ⟨m.enqueue n, rfl, ?_⟩
    have hothers := m.jobs.length_filter_ne n.id
    rw [Memory.enqueue, Keyed.toList_insert, List.length_append, List.length_singleton,
      Nat.add_right_comm, Memory.isFree_eq]
    exact congrArg (· + 1) hothers
  population_claim := Memory.length_claim
  population_complete := Memory.length_complete
  get_same _ _ := rfl
  counts_total m := ⟨m.counts, rfl, by rw [Memory.counts, Counts.total_ofStatuses, List.length_map]⟩
  deadLetters_same _ _ := rfl
  population_recoverStale := Memory.length_recoverStale
  population_purgeSucceeded olderThan m := ⟨_, _, rfl, m.length_purgeSucceeded olderThan⟩

/-! ## The table -/

namespace Table

variable {t : Table} {n : NewJob}

/-- The row of a new job breaks a rule if no attempt is allowed. -/
theorem rule?_ofNew (n : NewJob) :
    (Row.ofNew n).rule? = if n.maxAttempts = 0 then some .maxAttempts else none := by
  have hdomain : (Row.ofNew n).keeps .domain = true :=
    List.any_eq_true.mpr ⟨n.domain, Domain.mem_all n.domain, decide_eq_true rfl⟩
  have hstatus : (Row.ofNew n).keeps .status = true :=
    List.any_eq_true.mpr ⟨.pending, Status.mem_all .pending, decide_eq_true rfl⟩
  have hattempts : (Row.ofNew n).keeps .attempts = true := rfl
  have hceiling : (Row.ofNew n).keeps .ceiling = true :=
    decide_eq_true (Int.natCast_nonneg n.maxAttempts.toNat)
  have hmax : (Row.ofNew n).keeps .maxAttempts = decide (n.maxAttempts ≠ 0) := by
    rw [Row.keeps, decide_eq_decide, ne_eq, ← UInt32.toNat_inj, UInt32.toNat_zero]
    show (1 : Int) ≤ n.maxAttempts.toNat ↔ _
    omega
  rw [Row.rule?, Row.rules]
  by_cases hzero : n.maxAttempts = 0
  · simp [hdomain, hstatus, hattempts, hmax, hzero]
  · simp [hdomain, hstatus, hattempts, hmax, hceiling, hzero]

/-- **A new job is refused** exactly if no attempt is allowed or its id is stored. -/
theorem refuses_iff : (∃ e, t.enqueue n = (refused e, t)) ↔
    n.maxAttempts = 0 ∨ t.rows.contains n.id.storage := by
  have hrule := rule?_ofNew n
  rw [enqueue, insert, ← Row.id_ofNew]
  constructor
  · rintro ⟨e, he⟩
    by_contra hnot
    obtain ⟨hmax, hfree⟩ := not_or.mp hnot
    rw [if_neg hmax] at hrule
    split at he
    · rename_i hinsert
      split at hinsert
      · rename_i hbroken
        rw [hrule] at hbroken
        cases hbroken
      · rw [if_neg hfree] at hinsert
        cases hinsert
    · cases congrArg Prod.fst he
  · intro h
    split
    · exact ⟨_, rfl⟩
    · rename_i hinsert
      split at hinsert
      · cases hinsert
      · rename_i hkept
        rw [hrule] at hkept
        have hmax : n.maxAttempts ≠ 0 := fun hzero => by
          rw [if_pos hzero] at hkept
          cases hkept
        rw [if_pos (h.resolve_left hmax)] at hinsert
        cases hinsert

/-- A new job that is not refused is one row more, behind all others. -/
theorem enqueue_appends (n : NewJob) (t : Table) : (∃ e, t.enqueue n = (refused e, t)) ∨
    ∃ t', t.enqueue n = (.ok n.toPending, t') ∧ t.rows.get? n.id.storage = none ∧
      t'.rows.toList = t.rows.toList ++ [Row.ofNew n] := by
  obtain hrefused | ⟨t', hfree, hrows, hdone⟩ := t.enqueue_cases n
  · exact .inl hrefused
  · have hnone : t.rows.get? (Row.ofNew n).id = none := by
      rwa [Keyed.contains, Option.isSome_eq_false_iff, Option.isNone_iff_eq_none] at hfree
    refine .inr ⟨t', hdone, hnone, ?_⟩
    rw [hrows, Keyed.toList_insert, List.filter_eq_self.mpr fun r hr => ?_]
    exact decide_eq_true (Keyed.get?_eq_none_iff.mp hnone r hr)

theorem isFree_of_get? {i : JobId} (h : t.rows.get? i.storage = none) :
    JobStore.isFree t i = true := by
  have hpeek : JobStore.peek t i = .ok none := by
    show t.get i = _
    rw [get, h]
  rw [JobStore.isFree, hpeek]

/-! Purges take rows away, and all operations but these and new jobs keep their number. -/

theorem length_rows_complete (r : Receipt) (d : Decision) (now : Instant) (t : Table) :
    (t.complete r d now).2.rows.toList.length = t.rows.toList.length := by
  obtain ⟨e, hfails⟩ | ⟨_, t', -, -, hrows, -, hdone⟩ := t.complete_cases r d now
  · rw [hfails]
  · rw [hdone, hrows, Keyed.toList_update, List.length_map]

theorem length_rows_recoverStale (staleBefore now : Instant) (t : Table) :
    (t.recoverStale staleBefore now).2.rows.toList.length = t.rows.toList.length := by
  by_cases hfree : ∀ r ∈ t.stale staleBefore, r.attempts < r.maxAttempts
  · obtain ⟨t', hrows, hdone⟩ := recoverStale_granted now hfree
    rw [hdone, hrows, Keyed.toList_update, List.length_map]
  · rw [recoverStale_refused hfree]

theorem length_rows_purgeSucceeded (olderThan : Instant) (t : Table) :
    (t.purgeSucceeded olderThan).2.rows.toList.length + (t.purgeSucceeded olderThan).1 =
      t.rows.toList.length := by
  have hsplit := List.length_eq_length_filter_add (l := t.rows.toList)
    (isPurgeable olderThan.millis)
  rw [purgeSucceeded, delete, Keyed.toList_filter]
  omega

end Table

instance : Census Table where
  population t := t.rows.toList.length
  population_enqueue n t := by
    obtain ⟨e, hrefused⟩ | ⟨t', hdone, hnone, hrows⟩ := t.enqueue_appends n
    · exact .inl ⟨_, hrefused⟩
    · refine .inr ⟨t', hdone, ?_⟩
      rw [hrows, List.length_append, List.length_singleton, Table.isFree_of_get? hnone, if_pos rfl]
  population_claim _ _ _ := Table.length_rows_claim _
  population_complete := Table.length_rows_complete
  get_same _ _ := rfl
  counts_total t := by
    obtain ⟨statuses, hnames, hcounts⟩ := t.counts_eq
    refine ⟨_, congrArg (·, t) hcounts, ?_⟩
    have hlength := congrArg List.length hnames
    rw [List.length_map, List.length_map] at hlength
    rw [Counts.total_ofStatuses, hlength]
  deadLetters_same _ _ := rfl
  population_recoverStale := Table.length_rows_recoverStale
  population_purgeSucceeded olderThan t := ⟨_, _, rfl, t.length_rows_purgeSucceeded olderThan⟩

/-- Nothing gives way in the table. -/
theorem Table.displaced_eq_zero (e : Exchange Table) : e.displaced = 0 := by
  obtain ⟨t, c⟩ := e
  cases c with
  | enqueue n =>
    obtain ⟨e, hrefused⟩ | ⟨t', hdone, hnone, -⟩ := t.enqueue_appends n
    · have hanswer : (Exchange.mk t (.enqueue n)).answer = .error (.database e) :=
        congrArg (fun a => a.1.map StoreAnswer.job) hrefused
      simp only [Exchange.displaced, hanswer]
    · have hanswer : (Exchange.mk t (.enqueue n)).answer = .ok (.job n.toPending) :=
        congrArg (fun a => a.1.map StoreAnswer.job) hdone
      simp only [Exchange.displaced, hanswer, Table.isFree_of_get? hnone, if_true]
  | _ => rfl

/-! ## Arrivals -/

/-- **New jobs arrive.** Whatever it holds, the table refuses a new job and stays as it is, or has
one row more, behind all others and with them unchanged. It refuses a job exactly if no attempt is
allowed or its id is stored. The store in memory accepts every new job. It keeps all others exactly
if the id is free; else the new job takes the place of the one with its id. After any calls, the
counts of the table add up to the jobs that were accepted less those that were purged; in memory
the jobs that gave way go off as well. -/
theorem new_jobs_arrive (t : Table) (m : Memory) (n : NewJob) (calls : List StoreCall) :
    ((∃ e, JobStore.enqueue n t = (Table.refused e, t)) ↔
      n.maxAttempts = 0 ∨ t.rows.contains n.id.storage) ∧
    ((∃ e, JobStore.enqueue n t = (Table.refused e, t)) ∨
      ∃ t' : Table, JobStore.enqueue n t = (.ok n.toPending, t') ∧
        t'.rows.toList = t.rows.toList ++ [Row.ofNew n]) ∧
    (∃ m' : Memory, JobStore.enqueue n m = (.ok n.toPending, m') ∧
      m'.jobs.toList = (m.jobs.toList.filter fun j => j.id ≠ n.id) ++ [n.toPending] ∧
      (m'.jobs.toList = m.jobs.toList ++ [n.toPending] ↔ m.jobs.get? n.id = none)) ∧
    (∃ c, (JobStore.counts (current Table.empty (replay .empty calls))).1 = .ok c ∧
      c.total + ((replay Table.empty calls).map Exchange.purged).sum =
        ((replay Table.empty calls).map Exchange.accepted).sum) ∧
    (∃ c, (JobStore.counts (current Memory.empty (replay .empty calls))).1 = .ok c ∧
      c.total + ((replay Memory.empty calls).map Exchange.purged).sum +
          ((replay Memory.empty calls).map Exchange.displaced).sum =
        ((replay Memory.empty calls).map Exchange.accepted).sum) := by
  refine ⟨Table.refuses_iff, ?_, ⟨_, rfl, rfl, m.enqueue_keeps_iff n⟩, ?_,
    Census.total_replay rfl calls⟩
  · obtain hrefused | ⟨t', hdone, -, hrows⟩ := t.enqueue_appends n
    · exact .inl hrefused
    · exact .inr ⟨t', hdone, hrows⟩
  · obtain ⟨c, hcounts, htotal⟩ := Census.total_replay (s := Table.empty) rfl calls
    have hnone : ((replay Table.empty calls).map Exchange.displaced).sum = 0 :=
      List.sum_eq_zero fun k hk => by
        obtain ⟨e, -, rfl⟩ := List.mem_map.mp hk
        exact Table.displaced_eq_zero e
    exact ⟨c, hcounts, by omega⟩

/-! ## A job that gives way -/

/-- A job with the id of the plain one. -/
def NewJob.reusing : NewJob := { NewJob.plain with maxAttempts := 9 }

/-- A store after the plain job was claimed. -/
def Ledger.plainRunning (σ : Type) [Ledger σ] : σ :=
  current start (replay start [.claim ⟨1⟩ .epoch, .enqueue .plain])

/-- **A job that is being worked on gives way:** the store in memory accepts a second job with its
id, has one job as before, and has forgotten the first one. The table refuses the second job. -/
theorem a_running_job_gives_way :
    (Ledger.plainRunning Memory).jobs.toList.map (fun j => (j.status, j.maxAttempts)) =
      [(.running, 1)] ∧
    (∃ m' : Memory, JobStore.enqueue .reusing (Ledger.plainRunning Memory) =
        (.ok NewJob.reusing.toPending, m') ∧
      m'.jobs.toList.map (fun j => (j.status, j.maxAttempts)) = [(.pending, 9)] ∧
      m'.counts.total = (Ledger.plainRunning Memory).counts.total) ∧
    ∃ e, JobStore.enqueue .reusing (Ledger.plainRunning Table) =
      (Table.refused e, Ledger.plainRunning Table) := by
  refine ⟨by decide +kernel, ⟨_, rfl, by decide +kernel, by decide +kernel⟩, ?_⟩
  exact Table.refuses_iff.mpr (.inr (by decide +kernel))

end SyncJobs
