import SyncJobs.Proofs.Alone
import SyncJobs.Proofs.Arrangement
import SyncJobs.Proofs.Dispenser

/-!
# What a pass begins

A pass that nobody disturbs claims every candidate that was granted a permit (`Run.Opens.all`), so
it begins an attempt exactly if one of its candidates is admitted by the pool
(`passes_begin_what_they_can`).

The candidates are listed before the pool is asked. A due job that the pool would admit is missed
if the list has no room for it: the window is full, or as many jobs of its account are listed as
one account may have permits. It does not matter whether these candidates are admitted themselves,
so jobs that wait for a permit in one domain can hold up a job of another domain
(`a_startable_job_is_missed`).
-/

namespace SyncJobs

/-! ## Grants -/

namespace Pool

/-- **A permit is granted exactly if a candidate is admitted.** -/
theorem grant_ne_nil_iff {p : Pool} {jobs : List Job} :
    (p.grant jobs).1 ≠ [] ↔ ∃ j ∈ jobs, p.admits (permitFor j) := by
  induction jobs with
  | nil => simp [grant]
  | cons j jobs ih =>
    rw [grant]
    split
    · rename_i hfull
      refine iff_of_false (fun h => h rfl) ?_
      rintro ⟨k, -, hk⟩
      exact available_ne_zero hk hfull
    · split
      · rename_i hadmits
        exact iff_of_true (List.cons_ne_nil _ _) ⟨j, List.mem_cons_self, hadmits⟩
      · rename_i hrefused
        rw [ih]
        simp [hrefused]

theorem allocate_ne_nil_iff {p : Pool} {jobs : List Job} :
    (p.allocate jobs).1 ≠ [] ↔ ∃ j ∈ jobs, p.admits (permitFor j) := by
  rw [allocate, grant_ne_nil_iff]
  simp only [(p.fairness.arrange_perm jobs).mem_iff]

/-- Nobody is granted two permits. -/
theorem nodup_allocate (p : Pool) {jobs : List Job} (h : (jobs.map Job.id).Nodup) :
    ((p.allocate jobs).1.map fun g => g.1.id).Nodup := by
  have harranged := ((p.fairness.arrange_perm jobs).map Job.id).nodup_iff.mpr h
  have hgranted := harranged.sublist ((p.grant_sublist (p.fairness.arrange jobs)).map Job.id)
  rwa [List.map_map] at hgranted

end Pool

/-! ## A pass that nobody disturbs -/

namespace Run

variable {σ : Type} [Dispenser σ] {rules : RunRules} {time : Nat} {now : Instant} {r : Run}
  {q : Queue σ}

/-- **A run that is about to claim** jobs that are due, each under the permit that it was granted,
before its deadline. -/
structure Opens (now : Instant) (time : Nat) (gs : List (Job × Permit)) (started : Nat) (r : Run)
    (q : Queue σ) : Prop where
  phase : r.phase = .claiming now gs started
  open_ : r.isPast time = false
  orderly : Dispenser.IsOrderly q.store
  shown : ∀ g ∈ gs, JobStore.peek q.store g.1.id = .ok (some g.1) ∧ g.1.isDue now
  distinct : (gs.map fun g => g.1.id).Nodup

/-- The attempt that a grant leads to. -/
def attemptOf (σ : Type) [Dispenser σ] (now : Instant) (g : Job × Permit) : Attempt :=
  ⟨g.1.start (Dispenser.round σ now), g.2⟩

/-- **A claim** gets its job. -/
theorem Opens.claim {g : Job × Permit} {gs : List (Job × Permit)} {started : Nat}
    (h : Opens now time (g :: gs) started r q) (rules : RunRules) :
    ∃ q', r.apply rules (.claim time) q = ({ r with
        phase := .claiming now gs (started + 1), batch := r.batch ++ [attemptOf σ now g] }, q') ∧
      Opens now time gs (started + 1) { r with
        phase := .claiming now gs (started + 1), batch := r.batch ++ [attemptOf σ now g] } q' := by
  obtain ⟨j, permit⟩ := g
  obtain ⟨hj, hdue⟩ := h.shown _ List.mem_cons_self
  obtain ⟨hanswer, -, horderly⟩ := Dispenser.claim_due h.orderly hj hdue
  obtain ⟨hfresh, hdistinct⟩ := List.nodup_cons.mp h.distinct
  have hclaim : JobStore.claim j.id now q.store =
      (.ok (some (j.start (Dispenser.round σ now))), (JobStore.claim j.id now q.store).2) :=
    Prod.ext hanswer rfl
  refine ⟨{ q with store := (JobStore.claim j.id now q.store).2 }, ?_, rfl, h.open_, horderly,
    fun g' hg' => ?_, hdistinct⟩
  · simp only [apply, h.phase, h.open_, Bool.false_eq_true, if_false, Run.claim]
    rw [hclaim]
    rfl
  · obtain ⟨hj', hdue'⟩ := h.shown g' (List.mem_cons_of_mem _ hg')
    have hne : j.id ≠ g'.1.id := fun hid => hfresh (List.mem_map.mpr ⟨g', hg', hid.symm⟩)
    exact ⟨(Dispenser.claim_others now hne).trans hj', hdue'⟩

/-- **All claims** get their jobs. -/
theorem Opens.all {gs : List (Job × Permit)} {started : Nat} (h : Opens now time gs started r q)
    (rules : RunRules) :
    ∃ q', claimAll rules time gs.length (r, q) = ({ r with
      phase := .claiming now [] (started + gs.length)
      batch := r.batch ++ gs.map (attemptOf σ now) }, q') := by
  induction gs generalizing r q started with
  | nil =>
    refine ⟨q, ?_⟩
    rw [List.map_nil, List.append_nil, List.length_nil, Nat.add_zero, ← h.phase]
    rfl
  | cons g gs ih =>
    obtain ⟨q₁, hclaim, hnext⟩ := h.claim rules
    obtain ⟨q', hall⟩ := ih hnext
    refine ⟨q', ?_⟩
    rw [List.length_cons, claimAll, hclaim, hall]
    simp only [List.append_assoc, List.singleton_append, List.map_cons, Nat.add_assoc,
      Nat.add_comm 1]

/-- A pass that finds nothing to do, or no permit left, begins nothing. -/
theorem pass_of_finished (hr : r.Rests)
    (hlook : ({ r with phase := .idle } : Run).look rules time now q =
      (({ r with phase := .idle } : Run).finish none, q)) :
    (r.pass rules time now q).1.batch = [] := by
  have happly : ({ r with phase := .idle } : Run).apply rules (.look time now) q =
      (({ r with phase := .idle } : Run).finish none, q) := hlook
  rw [pass, hr.join, happly]
  exact hr.batch

/-- The end of the claims leaves the attempts. -/
theorem batch_launch (started : Nat) (r : Run) : (r.launch started).batch = r.batch := by
  rw [launch]
  split <;> rfl

/-- A pass that finds candidates begins an attempt for every permit that it is granted. -/
theorem pass_of_looked (hopen : r.isPast time = false) (hq : Dispenser.IsOrderly q.store)
    {js : List Job} (hr : r.Rests) (hline : Line q.store now js)
    (hlook : ({ r with phase := .idle } : Run).look rules time now q =
      ({ r with phase := .looked now js }, q)) :
    (r.pass rules time now q).1.batch = (q.pool.allocate js).1.map (attemptOf σ now) := by
  have happly : ({ r with phase := .idle } : Run).apply rules (.look time now) q =
      ({ r with phase := .looked now js }, q) := hlook
  have hallocate : ({ r with phase := .looked now js } : Run).apply rules .allocate q =
      ({ r with phase := .claiming now (q.pool.allocate js).1 0 },
        { q with pool := (q.pool.allocate js).2 }) := rfl
  have hopens : Opens now time (q.pool.allocate js).1 0
      { r with phase := .claiming now (q.pool.allocate js).1 0 }
      { q with pool := (q.pool.allocate js).2 } :=
    ⟨rfl, hopen, hq, fun g hg => hline.stored g.1 (Pool.mem_allocate hg).1,
      q.pool.nodup_allocate hline.distinct⟩
  obtain ⟨q', hall⟩ := hopens.all rules
  have htoClaim : Simulation.toClaim { r with phase := .claiming now (q.pool.allocate js).1 0 } =
      (q.pool.allocate js).1.length := rfl
  rw [pass, hr.join, happly]
  dsimp only
  rw [hallocate]
  dsimp only
  rw [htoClaim, hall]
  show (launch _ _).batch = _
  rw [batch_launch]
  show r.batch ++ _ = _
  rw [hr.batch, List.nil_append]

/-- **What a pass begins:** an attempt for every permit that the pool grants to the candidates. -/
theorem pass_batch (hr : r.Rests) (hopen : r.isPast time = false)
    (hq : Dispenser.IsOrderly q.store) {js : List Job}
    (hjs : (JobStore.dueJobs now rules.window (some q.pool.limits.perAccount) q.store).1 =
      .ok js) :
    (r.pass rules time now q).1.batch = (q.pool.allocate js).1.map (attemptOf σ now) := by
  have hdue : JobStore.dueJobs now rules.window (some q.pool.limits.perAccount) q.store =
      (.ok js, q.store) := Prod.ext hjs (Dispenser.dueJobs_same _ _ _ _)
  have hopen' : ({ r with phase := .idle } : Run).isPast time = false := hopen
  have hnone : (∀ j ∈ js, ¬ q.pool.admits (Pool.permitFor j)) →
      (q.pool.allocate js).1.map (attemptOf σ now) = [] := fun hrefused => by
    have hgranted : (q.pool.allocate js).1 = [] := by
      by_contra hne
      obtain ⟨j, hj, hadmits⟩ := Pool.allocate_ne_nil_iff.mp hne
      exact hrefused j hj hadmits
    rw [hgranted, List.map_nil]
  by_cases havailable : q.pool.available = 0
  · rw [hnone fun j _ hj => Pool.available_ne_zero hj havailable]
    refine pass_of_finished hr ?_
    simp only [look, havailable, decide_true, Bool.or_true, if_true]
  · cases js with
    | nil =>
      rw [hnone fun j hj => absurd hj List.not_mem_nil]
      refine pass_of_finished hr ?_
      simp only [look, hopen', havailable, decide_false, Bool.or_false, Bool.false_eq_true,
        if_false, hdue]
    | cons j js =>
      refine pass_of_looked hopen hq hr (Dispenser.line_dueJobs hq hjs) ?_
      simp only [look, hopen', havailable, decide_false, Bool.or_false, Bool.false_eq_true,
        if_false, hdue]

end Run

/-- **A pass begins what it can begin among its candidates, and what it misses was cut off.** Here
is a pass of a run before its deadline that nobody disturbs, over a store that lists its due jobs.
It begins an attempt exactly if a candidate is admitted by the pool. If it begins nothing although
a due job would be admitted, then the window is full, or the account of the job has as many
candidates as one account may have permits. -/
theorem passes_begin_what_they_can {σ : Type} [Dispenser σ] (rules : RunRules) {r : Run}
    (hr : r.Rests) {time : Nat} {now : Instant} (hopen : r.isPast time = false) {q : Queue σ}
    (hq : Dispenser.IsOrderly q.store) {js : List Job}
    (hjs : (JobStore.dueJobs now rules.window (some q.pool.limits.perAccount) q.store).1 =
      .ok js) :
    ((r.pass rules time now q).1.batch ≠ [] ↔ ∃ j ∈ js, q.pool.admits (Pool.permitFor j)) ∧
      ∀ j, JobStore.peek q.store j.id = .ok (some j) → j.isDue now →
        q.pool.admits (Pool.permitFor j) → (r.pass rules time now q).1.batch = [] →
        rules.window ≤ js.length ∨
          q.pool.limits.perAccount ≤ js.countP fun k => k.account = j.account := by
  have hbatch := Run.pass_batch hr hopen hq hjs
  have hbegins : (r.pass rules time now q).1.batch ≠ [] ↔
      ∃ j ∈ js, q.pool.admits (Pool.permitFor j) := by
    rw [hbatch, Ne, List.map_eq_nil_iff]
    exact Pool.allocate_ne_nil_iff
  refine ⟨hbegins, fun j hj hdue hadmits hnothing => ?_⟩
  have hout : j ∉ js := fun hmem => hbegins.mpr ⟨j, hmem, hadmits⟩ hnothing
  obtain hfull | ⟨c, hc, hfilled⟩ := Dispenser.left_out hq hjs hj hdue hout
  · exact .inl hfull
  · obtain rfl := Option.some.inj hc
    exact .inr hfilled

/-! ## A job that is held up by others -/

/-- The usual rules of runs. -/
def usualRules : RunRules := ⟨({} : Settings).window.toNat, ({} : Settings).backoff.policy⟩

/-- A store with three jobs of one account that are due: two of one domain, and a younger one of
another. -/
def Ledger.trioPast (σ : Type) [Ledger σ] : List (Exchange σ) :=
  replay start [.enqueue { NewJob.plain with id := ⟨3⟩, domain := .calendar },
    .enqueue { NewJob.plain with id := ⟨2⟩ }, .enqueue .plain]

/-- The store with these jobs. -/
def Ledger.trioStore (σ : Type) [Ledger σ] : σ := current start (trioPast σ)

/-- The usual pool. -/
def freePool : Pool where
  limits := ({} : Settings).limits
  fairness := ({} : Settings).fairness

/-- The usual pool, with the only permit for the domain of the two jobs out. -/
def busyPool : Pool := freePool.acquire ⟨⟨1⟩, .email⟩

/-- The job of the other domain. -/
def trioLast : Job := NewJob.toPending { NewJob.plain with id := ⟨3⟩, domain := .calendar }

/-- The table with these jobs is in good order. -/
theorem isOrderly_trioStore : (Ledger.trioStore Table).IsOrderly := by
  have hhistory : History Table.empty (Ledger.trioPast Table) :=
    ((History.nil.step (.enqueue .plain) ⟨List.not_mem_nil, by decide⟩).step
      (.enqueue { NewJob.plain with id := ⟨2⟩ }) ⟨by decide, by decide⟩).step
        (.enqueue { NewJob.plain with id := ⟨3⟩, domain := .calendar }) ⟨by decide, by decide⟩
  exact Table.isOrderly hhistory (by decide)

/-- The store in memory lists the first two jobs only. -/
theorem dueJobs_trioStore_memory :
    (JobStore.dueJobs .epoch usualRules.window (some busyPool.limits.perAccount)
      (Ledger.trioStore Memory)).1 = .ok ((Ledger.trioStore Memory).jobs.toList.take 2) := by
  have hdue : Memory.due .epoch (Ledger.trioStore Memory) = (Ledger.trioStore Memory).jobs.toList :=
    List.mergeSort_of_pairwise (by decide +kernel)
  show Except.ok (takeWindow _ _ [] (Memory.due .epoch (Ledger.trioStore Memory))) = _
  rw [hdue]
  rfl

/-- The jobs differ in their ids and domains. -/
theorem exists_of_mem_trioStore {j : Job} (hj : j ∈ (Ledger.trioStore Memory).jobs.toList) :
    ∃ id domain, j = NewJob.toPending { NewJob.plain with id, domain } := by
  have hjobs : (Ledger.trioStore Memory).jobs.toList =
      [NewJob.plain.toPending, NewJob.toPending { NewJob.plain with id := ⟨2⟩ }, trioLast] := rfl
  simp only [hjobs, List.mem_cons, List.not_mem_nil, or_false] at hj
  obtain rfl | rfl | rfl := hj
  · exact ⟨_, _, rfl⟩
  · exact ⟨_, _, rfl⟩
  · exact ⟨_, _, rfl⟩

/-- The table holds the same jobs. -/
theorem holds_trioStore : (Ledger.trioStore Table).Holds (Ledger.trioStore Memory) := by
  refine ⟨by decide +kernel, fun j hj => ?_⟩
  obtain ⟨id, domain, rfl⟩ := exists_of_mem_trioStore hj
  have hepoch : Instant.epoch.floor = .epoch := by decide
  exact Job.isWhole_of hepoch hepoch hepoch

theorem plain_trioStore : (Ledger.trioStore Memory).Plain := by
  intro i j hj
  have hplain : NewJob.plain.payload.IsPlain := ⟨by decide, by decide⟩
  obtain ⟨id, domain, rfl⟩ := exists_of_mem_trioStore (Keyed.get?_eq_some_iff.mp hj).1
  exact hplain

/-- So it lists the first two jobs only, too. -/
theorem dueJobs_trioStore_table :
    (JobStore.dueJobs .epoch usualRules.window (some busyPool.limits.perAccount)
      (Ledger.trioStore Table)).1 = .ok ((Ledger.trioStore Memory).jobs.toList.take 2) := by
  rw [holds_trioStore.dueJobs plain_trioStore isOrderly_trioStore.fits,
    show Instant.epoch.floor = .epoch by decide]
  exact dueJobs_trioStore_memory

/-- With all permits in, a pass over these jobs begins something. -/
theorem a_pass_over_three_jobs_begins :
    (({} : Run).pass usualRules 0 .epoch ⟨Ledger.trioStore Memory, freePool⟩).1.batch ≠ [] ∧
      (({} : Run).pass usualRules 0 .epoch ⟨Ledger.trioStore Table, freePool⟩).1.batch ≠ [] := by
  have hrests : ({} : Run).Rests := ⟨.inl rfl, rfl, rfl⟩
  have hopen : ({} : Run).isPast 0 = false := rfl
  have hcandidate : ∃ j ∈ (Ledger.trioStore Memory).jobs.toList.take 2,
      freePool.admits (Pool.permitFor j) :=
    ⟨NewJob.plain.toPending, List.mem_cons_self, by decide +kernel⟩
  have inMemory := passes_begin_what_they_can usualRules hrests hopen
    (q := ⟨Ledger.trioStore Memory, freePool⟩) trivial dueJobs_trioStore_memory
  have inTable := passes_begin_what_they_can usualRules hrests hopen
    (q := ⟨Ledger.trioStore Table, freePool⟩) isOrderly_trioStore dueJobs_trioStore_table
  exact ⟨inMemory.1.mpr hcandidate, inTable.1.mpr hcandidate⟩

/-- The candidates need the permit that is out, and are no reason to begin anything. -/
theorem not_admits_of_permits {js : List Job}
    (h : js.map Pool.permitFor = [⟨⟨1⟩, .email⟩, ⟨⟨1⟩, .email⟩]) :
    ¬ ∃ j ∈ js, busyPool.admits (Pool.permitFor j) := by
  rintro ⟨j, hj, hadmits⟩
  have hpermit := List.mem_map_of_mem (f := Pool.permitFor) hj
  rw [h, List.mem_cons, List.mem_singleton, or_self] at hpermit
  rw [hpermit] at hadmits
  exact absurd hadmits (by decide)

/-- **A job that could be started is missed,** with the usual settings and in both stores: a pass
finds a due job that the pool admits, and begins nothing. -/
theorem a_startable_job_is_missed :
    ({} : Settings).isValid ∧ busyPool.admits (Pool.permitFor trioLast) ∧
      trioLast.isDue .epoch ∧
      (JobStore.peek (Ledger.trioStore Memory) trioLast.id = .ok (some trioLast) ∧
        (({} : Run).pass usualRules 0 .epoch ⟨Ledger.trioStore Memory, busyPool⟩).1.batch = []) ∧
      JobStore.peek (Ledger.trioStore Table) trioLast.id = .ok (some trioLast) ∧
        (({} : Run).pass usualRules 0 .epoch ⟨Ledger.trioStore Table, busyPool⟩).1.batch = [] := by
  have hrests : ({} : Run).Rests := ⟨.inl rfl, rfl, rfl⟩
  have hopen : ({} : Run).isPast 0 = false := rfl
  have hnone : (busyPool.allocate ((Ledger.trioStore Memory).jobs.toList.take 2)).1 = [] := by
    by_contra hne
    exact not_admits_of_permits (by decide +kernel) (Pool.allocate_ne_nil_iff.mp hne)
  have hpeek := holds_trioStore.get_eq trioLast.id
  rw [Job.readFound_of_isPlain (plain_trioStore trioLast.id)] at hpeek
  refine ⟨by decide +kernel, by decide +kernel, by decide +kernel, ⟨rfl, ?_⟩, hpeek.trans ?_, ?_⟩
  · rw [Run.pass_batch hrests hopen trivial dueJobs_trioStore_memory, List.map_eq_nil_iff]
    exact hnone
  · rfl
  · rw [Run.pass_batch hrests hopen isOrderly_trioStore dueJobs_trioStore_table,
      List.map_eq_nil_iff]
    exact hnone

end SyncJobs
