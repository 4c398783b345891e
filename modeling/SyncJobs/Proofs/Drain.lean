import SyncJobs.Proofs.Attempts
import SyncJobs.Proofs.Outlook
import SyncJobs.Proofs.Rounding
import SyncJobs.Proofs.Staleness

/-!
# A run drains the queue

A run without a deadline that has the store and the pool for itself goes on until no job is due.
Where it stands is told by `Stands`, together with a number that falls with every task that is
done (`Stands.next`): each claim that is left costs six tasks at most, five for its attempt and one
for the pass that comes after it. The bound on the tasks of a simulation is above that number, so
the run comes to its end before the bound does (`Stands.finish`).

A job that was due at the start and left alone would be due at the end, and then the run would not
have ended. That is why every such job was attempted.

An attempt that breaks down before it has an outcome is lost, and its job stays running
(`Scheduler.LeavesRunning`). The run ends all the same, and such jobs are told apart from those that
others left running.
-/

namespace SyncJobs

/-! ## Simulations of a single run -/

namespace Simulation

variable {σ ω : Type}

/-- The simulation with just one run. -/
def withRun (s : Simulation σ ω) (p : Run × Queue σ) : Simulation σ ω :=
  { s with system := ⟨p.2, [p.1]⟩ }

theorem eq_withRun {s : Simulation σ ω} {q : Queue σ} {r : Run} (h : s.system = ⟨q, [r]⟩) :
    s = s.withRun (r, q) := by
  rw [withRun, ← h]

theorem run_withRun (s : Simulation σ ω) (p : Run × Queue σ) : (s.withRun p).run 0 = p.1 := rfl

theorem time_withRun (s : Simulation σ ω) (p : Run × Queue σ) : (s.withRun p).time = s.time := rfl

theorem now_withRun [World ω] (s : Simulation σ ω) (p : Run × Queue σ) :
    (s.withRun p).now = s.now := rfl

variable [JobStore σ] {c : Conditions}

theorem make_withRun (s : Simulation σ ω) (p : Run × Queue σ) (step : Step) :
    (s.withRun p).make c 0 step = s.withRun (p.1.apply c.rules step p.2) := rfl

theorem claimAll_withRun (s : Simulation σ ω) (n : Nat) (p : Run × Queue σ) :
    (s.withRun p).claimAll c 0 n = s.withRun (Run.claimAll c.rules s.time n p) := by
  induction n generalizing p with
  | zero => rfl
  | succ n ih => exact ih (p.1.apply c.rules (.claim s.time) p.2)

/-- A single run goes on by a pass. -/
theorem resume_withRun [World ω] (s : Simulation σ ω) (p : Run × Queue σ) :
    (s.withRun p).resume c 0 =
      (s.withRun (p.1.pass c.rules s.time s.now p.2)).beginAll c 0
        (p.1.pass c.rules s.time s.now p.2).1.batch := by
  simp only [resume, make_withRun, claimAll_withRun, run_withRun, time_withRun, now_withRun]
  rfl

omit [JobStore σ] in
/-- The first tasks of attempts are entered, and nothing else is done. -/
theorem beginAll_eq {z : Hazard} {jobs : List Job} (c : Conditions) (batch : List Attempt)
    (s : Simulation σ ω) (h : z.Scheduled c.timeout.millis s.time jobs s.agenda.entries) :
    ∃ es, s.beginAll c 0 batch = { s with agenda := ⟨es⟩ } ∧
      z.Scheduled c.timeout.millis s.time (batch.map Attempt.job ++ jobs) es ∧
      Task.work es = 5 * batch.length + Task.work s.agenda.entries := by
  induction batch generalizing s jobs with
  | nil => exact ⟨s.agenda.entries, rfl, h, (Nat.zero_add _).symm⟩
  | cons a batch ih =>
    let first : Task := .attempt 0 a.job (s.time + c.timeout.millis) .begin
    have hbegin : z.Foresees c.timeout.millis s.time (s.time + c.timeout.millis) a.job .begin :=
      fun _ => rfl
    have hfirst := h.insert (Nat.le_refl s.time) hbegin
    obtain ⟨es, hes, hscheduled, hwork⟩ := ih (s.schedule 0 first) hfirst
    refine ⟨es, hes, hscheduled.perm List.perm_middle, ?_⟩
    have hentries : (s.schedule 0 first).agenda.entries =
        Agenda.insert s.time first s.agenda.entries := rfl
    have hsteps : first.steps = 5 := rfl
    rw [hwork, hentries, Task.work_insert, List.length_cons]
    omega

/-- A single run gives a permit back and goes on after the last attempt. -/
theorem leave_withRun (s : Simulation σ ω) (p : Run × Queue σ) :
    (s.withRun p).leave c 0 =
      let p := p.1.apply c.rules .release p.2
      if p.1.batch.isEmpty then (s.withRun p).schedule 0 (.resume 0) else s.withRun p := rfl

/-- A single run settles an attempt. -/
theorem concludeWith_withRun [World ω] (s : Simulation σ ω) (p : Run × Queue σ) (job : Job)
    (outcome : Outcome) (drawn : Binary64 × Jitter) :
    (s.withRun p).concludeWith c 0 job outcome drawn =
      (({ s with jitter := drawn.2 } : Simulation σ ω).withRun
        (p.1.apply c.rules (.settle job.receipt outcome s.now drawn.1) p.2)).leave c 0 := rfl

end Simulation

/-! ## Where a run stands -/

/-- With any sample that is a number, every attempt has a decision. -/
def Conditions.Decide (c : Conditions) : Prop :=
  ∀ (j : Job) (outcome : Outcome) (now : Instant) (sample : Binary64), sample ≠ .nan →
    (j.decide? c.rules.backoff outcome now sample).isSome

/-- The hazard fits the world and the conditions, if the jobs `m₀` are kept at the start. -/
structure Hazard.Fits (ω : Type) [World ω] (z : Hazard) (c : Conditions) (m₀ : Memory) : Prop where
  covers : z.Covers ω
  dooms : ∀ i j, m₀.jobs.get? i = some j → z.doomed i → c.Dooms ω j

/-- Attempts have decisions as long as samples are numbers; if not, every attempt is at risk. -/
def Hazard.Steady (z : Hazard) (jitter : Jitter) : Prop :=
  jitter.IsNumeric ∨ ∀ account, z.risky account

section Standing

variable {σ ω : Type} [Shelf σ] [World ω]

/-- **Where a run that is alone stands,** and how many tasks are to be done at most. -/
inductive Stands (past : List (Exchange σ)) (l : Limits) (z : Hazard) (m₀ : Memory)
    (c : Conditions) : Simulation (Journaled σ) ω → Nat → Prop
  /-- before a pass -/
  | resting {s : Simulation (Journaled σ) ω} {q : Queue (Journaled σ)} {r : Run} {m : Memory}
      {time : Nat} (system : s.system = ⟨q, [r]⟩) (run : Resting past l z m₀ m q r)
      (steady : z.Steady s.jitter) (agenda : s.agenda.entries = [(time, .resume 0)]) :
      Stands past l z m₀ c s (1 + 6 * m.claimsLeft)
  /-- with attempts in progress, all of which are on the agenda -/
  | working {s : Simulation (Journaled σ) ω} {q : Queue (Journaled σ)} {r : Run} {m : Memory}
      (system : s.system = ⟨q, [r]⟩) (run : Working past l z m₀ m q r)
      (steady : z.Steady s.jitter)
      (scheduled : z.Scheduled c.timeout.millis s.time (r.batch.map Attempt.job)
        s.agenda.entries) :
      Stands past l z m₀ c s (Task.work s.agenda.entries + (1 + 6 * m.claimsLeft))
  /-- at its end, when the last look found nothing due -/
  | ended {s : Simulation (Journaled σ) ω} {q : Queue (Journaled σ)} {r : Run} {m : Memory}
      (system : s.system = ⟨q, [r]⟩) (run : Ended past l z m₀ m q r)
      (agenda : s.agenda.entries = [])
      (nothing : (JobStore.dueJobs s.now c.rules.window (some l.perAccount) q.store.store).1 =
        .ok []) : Stands past l z m₀ c s 0

variable {past : List (Exchange σ)} {l : Limits} {z : Hazard} {m₀ : Memory} {c : Conditions}
  {s : Simulation (Journaled σ) ω} {q : Queue (Journaled σ)} {r : Run} {m : Memory} {n : Nat}

/-- **A pass** of a run that rests brings it nearer to its end. -/
theorem Stands.resume (hl : l.Positive) (system : s.system = ⟨q, [r]⟩)
    (run : Resting past l z m₀ m q r) (steady : z.Steady s.jitter)
    (agenda : s.agenda.entries = []) (hans : (s.resume c 0).system.queue.store.Answered) :
    ∃ n < 1 + 6 * m.claimsLeft, Stands past l z m₀ c (s.resume c 0) n := by
  rw [Simulation.eq_withRun system, Simulation.resume_withRun] at hans ⊢
  have hentries : (s.withRun (r.pass c.rules s.time s.now q)).agenda.entries = [] := agenda
  obtain ⟨es, hes, hscheduled, hwork⟩ := Simulation.beginAll_eq (z := z) c
    (r.pass c.rules s.time s.now q).1.batch (s.withRun (r.pass c.rules s.time s.now q))
    (hentries ▸ Hazard.Scheduled.nil)
  dsimp only at hans ⊢
  rw [hes] at hans ⊢
  rw [hentries] at hwork
  rw [List.append_nil] at hscheduled
  rcases run.pass hl hans with ⟨hnone, hstore, hended⟩ | ⟨m', hworking, htotal⟩
  · rw [hended.batch] at hscheduled
    refine ⟨0, by omega, .ended rfl hended hscheduled.eq_nil ?_⟩
    rw [hstore]
    exact hnone
  · have hpositive := List.length_pos_iff.mpr hworking.begun
    refine ⟨_, ?_, .working rfl hworking steady hscheduled⟩
    have hzero : Task.work ([] : List (Nat × Task)) = 0 := rfl
    show Task.work es + _ < _
    omega

/-- The sample for an attempt is a number if the source is numeric, which it stays. -/
theorem Jitter.isNumeric_drawn {j : Jitter} (h : j.IsNumeric) (retries : Bool) :
    (if retries then j.next else (.zero false, j)).1 ≠ .nan ∧
      (if retries then j.next else (.zero false, j)).2.IsNumeric := by
  cases retries with
  | false => exact ⟨nofun, h⟩
  | true => exact isNumeric_next h

/-- What a sample may be, and what is left then. -/
theorem Hazard.Steady.drawn {j : Jitter} (h : z.Steady j) (retries : Bool) :
    ((if retries then j.next else (.zero false, j)).1 ≠ .nan ∨ ∀ account, z.risky account) ∧
      z.Steady (if retries then j.next else (.zero false, j)).2 :=
  h.elim
    (fun hnumeric =>
      ⟨.inl (Jitter.isNumeric_drawn hnumeric retries).1,
        .inl (Jitter.isNumeric_drawn hnumeric retries).2⟩)
    fun hrisky => ⟨.inr hrisky, .inr hrisky⟩

/-- **After an attempt has come to its end** the run goes on if it was the last one. -/
theorem Stands.leave {batch : List Attempt} {job : Job} {jobs : List Job} {m' : Memory}
    {p : Run × Queue (Journaled σ)}
    (run : Relieved past l z m₀ m batch job m' (p.1.apply c.rules .release p.2).2
      (p.1.apply c.rules .release p.2).1) (steady : z.Steady s.jitter)
    (hbatch : (batch.map Attempt.job).Perm (job :: jobs))
    (scheduled : z.Scheduled c.timeout.millis s.time jobs s.agenda.entries) :
    ∃ n ≤ Task.work s.agenda.entries + (1 + 6 * m.claimsLeft),
      Stands past l z m₀ c ((s.withRun p).leave c 0) n := by
  rw [Simulation.leave_withRun]
  generalize p.1.apply c.rules .release p.2 = p' at run ⊢
  obtain ⟨r', q'⟩ := p'
  dsimp only at run ⊢
  have hleft := run.left
  have hrest := scheduled.perm (hbatch.symm.trans run.rest).cons_inv
  by_cases hempty : r'.batch = []
  · have hentries : s.agenda.entries = [] := by
      rw [hempty] at hrest
      exact hrest.eq_nil
    have hagenda : ((s.withRun (r', q')).schedule 0 (.resume 0)).agenda.entries =
        [(s.time, .resume 0)] := by
      show Agenda.insert s.time (.resume 0) s.agenda.entries = _
      rw [hentries]
      rfl
    simp only [hempty, List.isEmpty_nil, if_true]
    exact ⟨1 + 6 * m'.claimsLeft, by omega,
      .resting rfl ⟨run.toAlone, .inr run.phase, hempty, run.leaving⟩ steady hagenda⟩
  · have hbegun : r'.batch.isEmpty = false := by simpa using hempty
    simp only [hbegun, Bool.false_eq_true, if_false]
    exact ⟨Task.work s.agenda.entries + (1 + 6 * m'.claimsLeft), by omega,
      .working rfl ⟨run.toAlone, run.phase, run.leaving, hempty⟩ steady hrest⟩

omit [World ω] in
/-- What is answered when the permit of an attempt is back was answered before. -/
theorem Journaled.Answered.of_leave {p : Run × Queue (Journaled σ)}
    (h : ((s.withRun p).leave c 0).system.queue.store.Answered) : p.2.store.Answered := by
  rw [Simulation.leave_withRun] at h
  have hreleased : (p.1.apply c.rules .release p.2).2.store.Answered := by
    dsimp only at h
    split at h <;> exact h
  exact hreleased.of_apply

/-- **An attempt that has come to an outcome** brings the run nearer to its end. -/
theorem Stands.conclude (hc : c.Decide) (system : s.system = ⟨q, [r]⟩)
    (run : Working past l z m₀ m q r) (steady : z.Steady s.jitter) {job : Job} {jobs : List Job}
    (hbatch : (r.batch.map Attempt.job).Perm (job :: jobs)) (hsafe : ¬ z.doomed job.id)
    (scheduled : z.Scheduled c.timeout.millis s.time jobs s.agenda.entries) (outcome : Outcome)
    (hans : (s.conclude c 0 job outcome).system.queue.store.Answered) :
    ∃ n ≤ Task.work s.agenda.entries + (1 + 6 * m.claimsLeft),
      Stands past l z m₀ c (s.conclude c 0 job outcome) n := by
  obtain ⟨hsample, hsteady⟩ := steady.drawn (job.retries outcome)
  have hjob : job ∈ r.batch.map Attempt.job := hbatch.symm.subset List.mem_cons_self
  rw [Simulation.eq_withRun system, Simulation.conclude_eq, Simulation.concludeWith_withRun]
    at hans ⊢
  have hjitter : (s.withRun (r, q)).jitter = s.jitter := rfl
  rw [hjitter] at hans ⊢
  generalize (if job.retries outcome then s.jitter.next else (.zero false, s.jitter)) = drawn
    at hsample hsteady hans ⊢
  have hdecides : z.risky job.account ∨
      (job.decide? c.rules.backoff outcome s.now drawn.1).isSome :=
    hsample.symm.imp (fun hrisky => hrisky job.account) (hc job outcome s.now drawn.1)
  obtain ⟨m', hrelieved⟩ := run.settle hjob hsafe hdecides rfl hans.of_leave
  exact Stands.leave (s := { s with jitter := drawn.2 }) hrelieved hsteady hbatch scheduled

/-- **An attempt that breaks down** brings the run nearer to its end, too. -/
theorem Stands.abandon (system : s.system = ⟨q, [r]⟩) (run : Working past l z m₀ m q r)
    (steady : z.Steady s.jitter) {job : Job} {jobs : List Job}
    (hbatch : (r.batch.map Attempt.job).Perm (job :: jobs)) (hrisky : z.risky job.account)
    (scheduled : z.Scheduled c.timeout.millis s.time jobs s.agenda.entries) :
    ∃ n ≤ Task.work s.agenda.entries + (1 + 6 * m.claimsLeft),
      Stands past l z m₀ c (s.abandon c 0 job) n := by
  have hjob : job ∈ r.batch.map Attempt.job := hbatch.symm.subset List.mem_cons_self
  rw [Simulation.eq_withRun system, Simulation.abandon, Simulation.make_withRun]
  exact Stands.leave (run.lose hjob hrisky c.rules) steady hbatch scheduled

/-- Every stage takes at least one task. -/
theorem Stage.stepsLeft_pos (stage : Stage) : 0 < stage.stepsLeft := by
  cases stage <;> exact Nat.succ_pos _

/-- What dooms a job as it was at the start dooms it as it was claimed. -/
theorem Alone.dooms (h : Alone past l z m₀ m q r) (hz : z.Fits ω c m₀) {job : Job}
    (hjob : job ∈ r.batch.map Attempt.job) (doomed : z.doomed job.id) : c.Dooms ω job := by
  obtain ⟨a, ha, rfl⟩ := List.mem_map.mp hjob
  obtain ⟨lost, -, hprogress⟩ := h.progress
  obtain ⟨j, k, hj, -, origin, -, -, hread, -⟩ := hprogress.running a (List.mem_append_left _ ha)
  obtain ⟨p, -, hclaimed⟩ := Job.readWith_eq_ok.mp hread
  have haccount : j.account = a.job.account := hclaimed ▸ origin.account
  have hdomain : j.domain = a.job.domain := hclaimed ▸ origin.domain
  have hdooms := hz.dooms a.job.id j hj doomed
  rwa [Conditions.Dooms, haccount, hdomain] at hdooms

/-- **A task** of an attempt brings the run nearer to its end. -/
theorem Stands.attempt (hc : c.Decide) (hz : z.Fits ω c m₀) (system : s.system = ⟨q, [r]⟩)
    (run : Working past l z m₀ m q r) (steady : z.Steady s.jitter) {job : Job} {jobs : List Job}
    (hbatch : (r.batch.map Attempt.job).Perm (job :: jobs)) {deadline : Nat} {stage : Stage}
    (hstage : z.Foresees c.timeout.millis s.time deadline job stage)
    (scheduled : z.Scheduled c.timeout.millis s.time jobs s.agenda.entries)
    (hans : (s.perform c (.attempt 0 job deadline stage)).system.queue.store.Answered) :
    ∃ n < stage.stepsLeft + Task.work s.agenda.entries + (1 + 6 * m.claimsLeft),
      Stands past l z m₀ c (s.perform c (.attempt 0 job deadline stage)) n := by
  have hpositive := stage.stepsLeft_pos
  have hjob : job ∈ r.batch.map Attempt.job := hbatch.symm.subset List.mem_cons_self
  have hexpected := hz.covers.advance (run.dooms hz hjob) hstage s.world
  simp only [Simulation.perform] at hans ⊢
  cases hprogress : stage.advance c.registry c.timeout job (deadline - s.time) s.world with
  | mk progress world =>
    rw [hprogress] at hans hexpected
    cases progress with
    | ended outcome =>
      obtain ⟨n, hn, hstands⟩ := Stands.conclude (s := { s with world }) hc system run steady
        hbatch hexpected scheduled outcome hans
      dsimp only at hn
      exact ⟨n, by omega, hstands⟩
    | brokeDown =>
      obtain ⟨n, hn, hstands⟩ := Stands.abandon (s := { s with world }) system run steady hbatch
        hexpected scheduled
      dsimp only at hn
      exact ⟨n, by omega, hstands⟩
    | later delay next =>
      have hless := Stage.stepsLeft_lt hprogress
      let task : Task := .attempt 0 job deadline next
      have hwork := Task.work_insert (s.time + delay) task s.agenda.entries
      have hsteps : task.steps = next.stepsLeft := rfl
      have hscheduled := (scheduled.insert (Nat.le_add_right s.time delay) hexpected).perm
        hbatch.symm
      refine ⟨Task.work (Agenda.insert (s.time + delay) task s.agenda.entries) + _, ?_,
        .working system run steady hscheduled⟩
      omega

/-- **Every task brings the run nearer to its end.** With nothing left to do, it is there. -/
theorem Stands.next (hl : l.Positive) (hc : c.Decide) (hz : z.Fits ω c m₀)
    (h : Stands past l z m₀ c s n) :
    (s.agenda.next? = none ∧ n = 0) ∨
      ∃ time task agenda, s.agenda.next? = some ((time, task), agenda) ∧
        ((({ s with time := max s.time time, agenda } : Simulation (Journaled σ) ω).perform c
            task).system.queue.store.Answered →
          ∃ n' < n, Stands past l z m₀ c
            (({ s with time := max s.time time, agenda } : Simulation (Journaled σ) ω).perform c
              task) n') := by
  cases h with
  | ended _ _ agenda _ =>
    refine .inl ⟨?_, rfl⟩
    rw [Agenda.next?, agenda]
  | @resting q r m time system run steady agenda =>
    refine .inr ⟨time, .resume 0, ⟨[]⟩, ?_, fun hans => ?_⟩
    · rw [Agenda.next?, agenda]
    · rw [Simulation.perform] at hans ⊢
      exact Stands.resume (s := { s with time := max s.time time, agenda := ⟨[]⟩ }) hl system run
        steady rfl hans
  | @working q r m system run steady scheduled =>
    cases hentries : s.agenda.entries with
    | nil =>
      rw [hentries] at scheduled
      have hempty := List.Perm.eq_nil scheduled.jobs.symm
      exact absurd (List.map_eq_nil_iff.mp (List.map_eq_nil_iff.mp hempty)) run.begun
    | cons e rest =>
      obtain ⟨time, task⟩ := e
      rw [hentries] at scheduled
      -- the entry is for no time that has passed, so it is done at its own time
      have htime : max s.time time = time := Nat.max_eq_right (scheduled.ahead _ List.mem_cons_self)
      obtain ⟨job, deadline, stage, jobs, rfl, hbatch, hstage, hrest⟩ := scheduled.cons
      refine .inr ⟨time, .attempt 0 job deadline stage, ⟨rest⟩, ?_, ?_⟩
      · rw [Agenda.next?, hentries]
      · rw [htime]
        exact Stands.attempt (s := { s with time, agenda := ⟨rest⟩ }) hc hz system run steady
          hbatch hstage hrest

/-- **The run comes to its end** within as many tasks as are to be done at most. -/
theorem Stands.performAll (hl : l.Positive) (hc : c.Decide) (hz : z.Fits ω c m₀)
    {bound : Nat} (h : Stands past l z m₀ c s n) (hn : n ≤ bound)
    (hans : (s.performAll c bound).system.queue.store.Answered) :
    Stands past l z m₀ c (s.performAll c bound) 0 := by
  induction bound generalizing s n with
  | zero =>
    obtain rfl := Nat.le_zero.mp hn
    exact h
  | succ bound ih =>
    rw [Simulation.performAll] at hans ⊢
    rcases h.next hl hc hz with ⟨hnone, rfl⟩ | ⟨time, task, agenda, hsome, hperform⟩
    · rw [hnone]
      exact h
    · rw [hsome] at hans ⊢
      obtain ⟨n', hlt, hnext⟩ := hperform fun e he =>
        hans e (Simulation.Remembers.performAll he bound)
      exact ih hnext (by omega) hans

/-- **A simulation carries the run to its end.** -/
theorem Stands.finish (hl : l.Positive) (hc : c.Decide) (hz : z.Fits ω c m₀)
    (h : Stands past l z m₀ c s n) (hn : n ≤ s.taskBound)
    (hans : (s.finish c).system.queue.store.Answered) : Stands past l z m₀ c (s.finish c) 0 := by
  rw [Simulation.finish] at hans ⊢
  exact h.performAll hl hc hz hn hans

/-- What is known at the end of a run. -/
theorem Stands.of_zero (h : Stands past l z m₀ c s 0) :
    ∃ q r m, s.system = ⟨q, [r]⟩ ∧ Ended past l z m₀ m q r ∧ s.agenda.entries = [] ∧
      (JobStore.dueJobs s.now c.rules.window (some l.perAccount) q.store.store).1 = .ok [] := by
  generalize hn : 0 = n at h
  cases h with
  | resting => omega
  | working => omega
  | ended system run agenda nothing => exact ⟨_, _, _, system, run, agenda, nothing⟩

end Standing

/-! ## A run with nothing to do -/

section Nothing

variable {σ ω : Type} [JobStore σ] [World ω]

/-- A pass that finds nothing due changes nothing but the run. -/
theorem Run.pass_of_nothing_due {rules : RunRules} {time : Nat} {now : Instant} {r : Run}
    {q : Queue σ} (hphase : r.phase = .idle)
    (hdue : JobStore.dueJobs now rules.window (some q.pool.limits.perAccount) q.store =
      (.ok [], q.store)) : r.pass rules time now q = (r.finish none, q) := by
  have hjoin : r.apply rules .join q = (r, q) := by simp only [Run.apply, hphase]
  have hlook : r.apply rules (.look time now) q = (r.finish none, q) := by
    simp only [Run.apply, hphase, Run.look, hdue]
    split <;> rfl
  rw [Run.pass, hjoin]
  dsimp only
  rw [hlook]
  rfl

/-- With an empty agenda nothing happens. -/
theorem Simulation.performAll_of_next?_eq_none {c : Conditions} {s : Simulation σ ω}
    (h : s.agenda.next? = none) (n : Nat) : s.performAll c n = s := by
  cases n with
  | zero => rfl
  | succ n => rw [performAll, h]

/-- **If no job is due, a run does nothing.** -/
theorem Scheduler.run_of_nothing_due {s : Scheduler σ ω}
    (hdue : JobStore.dueJobs s.now s.settings.window.toNat (some s.queue.pool.limits.perAccount)
      s.queue.store = (.ok [], s.queue.store)) : s.run none = (.ok {}, s) := by
  let c := s.settings.conditions s.registry
  let t : Simulation σ ω := ⟨⟨s.queue, [({} : Run)]⟩, s.world, s.jitter, s.time, ⟨[]⟩⟩
  have hpass : ({} : Run).pass c.rules t.time t.now s.queue = (({} : Run).finish none, s.queue) :=
    Run.pass_of_nothing_due rfl hdue
  have hresume : t.resume c 0 = t.withRun (({} : Run).finish none, s.queue) := by
    refine (Simulation.resume_withRun t (({} : Run), s.queue)).trans ?_
    rw [hpass]
    rfl
  have hended : s.ended none = t.withRun (({} : Run).finish none, s.queue) := by
    rw [ended, Simulation.finish]
    obtain ⟨n, hn⟩ : ∃ n, (s.simulation none).taskBound = n + 1 :=
      ⟨_, (Nat.succ_pred_eq_of_pos (Nat.mul_pos (by decide) (Nat.succ_pos _))).symm⟩
    have hnext : (s.simulation none).agenda.next? = some ((s.time, .resume 0), ⟨[]⟩) := rfl
    have hfirst : ({ s.simulation none with time := max s.time s.time, agenda := ⟨[]⟩ } :
        Simulation σ ω) = t := by
      rw [Nat.max_self]
      rfl
    rw [hn, Simulation.performAll, hnext]
    dsimp only
    rw [show (s.simulation none).time = s.time from rfl, hfirst, Simulation.perform, hresume]
    exact Simulation.performAll_of_next?_eq_none rfl n
  rw [run_eq, hended]
  rfl

end Nothing

/-! ## The queue is drained -/

/-- Settings that break no rule allow attempts. -/
theorem Settings.Valid.positive_limits {s : Settings} (h : s.Valid) : s.limits.Positive := by
  have hpositive := h.positive
  simp only [Settings.positive, List.forall_mem_cons] at hpositive
  obtain ⟨-, -, -, htotal, hdomain, haccount, hpair, -⟩ := hpositive
  exact ⟨Nat.pos_of_ne_zero htotal, Nat.pos_of_ne_zero hdomain, Nat.pos_of_ne_zero haccount,
    Nat.pos_of_ne_zero hpair⟩

/-- A job that is due stays due if nothing is done to it. -/
theorem Job.isDue_mono {j : Job} {t u : Instant} (due : j.isDue t) (htu : t ≤ u) : j.isDue u := by
  rw [isDue, Bool.and_eq_true, decide_eq_true_eq, decide_eq_true_eq] at due ⊢
  rw [Instant.le_def] at htu due ⊢
  exact ⟨due.1, due.2.trans htu⟩

namespace Scheduler

variable {σ ω : Type} [Shelf σ] [World ω]

/-- **A scheduler runs its queue alone:** nobody else uses the store or the pool while it does, so
the store is asked for nothing but `Scheduler.exchanges`. -/
structure RunsAlone (s : Scheduler σ ω) : Prop where
  /-- the store came about in some way -/
  reachable : ∃ past, History Ledger.start past ∧ s.queue.store = current Ledger.start past
  valid : s.settings.fault? = none
  limits : s.queue.pool.limits = s.settings.limits
  /-- no permit is out -/
  unused : s.queue.pool.usage = {}
  /-- no call of the store fails -/
  answered : ∀ e ∈ s.exchanges, ∃ a, e.answer = .ok a
  /-- the clock does not go back -/
  forward : s.now ≤ (s.run none).2.now

/-- **Attempts on jobs of an account may be lost:** look-ups of the account may break down, or the
delay of a retry may not be worked out, since samples of jitter may fail to be numbers. -/
def MayLose (s : Scheduler σ ω) (account : AccountId) : Prop :=
  (∃ (w : ω) (message : Option String), (World.lookup account w).value = .brokeDown message) ∨
    ¬ s.jitter.IsNumeric

/-- **Attempts on a job are all lost:** look-ups of its account break down before an attempt has to
be over. -/
def Loses (s : Scheduler σ ω) (j : Job) : Prop := (s.settings.conditions s.registry).Dooms ω j

/-- **A run leaves a job running** that was not running before, as its attempt was lost. -/
structure LeavesRunning (s : Scheduler σ ω) (i : JobId) : Prop where
  running : Shelf.isRunning (s.run none).2.queue.store i
  waited : ¬ Shelf.isRunning s.queue.store i
  mayLose : ∃ j, (JobStore.get i (s.run none).2.queue.store).1 = .ok (some j) ∧ s.MayLose j.account

/-- **A run drains the queue,** but for the jobs whose attempts it loses. -/
structure Drained (s : Scheduler σ ω) : Prop where
  /-- the run ends by itself, and does not fail -/
  ends : (s.ended none).agenda.entries = [] ∧ (∀ r ∈ (s.ended none).system.runs, r.isFinished) ∧
    ∃ summary, (s.run none).1 = .ok summary
  /-- no job is due any more -/
  nothingDue : ∀ i, Shelf.isDue (s.run none).2.queue.store (s.run none).2.now i = false
  /-- every job that was due was attempted, unless its attempt was lost -/
  attempted : ∀ i, Shelf.isDue s.queue.store s.now i →
    (∃ before after, Shelf.standing s.queue.store i = some before ∧
      Shelf.standing (s.run none).2.queue.store i = some after ∧
      before.attempts < after.attempts) ∨ s.LeavesRunning i
  /-- what is running was running before and was left alone, unless its attempt was lost -/
  noneLeftRunning : ∀ i, Shelf.isRunning (s.run none).2.queue.store i →
    (Shelf.isRunning s.queue.store i ∧
      Shelf.standing (s.run none).2.queue.store i = Shelf.standing s.queue.store i) ∨
    s.LeavesRunning i
  /-- a job that was due is left running, with no attempt more, if its attempts are all lost -/
  leftRunning : ∀ i j, Shelf.isDue s.queue.store s.now i →
    (JobStore.get i s.queue.store).1 = .ok (some j) → s.Loses j → s.LeavesRunning i ∧
      (Shelf.standing (s.run none).2.queue.store i).map Standing.attempts =
        (Shelf.standing s.queue.store i).map Standing.attempts
  /-- another run has nothing to do, and changes nothing -/
  again : (s.run none).2.run none = (.ok {}, (s.run none).2)

/-- What a run over the jobs `m₀` may lose. -/
def hazard (s : Scheduler σ ω) (m₀ : Memory) : Hazard where
  risky := s.MayLose
  doomed i := ∃ j, m₀.jobs.get? i = some j ∧ s.Loses j

omit [Shelf σ] in
theorem hazard_fits (s : Scheduler σ ω) (m₀ : Memory) :
    (s.hazard m₀).Fits ω (s.settings.conditions s.registry) m₀ where
  covers _ w message h := .inl ⟨w, message, h⟩
  dooms _ _ hj := by
    rintro ⟨k, hk, loses⟩
    obtain rfl := Option.some.inj (hj.symm.trans hk)
    exact loses

omit [Shelf σ] in
theorem hazard_steady (s : Scheduler σ ω) (m₀ : Memory) : (s.hazard m₀).Steady s.jitter := by
  by_cases hnumeric : s.jitter.IsNumeric
  · exact .inl hnumeric
  · exact .inr fun _ => .inr hnumeric

/-- What the end of a run that is alone comes to: `m₀` are the jobs before, `m` those after. -/
structure EndsWith (s : Scheduler σ ω) (m₀ m : Memory) (q : Queue σ) (r : Run) : Prop where
  before : Ledger.Keeps s.queue.store m₀
  sound : m₀.Sound ∧ m.Sound
  after : Ledger.Keeps q.store m
  explained : (s.hazard m₀).Explains σ m₀ m []
  system : (s.ended none).system = ⟨q, [r]⟩
  phase : r.phase = .finished none
  agenda : (s.ended none).agenda.entries = []
  limits : q.pool.limits = s.settings.limits
  nothing : (JobStore.dueJobs (s.ended none).now s.settings.window.toNat
    (some s.settings.limits.perAccount) q.store).1 = .ok []

/-- The end of the run is that of a run over a journal that was empty at its start. -/
theorem ended_eq (s : Scheduler σ ω) : s.ended none =
    ((s.map fun store => (⟨store, []⟩ : Journaled σ)).ended none).map Journaled.store :=
  storeMap_store.finish (s.settings.conditions s.registry)
    ((s.map fun store => (⟨store, []⟩ : Journaled σ)).simulation none)

/-- **A run that is alone comes to its end.** -/
theorem RunsAlone.endsWith {s : Scheduler σ ω} (h : s.RunsAlone) :
    ∃ m₀ m q r, s.EndsWith m₀ m q r := by
  obtain ⟨past, hpast, hstore⟩ := h.reachable
  have hvalid := Settings.fault?_eq_none_iff.mp h.valid
  let c := s.settings.conditions s.registry
  let twin := s.map fun store => (⟨store, []⟩ : Journaled σ)
  obtain ⟨m₀, htracks⟩ := hpast.tracks
  have hkeeps : Ledger.Keeps s.queue.store m₀ := hstore ▸ htracks.keeps
  have horderly : Orderly (Journaled.onto past) s.settings.limits [] twin.queue
      [({ deadline := none } : Run)] :=
    orderly_start ⟨hpast, hstore.symm⟩ (Loan.exact_of_unused h.limits h.unused) [none]
  have hexplained : (s.hazard m₀).Explains σ m₀ m₀ [] :=
    ⟨[], fun _ ha => absurd ha List.not_mem_nil, Memory.progress_start m₀⟩
  have hstands : Stands past s.settings.limits (s.hazard m₀) m₀ c (twin.simulation none)
      (1 + 6 * m₀.claimsLeft) :=
    .resting rfl ⟨⟨horderly, htracks, hexplained, rfl⟩, .inl rfl, rfl, rfl⟩
      (s.hazard_steady m₀) rfl
  have hdecides : c.Decide := fun j outcome now sample hsample =>
    hvalid.isSome_decide? j outcome now hsample
  have hbound : 1 + 6 * m₀.claimsLeft ≤ (twin.simulation none).taskBound := by
    have hleft := Shelf.claimsLeft_le hkeeps
    show _ ≤ 16 * (JobStore.backlog s.queue.store + 1 + 1)
    omega
  have hstood : Stands past s.settings.limits (s.hazard m₀) m₀ c (twin.ended none) 0 := by
    have hanswered : (twin.ended none).system.queue.store.Answered := by
      rw [Journaled.Answered, ← exchanges_eq]
      exact h.answered
    have hended : twin.ended none = (twin.simulation none).finish c := rfl
    rw [hended] at hanswered ⊢
    exact hstands.finish hvalid.positive_limits hdecides (s.hazard_fits m₀) hbound hanswered
  have hended : s.ended none = (twin.ended none).map Journaled.store := ended_eq s
  generalize twin.ended none = e at hstood hended
  obtain ⟨q, r, m, hsystem, hrun, hagenda, hnothing⟩ := hstood.of_zero
  refine ⟨m₀, m, q.map Journaled.store, r, hkeeps, ⟨htracks.sound, hrun.tracks.sound⟩, hrun.keeps,
    hrun.batch ▸ hrun.progress, ?_, hrun.phase, ?_, hrun.pool_limits, ?_⟩
  · rw [hended, Simulation.map, hsystem]
    rfl
  · rw [hended]
    exact hagenda
  · rw [hended]
    exact hnothing

variable {s : Scheduler σ ω} {m₀ m : Memory} {q : Queue σ} {r : Run}

namespace EndsWith

/-- The scheduler afterwards. -/
theorem run_eq (h : s.EndsWith m₀ m q r) :
    (s.run none).1 = .ok r.summary ∧ (s.run none).2.queue = q ∧
      (s.run none).2.now = (s.ended none).now ∧ (s.run none).2.settings = s.settings := by
  rw [Scheduler.run_eq, h.system]
  have hqueue := congrArg System.queue h.system
  generalize s.ended none = e at hqueue ⊢
  refine ⟨?_, hqueue, rfl, rfl⟩
  simp only [List.head?_cons, Option.map_some, Option.getD_some, resultOf, h.phase]

/-- No job is due at the end. -/
theorem not_isDue (h : s.EndsWith m₀ m q r) (hs : s.settings.Valid) (i : JobId) :
    Shelf.isDue q.store (s.ended none).now i = false := by
  have hnone := Shelf.dueJobs_nil h.after (Nat.pos_of_ne_zero (hs.positive
    ("candidate_window", s.settings.window.toNat) (by simp [Settings.positive])))
    (by rintro _ ⟨⟩; exact hs.positive_limits.perAccount) h.nothing
  rw [Shelf.isDue_eq _ i h.after]
  cases hj : m.jobs.get? i with
  | none => rfl
  | some j => exact Bool.eq_false_iff.mpr (hnone i j hj)

/-- **What became of a job:** it was left alone, attempted, or its attempt was lost. -/
theorem fate (h : s.EndsWith m₀ m q r) (i : JobId) :
    m.jobs.get? i = m₀.jobs.get? i ∨ Memory.Attempted (s.hazard m₀).doomed m₀ m i ∨
      ∃ j k, m₀.jobs.get? i = some j ∧ m.jobs.get? i = some k ∧ k.status = .running ∧
        (j.attempts = k.attempts ∨ ¬ (s.hazard m₀).doomed i) ∧ s.LeavesRunning i := by
  obtain ⟨lost, hlost, hprogress⟩ := h.explained
  rw [List.nil_append] at hprogress
  by_cases hi : ∀ a ∈ lost, a.job.id ≠ i
  · exact (hprogress.others i hi).imp id .inl
  · push Not at hi
    obtain ⟨a, ha, rfl⟩ := hi
    obtain ⟨j, k, hj, hk, -, waited, running, hread, hattempts⟩ := hprogress.running a ha
    refine .inr (.inr ⟨j, k, hj, hk, running, hattempts.imp id And.right, ?_⟩)
    have hget : (JobStore.get a.job.id q.store).1 = .ok (some a.job) := by
      rw [Ledger.get_eq _ h.after h.sound.2, hk, Job.readFound, hread]
      rfl
    have hrunning : Shelf.isRunning q.store a.job.id := by
      rw [Ledger.isRunning_eq h.after, hk]
      exact decide_eq_true running
    have hwaited : ¬ Shelf.isRunning s.queue.store a.job.id := by
      rw [Ledger.isRunning_eq h.before, hj, Job.runs, Option.any_some, waited]
      decide
    obtain ⟨-, rfl, -⟩ := h.run_eq
    exact ⟨hrunning, hwaited, a.job, hget, hlost a ha⟩

/-- A job that was due was not left alone, since it would be due still. -/
theorem ne_of_isDue (h : s.EndsWith m₀ m q r) (hs : s.settings.Valid)
    (hforward : s.now ≤ (s.ended none).now) {i : JobId}
    (due : Shelf.isDue s.queue.store s.now i) : m.jobs.get? i ≠ m₀.jobs.get? i := by
  intro hsame
  have hstill := h.not_isDue hs i
  rw [Shelf.isDue_eq _ i h.before] at due
  rw [Shelf.isDue_eq _ i h.after, hsame] at hstill
  cases hj : m₀.jobs.get? i with
  | none => rw [hj] at due; cases due
  | some j =>
    rw [hj, Option.any_some] at due hstill
    rw [Job.isDue_mono due (Shelf.round_mono hforward)] at hstill
    cases hstill

/-- A job that was due was attempted. -/
theorem attempted (h : s.EndsWith m₀ m q r) (hs : s.settings.Valid)
    (hforward : s.now ≤ (s.ended none).now) {i : JobId}
    (due : Shelf.isDue s.queue.store s.now i) : (∃ before after,
      Shelf.standing s.queue.store i = some before ∧ Shelf.standing q.store i = some after ∧
        before.attempts < after.attempts) ∨ s.LeavesRunning i := by
  rcases h.fate i with hsame | ⟨j, k, hj, hk, -, -, -, hlt, -⟩ | ⟨-, -, -, -, -, -, hleaves⟩
  · exact absurd hsame (h.ne_of_isDue hs hforward due)
  · rw [Shelf.standing_eq i h.before, Shelf.standing_eq i h.after, hj, hk]
    exact .inl ⟨_, _, rfl, rfl, Int.ofNat_lt.mpr hlt⟩
  · exact .inr hleaves

/-- A job that is running was running before. -/
theorem running_before (h : s.EndsWith m₀ m q r) {i : JobId}
    (running : Shelf.isRunning q.store i) : (Shelf.isRunning s.queue.store i ∧
      Shelf.standing q.store i = Shelf.standing s.queue.store i) ∨ s.LeavesRunning i := by
  rcases h.fate i with hsame | ⟨-, k, -, hk, -, -, hnot, -⟩ | ⟨-, -, -, -, -, -, hleaves⟩
  · rw [Shelf.isRunning, Shelf.standing_eq i h.after] at running
    rw [Shelf.isRunning, Shelf.standing_eq i h.before, Shelf.standing_eq i h.after, ← hsame]
    exact .inl ⟨running, rfl⟩
  · rw [Shelf.isRunning, Shelf.standing_eq i h.after, hk] at running
    exact absurd (of_decide_eq_true running) hnot
  · exact .inr hleaves

/-- A job that was due is left running if its attempts are all lost. -/
theorem leftRunning (h : s.EndsWith m₀ m q r) (hs : s.settings.Valid)
    (hforward : s.now ≤ (s.ended none).now) {i : JobId} {j : Job}
    (due : Shelf.isDue s.queue.store s.now i)
    (hget : (JobStore.get i s.queue.store).1 = .ok (some j)) (loses : s.Loses j) :
    s.LeavesRunning i ∧ (Shelf.standing q.store i).map Standing.attempts =
      (Shelf.standing s.queue.store i).map Standing.attempts := by
  have doomed : (s.hazard m₀).doomed i := by
    rw [Ledger.get_eq _ h.before h.sound.1] at hget
    cases hj : m₀.jobs.get? i with
    | none => rw [hj] at hget; cases hget
    | some k =>
      cases hread : k.readWith (Ledger.reread σ) with
      | error e => simp [hj, Job.readFound, hread, Except.map] at hget
      | ok j' =>
        obtain rfl : j' = j := by simpa [hj, Job.readFound, hread, Except.map] using hget
        obtain ⟨p, -, rfl⟩ := Job.readWith_eq_ok.mp hread
        exact ⟨k, hj, loses⟩
  rcases h.fate i with hsame | ⟨-, -, -, -, -, -, -, -, hsafe⟩ |
    ⟨k, k', hk, hk', -, hattempts, hleaves⟩
  · exact absurd hsame (h.ne_of_isDue hs hforward due)
  · exact absurd doomed hsafe
  · refine ⟨hleaves, ?_⟩
    have hsame : k.attempts = k'.attempts := hattempts.resolve_right fun hsafe => hsafe doomed
    rw [Shelf.standing_eq i h.before, Shelf.standing_eq i h.after, hk, hk']
    simp only [Option.map_some, Job.standing, hsame]

end EndsWith

/-- **A run that is alone drains the queue,** whatever the store is. -/
theorem RunsAlone.drained (h : s.RunsAlone) : s.Drained := by
  have hvalid := Settings.fault?_eq_none_iff.mp h.valid
  obtain ⟨m₀, m, q, r, hends⟩ := h.endsWith
  obtain ⟨hanswer, hqueue, hnow, hsettings⟩ := hends.run_eq
  have hforward := h.forward
  rw [hnow] at hforward
  constructor
  · refine ⟨hends.agenda, ?_, _, hanswer⟩
    rw [hends.system]
    intro r' hr'
    obtain rfl := List.mem_singleton.mp hr'
    rw [Run.isFinished, hends.phase]
  · rw [hqueue, hnow]
    exact hends.not_isDue hvalid
  · rw [hqueue]
    exact fun i due => hends.attempted hvalid hforward due
  · rw [hqueue]
    exact fun i running => hends.running_before running
  · rw [hqueue]
    exact fun i j due hget loses => hends.leftRunning hvalid hforward due hget loses
  · refine run_of_nothing_due ?_
    rw [hqueue, hnow, hsettings, hends.limits]
    exact Prod.ext hends.nothing (Ledger.dueJobs_state _ _ _ _)

end Scheduler

/-- No call fails if all answers are good. -/
theorem Exchange.answered_of_all {σ : Type} [JobStore σ] {past : List (Exchange σ)}
    (h : past.all fun e => e.answer.isOk) : ∀ e ∈ past, ∃ a, e.answer = .ok a := by
  intro e he
  have hok := List.all_eq_true.mp h e he
  cases ha : e.answer with
  | ok a => exact ⟨a, rfl⟩
  | error _ => rw [ha] at hok; cases hok

/-! ## A queue that is drained -/

/-- A job that is due at once and may be attempted twice. -/
def NewJob.twice (n : BitVec 128) : NewJob :=
  ⟨⟨n⟩, ⟨1⟩, .email, Demonstration.payload false, 2, .epoch, .epoch⟩

/-- The history of a store with two such jobs, of which somebody left the first one running. -/
def Ledger.halfDone (σ : Type) [Ledger σ] : List (Exchange σ) :=
  replay start [.enqueue (.twice 2), .claim ⟨1⟩ .epoch, .enqueue (.twice 1)]

theorem Ledger.history_halfDone (σ : Type) [Ledger σ] : History start (halfDone σ) := by
  have hfresh : (⟨2⟩ : JobId) ∉ [(⟨1⟩ : JobId)] := by decide
  have hfirst : History (start : σ) (replay start [.enqueue (.twice 1)]) :=
    .step .nil _ ⟨List.not_mem_nil, by decide⟩
  exact (hfirst.step (.claim ⟨1⟩ .epoch) trivial).step _ ⟨hfresh, by decide⟩

/-- A scheduler of that store in a world where every call fails for the time being. -/
def Scheduler.failing (σ : Type) [Ledger σ] : Scheduler σ Demonstration :=
  { plain (current Ledger.start (Ledger.halfDone σ)) 0 with
    world := {
      start := .epoch
      directory := .ofAccounts [⟨⟨1⟩, "imap", "Demo 1", "demo1@example.com"⟩]
      failEvery := 1 } }

/-- A scheduler of a store that came about in some way runs its queue alone, if its settings break
no rule. -/
theorem Scheduler.runsAlone_of_history {σ ω : Type} [Shelf σ] [World ω] {s : Scheduler σ ω}
    {past : List (Exchange σ)} (hpast : History Ledger.start past)
    (hqueue : s.queue = ⟨current Ledger.start past, {}⟩) (hsettings : s.settings = {})
    (hanswers : s.exchanges.all fun e => e.answer.isOk)
    (hforward : s.now ≤ (s.run none).2.now) : s.RunsAlone where
  reachable := ⟨past, hpast, hqueue ▸ rfl⟩
  valid := by
    rw [hsettings]
    decide +kernel
  limits := by rw [hqueue, hsettings]
  unused := hqueue ▸ rfl
  answered := Exchange.answered_of_all hanswers
  forward := hforward

/-- A world in which time stands still and every look-up of an account breaks down. -/
structure Blackout where

instance : World Blackout where
  now _ _ := .epoch
  lag _ _ := 0
  lookup _ _ := ⟨0, .brokeDown none⟩
  call _ _ _ w := (⟨0, 0, .brokeDown none⟩, w)
  finish call w := (call.ending, w)

/-- A scheduler of the same store in that world. -/
def Scheduler.blackedOut (σ : Type) [Ledger σ] : Scheduler σ Blackout where
  settings := {}
  registry := .full
  queue := ⟨current Ledger.start (Ledger.halfDone σ), {}⟩
  ids := .stepping ⟨2⟩ 1
  world := {}
  jitter := .none

/-- A job is left running by a run that ends without an error and counts nothing: the job was due
and not running before, and no attempt of it is counted. -/
def Scheduler.Strands {σ ω : Type} [Shelf σ] [World ω] (s : Scheduler σ ω) (i : JobId) : Prop :=
  (s.run none).1 = .ok {} ∧
    (Shelf.isDue s.queue.store s.now i ∧ ¬ Shelf.isRunning s.queue.store i) ∧
    Shelf.isRunning (s.run none).2.queue.store i ∧
    (Shelf.standing (s.run none).2.queue.store i).map Standing.attempts = some 0

end SyncJobs
