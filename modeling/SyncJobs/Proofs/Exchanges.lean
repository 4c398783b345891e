import SyncJobs.Proofs.Journal
import SyncJobs.Scheduler

/-!
# What a scheduler asks of its store

A map between stores that answer alike carries whole simulations over, and with them what a
scheduler does when it runs the queue (`StoreMap.run`). A scheduler whose store keeps a journal
therefore does the same as one whose store keeps none, and its journal tells what both asked of
their stores (`Scheduler.exchanges`). Nothing is ever taken off the journal
(`Simulation.Remembers.performAll`).
-/

namespace SyncJobs

section Maps

variable {σ τ : Type} [JobStore σ] [JobStore τ] {f : σ → τ}

/-! ## Simulations -/

namespace Simulation

variable {ω : Type}

/-- The same simulation over another store. -/
def map (f : σ → τ) (s : Simulation σ ω) : Simulation τ ω :=
  ⟨s.system.map f, s.world, s.jitter, s.time, s.agenda⟩

omit [JobStore σ] [JobStore τ] in
theorem map_time (s : Simulation σ ω) : (s.map f).time = s.time := rfl

omit [JobStore σ] [JobStore τ] in
theorem map_world (s : Simulation σ ω) : (s.map f).world = s.world := rfl

omit [JobStore σ] [JobStore τ] in
theorem map_run (i : Nat) (s : Simulation σ ω) : (s.map f).run i = s.run i := rfl

omit [JobStore σ] [JobStore τ] in
theorem map_now [World ω] (s : Simulation σ ω) : (s.map f).now = s.now := rfl

omit [JobStore σ] [JobStore τ] in
theorem map_beginAll (c : Conditions) (i : Nat) (batch : List Attempt) (s : Simulation σ ω) :
    (s.map f).beginAll c i batch = (s.beginAll c i batch).map f := by
  induction batch generalizing s with
  | nil => rfl
  | cons a batch ih =>
    exact ih (s.schedule 0 (.attempt i a.job (s.time + c.timeout.millis) .begin))

/-- Settles an attempt with a sample that was drawn, and goes on with the jitter that is left. -/
def concludeWith [World ω] (c : Conditions) (i : Nat) (job : Job) (outcome : Outcome)
    (drawn : Binary64 × Jitter) (s : Simulation σ ω) : Simulation σ ω :=
  let s := { s with jitter := drawn.2 }
  (s.make c i (.settle job.receipt outcome s.now drawn.1)).leave c i

omit [JobStore τ] in
theorem conclude_eq [World ω] (c : Conditions) (i : Nat) (job : Job) (outcome : Outcome)
    (s : Simulation σ ω) : s.conclude c i job outcome = s.concludeWith c i job outcome
      (if job.retries outcome then s.jitter.next else (.zero false, s.jitter)) := rfl

end Simulation

namespace StoreMap

variable {ω : Type}

theorem make (h : StoreMap f) (c : Conditions) (i : Nat) (step : Step) (s : Simulation σ ω) :
    (s.map f).make c i step = (s.make c i step).map f := by
  rw [Simulation.make, Simulation.map, h.apply]
  rfl

theorem claimAll (h : StoreMap f) (c : Conditions) (i n : Nat) (s : Simulation σ ω) :
    (s.map f).claimAll c i n = (s.claimAll c i n).map f := by
  induction n generalizing s with
  | zero => rfl
  | succ n ih =>
    rw [Simulation.claimAll, Simulation.claimAll, h.make]
    exact ih _

theorem leave (h : StoreMap f) (c : Conditions) (i : Nat) (s : Simulation σ ω) :
    (s.map f).leave c i = (s.leave c i).map f := by
  simp only [Simulation.leave, h.make, Simulation.map_run]
  split <;> rfl

theorem abandon (h : StoreMap f) (c : Conditions) (i : Nat) (job : Job) (s : Simulation σ ω) :
    (s.map f).abandon c i job = (s.abandon c i job).map f := by
  rw [Simulation.abandon, Simulation.abandon, h.make, h.leave]

variable [World ω]

theorem resume (h : StoreMap f) (c : Conditions) (i : Nat) (s : Simulation σ ω) :
    (s.map f).resume c i = (s.resume c i).map f := by
  simp only [Simulation.resume, h.make, h.claimAll, Simulation.map_time, Simulation.map_now,
    Simulation.map_run, Simulation.map_beginAll]

theorem concludeWith (h : StoreMap f) (c : Conditions) (i : Nat) (job : Job) (outcome : Outcome)
    (drawn : Binary64 × Jitter) (s : Simulation σ ω) :
    (s.map f).concludeWith c i job outcome drawn =
      (s.concludeWith c i job outcome drawn).map f := by
  have hmap : ({ s.map f with jitter := drawn.2 } : Simulation τ ω) =
      ({ s with jitter := drawn.2 } : Simulation σ ω).map f := rfl
  simp only [Simulation.concludeWith, hmap, h.make, h.leave, Simulation.map_now]

theorem perform (h : StoreMap f) (c : Conditions) (task : Task) (s : Simulation σ ω) :
    (s.map f).perform c task = (s.perform c task).map f := by
  cases task with
  | resume i => exact h.resume c i s
  | attempt i job deadline stage =>
    simp only [Simulation.perform, Simulation.map_time, Simulation.map_world]
    cases hprogress : stage.advance c.registry c.timeout job (deadline - s.time) s.world with
    | mk progress world =>
      cases progress with
      | ended outcome =>
        simp only [Simulation.conclude_eq]
        exact h.concludeWith c i job outcome _ { s with world }
      | brokeDown => exact h.abandon c i job { s with world }
      | later delay stage => rfl

theorem performAll (h : StoreMap f) (c : Conditions) (n : Nat) (s : Simulation σ ω) :
    (s.map f).performAll c n = (s.performAll c n).map f := by
  induction n generalizing s with
  | zero => rfl
  | succ n ih =>
    simp only [Simulation.performAll]
    have hagenda : (s.map f).agenda = s.agenda := rfl
    rw [hagenda]
    cases s.agenda.next? with
    | none => rfl
    | some next =>
      obtain ⟨⟨time, task⟩, agenda⟩ := next
      have hperform := h.perform c task { s with time := max s.time time, agenda }
      exact (congrArg (Simulation.performAll c n) hperform).trans (ih _)

theorem finish (h : StoreMap f) (c : Conditions) (s : Simulation σ ω) :
    (s.map f).finish c = (s.finish c).map f := by
  have hbound : (s.map f).taskBound = s.taskBound := by
    rw [Simulation.taskBound, Simulation.taskBound]
    exact congrArg (fun n => 16 * (n + _ + 1)) (h.backlog s.system.queue.store)
  rw [Simulation.finish, Simulation.finish, hbound, h.performAll]

end StoreMap

/-! ## Schedulers -/

namespace Scheduler

variable {ω : Type}

/-- The same scheduler over another store. -/
def map (f : σ → τ) (s : Scheduler σ ω) : Scheduler τ ω :=
  ⟨s.settings, s.registry, s.queue.map f, s.ids, s.jitter, s.world, s.time⟩

/-- The simulation in which a single run starts. -/
def simulation (budget : Option Nat) (s : Scheduler σ ω) : Simulation σ ω where
  system := ⟨s.queue, [{ deadline := budget.map (s.time + ·) }]⟩
  world := s.world
  jitter := s.jitter
  time := s.time
  agenda := ⟨[(s.time, .resume 0)]⟩

/-- The end of that simulation. -/
def ended [World ω] (budget : Option Nat) (s : Scheduler σ ω) : Simulation σ ω :=
  (s.simulation budget).finish (s.settings.conditions s.registry)

/-- The scheduler after a simulation. -/
def after (s : Scheduler σ ω) (e : Simulation σ ω) : Scheduler σ ω :=
  { s with queue := e.system.queue, world := e.world, jitter := e.jitter, time := e.time }

omit [JobStore τ] in
theorem run_eq [World ω] (budget : Option Nat) (s : Scheduler σ ω) :
    s.run budget = (((s.ended budget).system.runs.head?.map resultOf).getD (.ok {}),
      s.after (s.ended budget)) := by
  have hagenda : (List.range 1).foldl (fun (a : Agenda Task) i => a.add s.time (.resume i)) .empty =
      ⟨[(s.time, .resume 0)]⟩ := rfl
  simp only [run, runAll, List.map_cons, List.map_nil, List.length_singleton, hagenda]
  rw [ended, simulation, after]

end Scheduler

/-- **A scheduler runs the queue** in the same way over the other store. -/
theorem StoreMap.run {ω : Type} [World ω] (h : StoreMap f) (budget : Option Nat)
    (s : Scheduler σ ω) : (s.map f).run budget = ((s.run budget).1, (s.run budget).2.map f) := by
  have hended : (s.map f).ended budget = (s.ended budget).map f :=
    h.finish (s.settings.conditions s.registry) (s.simulation budget)
  rw [Scheduler.run_eq, Scheduler.run_eq, hended]
  generalize s.ended budget = e
  rfl

end Maps

/-- **What a scheduler asks of its store** while it runs the queue to its end, the latest call
first. -/
def Scheduler.exchanges {σ ω : Type} [JobStore σ] [World ω] (s : Scheduler σ ω) :
    List (Exchange σ) :=
  ((s.map fun store => (⟨store, []⟩ : Journaled σ)).run none).2.queue.store.journal

theorem Scheduler.exchanges_eq {σ ω : Type} [JobStore σ] [World ω] (s : Scheduler σ ω) :
    s.exchanges =
      ((s.map fun store => (⟨store, []⟩ : Journaled σ)).ended none).system.queue.store.journal := by
  rw [exchanges, run_eq]
  generalize (s.map fun store => (⟨store, []⟩ : Journaled σ)).ended none = e
  rfl

/-! ## Journals grow -/

section Growth

variable {σ ω : Type} [JobStore σ] {e : Exchange σ}

/-- **Nothing is taken off a journal** by a step of a run. -/
theorem Run.mem_journal {rules : RunRules} {step : Step} {r : Run} {q : Queue (Journaled σ)}
    (h : e ∈ q.store.journal) : e ∈ (r.apply rules step q).2.store.journal := by
  have hafter : ∀ c, e ∈ (q.store.after c).journal := fun _ => List.mem_cons_of_mem _ h
  rw [Run.apply.eq_def]
  split
  · rw [Run.look]
    split
    · exact h
    · split
      all_goals
        rename_i heq
        have hstore := congrArg (fun a => a.2.journal) heq
        exact hstore ▸ hafter _
  · exact h
  · split
    · exact h
    · rw [Run.claim]
      split
      all_goals
        rename_i heq
        have hstore := congrArg (fun a => a.2.journal) heq
        exact hstore ▸ hafter _
  · exact h
  · split
    · rw [Run.settle]
      split
      · exact h
      · split
        all_goals
          rename_i heq
          have hstore := congrArg (fun a => a.2.journal) heq
          exact hstore ▸ hafter _
    · exact h
  · split <;> exact h
  · split <;> exact h
  · split <;> exact h
  · exact h

namespace Simulation

variable {c : Conditions} {s : Simulation (Journaled σ) ω}

/-- The exchange is in the journal of the store. -/
def Remembers (s : Simulation (Journaled σ) ω) (e : Exchange σ) : Prop :=
  e ∈ s.system.queue.store.journal

theorem Remembers.make (h : s.Remembers e) (i : Nat) (step : Step) :
    (s.make c i step).Remembers e := by
  rw [Remembers, Simulation.make, System.apply]
  cases s.system.runs[i]? with
  | none => exact h
  | some r => exact Run.mem_journal h

theorem Remembers.claimAll (h : s.Remembers e) (i n : Nat) :
    (s.claimAll c i n).Remembers e := by
  induction n generalizing s with
  | zero => exact h
  | succ n ih => exact ih (h.make i _)

omit [JobStore σ] in
theorem Remembers.beginAll (h : s.Remembers e) (i : Nat) (batch : List Attempt) :
    (s.beginAll c i batch).Remembers e := by
  induction batch generalizing s with
  | nil => exact h
  | cons a batch ih =>
    have hnext : (s.schedule 0 (.attempt i a.job (s.time + c.timeout.millis) .begin)).Remembers e :=
      h
    exact ih hnext

theorem Remembers.leave (h : s.Remembers e) (i : Nat) : (s.leave c i).Remembers e := by
  rw [Simulation.leave]
  split
  · exact Remembers.make h i _
  · exact Remembers.make h i _

variable [World ω]

theorem Remembers.resume (h : s.Remembers e) (i : Nat) : (s.resume c i).Remembers e := by
  rw [Simulation.resume]
  refine Remembers.beginAll (Remembers.make (Remembers.claimAll ?_ i _) i _) i _
  exact Remembers.make (Remembers.make (Remembers.make h i _) i _) i _

theorem Remembers.concludeWith (h : s.Remembers e) (i : Nat) (job : Job) (outcome : Outcome)
    (drawn : Binary64 × Jitter) : (s.concludeWith c i job outcome drawn).Remembers e := by
  have hdrawn : ({ s with jitter := drawn.2 } : Simulation _ ω).Remembers e := h
  exact Remembers.leave (Remembers.make hdrawn i _) i

theorem Remembers.perform (h : s.Remembers e) (task : Task) : (s.perform c task).Remembers e := by
  cases task with
  | resume i => exact h.resume i
  | attempt i job deadline stage =>
    simp only [Simulation.perform]
    have hworld : ∀ world, ({ s with world } : Simulation _ ω).Remembers e := fun _ => h
    split
    · rw [conclude_eq]
      exact (hworld _).concludeWith i job _ _
    · exact Remembers.leave (Remembers.make (hworld _) i _) i
    · exact h

/-- **Nothing is taken off a journal** by a simulation. -/
theorem Remembers.performAll (h : s.Remembers e) (n : Nat) : (s.performAll c n).Remembers e := by
  induction n generalizing s with
  | zero => exact h
  | succ n ih =>
    rw [Simulation.performAll]
    cases s.agenda.next? with
    | none => exact h
    | some next =>
      obtain ⟨⟨time, task⟩, agenda⟩ := next
      exact ih (Remembers.perform (s := { s with time := max s.time time, agenda }) h task)

end Simulation

end Growth

end SyncJobs
