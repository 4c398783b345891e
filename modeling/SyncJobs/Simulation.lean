import SyncJobs.Agenda
import SyncJobs.Attempt
import SyncJobs.Dispatch
import SyncJobs.Jitter
import SyncJobs.Settings

/-!
# Simulating runs

A simulation carries runs through to their end against a world. Time passes only where something
takes time: the simulation keeps an agenda of what is to be done when, and goes from entry to
entry. A run that has begun a batch of attempts goes on when the last of them is settled; the
attempts of a batch take turns, one thing at a time.

The runs themselves change only by the steps of `System.apply`.
-/

namespace SyncJobs

/-- What is to be done. -/
inductive Task where
  /-- carry a run on, up to the attempts of its next batch -/
  | resume (run : Nat)
  /-- carry on an attempt of a run; its time is up at the deadline -/
  | attempt (run : Nat) (job : Job) (deadline : Nat) (stage : Stage)

/-- What stays the same during a simulation. -/
structure Conditions where
  registry : Registry
  timeout : Duration
  rules : RunRules

/-- The conditions that settings and a registry make. -/
def Settings.conditions (s : Settings) (registry : Registry) : Conditions :=
  ⟨registry, s.timeout, ⟨s.window.toNat, s.backoff.policy⟩⟩

/-- **Runs in the course of time.** -/
structure Simulation (σ ω : Type) where
  system : System σ
  world : ω
  jitter : Jitter
  /-- the milliseconds that have passed -/
  time : Nat
  agenda : Agenda Task

namespace Simulation

variable {σ ω : Type} [JobStore σ] [World ω]

/-- What the clock shows. -/
def now (s : Simulation σ ω) : Instant := World.now s.time s.world

/-- Makes a step of a run. -/
def make (c : Conditions) (run : Nat) (step : Step) (s : Simulation σ ω) : Simulation σ ω :=
  { s with system := s.system.apply c.rules (.step run step) }

/-- Enters a task for a time that lies a number of milliseconds ahead. -/
def schedule (delay : Nat) (task : Task) (s : Simulation σ ω) : Simulation σ ω :=
  { s with agenda := s.agenda.add (s.time + delay) task }

/-- The run with a number. -/
def run (i : Nat) (s : Simulation σ ω) : Run := s.system.runs[i]?.getD default

/-- Claims the jobs that got permits, so many at most. -/
def claimAll (c : Conditions) (i : Nat) : Nat → Simulation σ ω → Simulation σ ω
  | 0, s => s
  | n + 1, s => claimAll c i n (s.make c i (.claim s.time))

/-- How many jobs a run has still to claim. -/
def toClaim (r : Run) : Nat :=
  match r.phase with
  | .claiming _ granted _ => granted.length
  | _ => 0

/-- Enters the first tasks of attempts. -/
def beginAll (c : Conditions) (i : Nat) (batch : List Attempt) (s : Simulation σ ω) :
    Simulation σ ω :=
  batch.foldl (fun s a => s.schedule 0 (.attempt i a.job (s.time + c.timeout.millis) .begin)) s

/-- **Carries a run on** to the next batch of attempts or to its end. -/
def resume (c : Conditions) (i : Nat) (s : Simulation σ ω) : Simulation σ ω :=
  let s := s.make c i .join
  let s := s.make c i (.look s.time s.now)
  let s := s.make c i .allocate
  let s := s.claimAll c i (toClaim (s.run i))
  let s := s.make c i .launch
  s.beginAll c i (s.run i).batch

/-- Gives the permit of an attempt back, and lets the run go on after the last one. -/
def leave (c : Conditions) (i : Nat) (s : Simulation σ ω) : Simulation σ ω :=
  let s := s.make c i .release
  if (s.run i).batch.isEmpty then s.schedule 0 (.resume i) else s

/-- Settles an attempt. A sample of jitter is taken only for a retry. -/
def conclude (c : Conditions) (i : Nat) (job : Job) (outcome : Outcome) (s : Simulation σ ω) :
    Simulation σ ω :=
  let (sample, jitter) := if job.retries outcome then s.jitter.next else (.zero false, s.jitter)
  let s := { s with jitter }
  (s.make c i (.settle job.receipt outcome s.now sample)).leave c i

/-- Gives up an attempt that broke down. -/
def abandon (c : Conditions) (i : Nat) (job : Job) (s : Simulation σ ω) : Simulation σ ω :=
  (s.make c i (.lose job.receipt)).leave c i

/-- Does one task. -/
def perform (c : Conditions) (task : Task) (s : Simulation σ ω) : Simulation σ ω :=
  match task with
  | .resume i => s.resume c i
  | .attempt i job deadline stage =>
    let (progress, world) := stage.advance c.registry c.timeout job (deadline - s.time) s.world
    let s := { s with world }
    match progress with
    | .ended outcome => s.conclude c i job outcome
    | .brokeDown => s.abandon c i job
    | .later delay stage => s.schedule delay (.attempt i job deadline stage)

/-- Does the tasks of the agenda, so many at most. -/
def performAll (c : Conditions) : Nat → Simulation σ ω → Simulation σ ω
  | 0, s => s
  | n + 1, s => match s.agenda.next? with
    | none => s
    | some ((time, task), agenda) =>
      performAll c n ({ s with time := max s.time time, agenda }.perform c task)

/-- A bound on the number of tasks: a job is claimed at most twice for each attempt left to it,
and no claim leads to more than six tasks and one more pass. -/
def taskBound (s : Simulation σ ω) : Nat :=
  16 * (JobStore.backlog s.system.queue.store + s.system.runs.length + 1)

/-- **Carries all runs through.** -/
def finish (c : Conditions) (s : Simulation σ ω) : Simulation σ ω := s.performAll c s.taskBound

end Simulation

end SyncJobs
