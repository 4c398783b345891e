import SyncJobs.Proofs.Alone

/-!
# The agenda of a run that is alone

A run that waits has one entry on the agenda for each of its attempts (`Hazard.Scheduled`), and each
entry tells what may become of the attempt (`Hazard.Foresees`): it is lost only if a look-up of its
account may break down, and one on a doomed job is lost in any case. The entries stand in the order
of their times, so an attempt begins at the time that it was entered for and has all its time left
then. Each thing that an attempt does keeps to what was foreseen (`Hazard.Covers.advance`).
-/

namespace SyncJobs

/-! ## Agendas -/

namespace Agenda

variable {α : Type}

/-- Entering something adds just that. -/
theorem insert_perm (time : Nat) (a : α) (es : List (Nat × α)) :
    (insert time a es).Perm ((time, a) :: es) := by
  induction es with
  | nil => exact .refl _
  | cons e es ih =>
    obtain ⟨t, b⟩ := e
    rw [insert]
    split
    · exact (ih.cons _).trans (.swap _ _ _)
    · exact .refl _

/-- Agendas stay in the order of their times. -/
theorem pairwise_insert {es : List (Nat × α)} (h : es.Pairwise fun a b => a.1 ≤ b.1) (time : Nat)
    (a : α) : (insert time a es).Pairwise fun a b => a.1 ≤ b.1 := by
  induction es with
  | nil => exact List.pairwise_singleton _ _
  | cons e es ih =>
    obtain ⟨t, b⟩ := e
    obtain ⟨hfirst, hrest⟩ := List.pairwise_cons.mp h
    rw [insert]
    split
    · rename_i hle
      refine List.pairwise_cons.mpr ⟨fun e he => ?_, ih hrest⟩
      rcases List.mem_cons.mp ((insert_perm time a es).subset he) with rfl | he
      · exact hle
      · exact hfirst e he
    · rename_i hlt
      refine List.pairwise_cons.mpr ⟨fun e he => ?_, h⟩
      have hle : time ≤ t := Nat.le_of_lt (Nat.not_le.mp hlt)
      rcases List.mem_cons.mp he with rfl | he
      · exact hle
      · exact hle.trans (hfirst e he)

end Agenda

namespace Task

/-- The job that the task is an attempt at, for the first run. -/
def job? : Task → Option Job
  | attempt 0 job _ _ => some job
  | attempt (_ + 1) _ _ _ => none
  | resume _ => none

/-- How many tasks it takes at most until the task is done for good. -/
def steps : Task → Nat
  | resume _ => 1
  | attempt _ _ _ stage => stage.stepsLeft

theorem eq_attempt {task : Task} {job : Job} (h : task.job? = some job) :
    ∃ deadline stage, task = attempt 0 job deadline stage := by
  cases task with
  | resume i => cases h
  | attempt i j deadline stage =>
    cases i with
    | zero =>
      obtain rfl := Option.some.inj h
      exact ⟨deadline, stage, rfl⟩
    | succ i => cases h

/-- How many tasks it takes at most until all entries are done for good. -/
def work (es : List (Nat × Task)) : Nat := es.foldr (fun e n => e.2.steps + n) 0

theorem work_insert (time : Nat) (task : Task) (es : List (Nat × Task)) :
    work (Agenda.insert time task es) = task.steps + work es := by
  induction es with
  | nil => rfl
  | cons e es ih =>
    obtain ⟨t, b⟩ := e
    rw [Agenda.insert]
    split
    · show b.steps + work (Agenda.insert time task es) = task.steps + (b.steps + work es)
      rw [ih]
      omega
    · rfl

end Task

/-! ## What is foreseen of an attempt -/

/-- **The conditions doom a job:** its collaborator is registered, but every look-up of its account
breaks down before the time of an attempt is up. -/
def Conditions.Dooms (ω : Type) [World ω] (c : Conditions) (j : Job) : Prop :=
  c.registry.has j.domain ∧ ∀ w : ω, (World.lookup j.account w).delay ≤ c.timeout.millis ∧
    ∃ message, (World.lookup j.account w).value = .brokeDown message

/-- A hazard covers a world if all accounts are risky for which a look-up breaks down. -/
def Hazard.Covers (ω : Type) [World ω] (z : Hazard) : Prop :=
  ∀ (account : AccountId) (w : ω) (message : Option String),
    (World.lookup account w).value = .brokeDown message → z.risky account

namespace Hazard

variable {z : Hazard} {timeout time deadline : Nat} {job : Job}

/-- **What is foreseen of an attempt** that is at a stage at a time. -/
def Foresees (z : Hazard) (timeout time deadline : Nat) (job : Job) : Stage → Prop
  | .begin => z.doomed job.id → deadline = time + timeout
  | .lookedUp (.brokeDown _) => z.risky job.account
  | .lookedUp (.answered _) | .calling _ | .answering _ | .closing _ => ¬ z.doomed job.id

/-- What comes of the next thing that the attempt does, as it was foreseen. -/
def Expects (z : Hazard) (timeout time deadline : Nat) (job : Job) : Progress → Prop
  | .ended _ => ¬ z.doomed job.id
  | .brokeDown => z.risky job.account
  | .later delay next => z.Foresees timeout (time + delay) deadline job next

/-- A look-up that is over decides what becomes of the attempt. -/
theorem Foresees.afterLookup {finding : Finding}
    (h : z.Foresees timeout time deadline job (.lookedUp finding)) :
    z.Expects timeout time deadline job (Stage.afterLookup job finding) := by
  cases finding with
  | brokeDown message => exact h
  | answered answer => rcases answer with failure | (_ | account) <;> exact h

variable {ω : Type} [World ω] {c : Conditions}

/-- What a look-up finds is foreseen. -/
theorem Covers.lookup (h : z.Covers ω) (hdoomed : z.doomed job.id → c.Dooms ω job) (w : ω) :
    z.Foresees timeout time deadline job (.lookedUp (World.lookup job.account w).value) := by
  cases hvalue : (World.lookup job.account w).value with
  | brokeDown message => exact h job.account w message hvalue
  | answered answer =>
    intro doomed
    obtain ⟨-, message, hmessage⟩ := (hdoomed doomed).2 w
    rw [hvalue] at hmessage
    cases hmessage

/-- **Attempts keep to what is foreseen.** -/
theorem Covers.advance (h : z.Covers ω) (hdoomed : z.doomed job.id → c.Dooms ω job)
    {stage : Stage} (hstage : z.Foresees c.timeout.millis time deadline job stage) (w : ω) :
    z.Expects c.timeout.millis time deadline job
      (stage.advance c.registry c.timeout job (deadline - time) w).1 := by
  cases stage with
  | begin =>
    simp only [Stage.advance]
    split
    · split
      · rename_i hlate
        intro doomed
        have hleft : deadline = time + c.timeout.millis := hstage doomed
        have hdelay := ((hdoomed doomed).2 w).1
        omega
      · split
        · exact (h.lookup hdoomed w).afterLookup
        · exact h.lookup hdoomed w
    · rename_i hmissing
      exact fun doomed => hmissing (hdoomed doomed).1
  | lookedUp finding => exact hstage.afterLookup
  | calling account =>
    simp only [Stage.advance]
    split
    · exact hstage
    · split
      · exact hstage
      · exact hstage
  | answering call => exact hstage
  | closing outcome => exact hstage

/-! ## What is on the agenda -/

/-- **The attempts of a run are on the agenda:** one entry for each job, none of them for a time that
has passed. -/
structure Scheduled (z : Hazard) (timeout time : Nat) (jobs : List Job)
    (es : List (Nat × Task)) : Prop where
  jobs : (es.map fun e => e.2.job?).Perm (jobs.map some)
  sorted : es.Pairwise fun a b => a.1 ≤ b.1
  ahead : ∀ e ∈ es, time ≤ e.1
  foreseen : ∀ e ∈ es, ∀ job deadline stage, e.2 = .attempt 0 job deadline stage →
    z.Foresees timeout e.1 deadline job stage

namespace Scheduled

variable {jobs jobs' : List Job} {es : List (Nat × Task)} {stage : Stage}

theorem nil : z.Scheduled timeout time [] [] :=
  ⟨.refl _, .nil, fun _ he => absurd he List.not_mem_nil, fun _ he => absurd he List.not_mem_nil⟩

theorem perm (h : z.Scheduled timeout time jobs es) (hjobs : jobs.Perm jobs') :
    z.Scheduled timeout time jobs' es :=
  { h with jobs := h.jobs.trans (hjobs.map some) }

/-- Without jobs there are no entries. -/
theorem eq_nil (h : z.Scheduled timeout time [] es) : es = [] :=
  List.map_eq_nil_iff.mp (List.Perm.eq_nil h.jobs)

/-- The next thing that an attempt does is entered. -/
theorem insert (h : z.Scheduled timeout time jobs es) {t : Nat} (ht : time ≤ t)
    (hstage : z.Foresees timeout t deadline job stage) :
    z.Scheduled timeout time (job :: jobs)
      (Agenda.insert t (.attempt 0 job deadline stage) es) := by
  have hperm := Agenda.insert_perm t (Task.attempt 0 job deadline stage) es
  have hjobs := hperm.map fun e => e.2.job?
  refine ⟨hjobs.trans (h.jobs.cons (some job)), Agenda.pairwise_insert h.sorted t _,
    fun e he => ?_, fun e he => ?_⟩
  · rcases List.mem_cons.mp (hperm.subset he) with rfl | he
    · exact ht
    · exact h.ahead e he
  · rcases List.mem_cons.mp (hperm.subset he) with rfl | he
    · rintro _ _ _ ⟨⟩
      exact hstage
    · exact h.foreseen e he

/-- The first entry is an attempt at one of the jobs, and the others are for its time or later. -/
theorem cons {t : Nat} {task : Task} (h : z.Scheduled timeout time jobs ((t, task) :: es)) :
    ∃ job deadline stage jobs', task = .attempt 0 job deadline stage ∧
      jobs.Perm (job :: jobs') ∧ z.Foresees timeout t deadline job stage ∧
      z.Scheduled timeout t jobs' es := by
  have hjob : task.job? ∈ jobs.map some := h.jobs.subset List.mem_cons_self
  obtain ⟨job, hmem, hsome⟩ := List.mem_map.mp hjob
  obtain ⟨deadline, stage, rfl⟩ := Task.eq_attempt hsome.symm
  obtain ⟨before, after, rfl⟩ := List.append_of_mem hmem
  obtain ⟨hfirst, hrest⟩ := List.pairwise_cons.mp h.sorted
  have hperm : (before ++ job :: after).Perm (job :: (before ++ after)) := List.perm_middle
  refine ⟨job, deadline, stage, before ++ after, rfl, hperm,
    h.foreseen _ List.mem_cons_self _ _ _ rfl, ?_, hrest, hfirst,
    fun e he => h.foreseen e (List.mem_cons_of_mem _ he)⟩
  exact (h.jobs.trans (hperm.map some)).cons_inv

end Scheduled

end Hazard

end SyncJobs
