import SyncJobs.Dispatch
import SyncJobs.Proofs.History
import SyncJobs.Store.Disturbed

/-!
# Stores with a journal

A `Journaled` store writes down every call that it is asked for and passes it on. As long as the
calls are allowed, its journal is a history of the store behind (`Journaled.Faithful.after`), and
whatever holds of all histories holds of what runs do.

Nothing is changed by that. A map between stores that answer alike (`StoreMap`) carries whole runs
over, and taking the journal away is such a map (`storeMap_store`), also behind disturbances.
-/

namespace SyncJobs

/-- **A store that keeps a journal** of the calls made to it, the latest first. -/
structure Journaled (σ : Type) where
  store : σ
  journal : List (Exchange σ)

namespace Journaled

variable {σ : Type} [JobStore σ]

/-- The store after a call that was written down. -/
def after (c : StoreCall) (s : Journaled σ) : Journaled σ :=
  ⟨(c.run s.store).2, ⟨s.store, c⟩ :: s.journal⟩

/-- An operation that is written down as a call. -/
def record {α : Type} (c : StoreCall) (op : StoreM σ α) : StoreM (Journaled σ) α := fun s =>
  ((op s.store).1, s.after c)

instance : JobStore (Journaled σ) where
  enqueue n := record (.enqueue n) (JobStore.enqueue n)
  dueJobs now limit cap := record (.dueJobs now limit cap) (JobStore.dueJobs now limit cap)
  claim id now := record (.claim id now) (JobStore.claim id now)
  complete receipt d now := record (.complete receipt d now) (JobStore.complete receipt d now)
  get id := record (.get id) (JobStore.get id)
  counts := record .counts JobStore.counts
  deadLetters limit := record (.deadLetters limit) (JobStore.deadLetters limit)
  recoverStale staleBefore now :=
    record (.recoverStale staleBefore now) (JobStore.recoverStale staleBefore now)
  purgeSucceeded olderThan :=
    record (.purgeSucceeded olderThan) (JobStore.purgeSucceeded olderThan)
  backlog s := JobStore.backlog s.store

/-- **The journal tells how the store came about.** -/
structure Faithful (start : σ) (s : Journaled σ) : Prop where
  history : History start s.journal
  current : current start s.journal = s.store

/-- An allowed call keeps the journal faithful. -/
theorem Faithful.after {start : σ} {s : Journaled σ} (h : s.Faithful start) {c : StoreCall}
    (hc : c.Allowed s.journal) : (s.after c).Faithful start := by
  obtain ⟨history, hcurrent⟩ := h
  refine ⟨?_, rfl⟩
  have hstep := history.step c hc
  rwa [hcurrent] at hstep

end Journaled

/-! ## Maps between stores -/

section Maps

variable {σ τ : Type} [JobStore σ] [JobStore τ] {f : σ → τ}

/-- An operation on one store is carried over to an operation on the other: the answers are the
same, and so are the stores afterwards. -/
def Carries {σ τ α : Type} (f : σ → τ) (op : StoreM σ α) (op' : StoreM τ α) : Prop :=
  ∀ s, op' (f s) = ((op s).1, f (op s).2)

/-- **A map between stores that runs cannot tell apart.** -/
structure StoreMap (f : σ → τ) : Prop where
  dueJobs (now : Instant) (limit : Nat) (cap : Option Nat) :
    Carries f (JobStore.dueJobs now limit cap) (JobStore.dueJobs now limit cap)
  claim (i : JobId) (now : Instant) : Carries f (JobStore.claim i now) (JobStore.claim i now)
  complete (r : Receipt) (d : Decision) (now : Instant) :
    Carries f (JobStore.complete r d now) (JobStore.complete r d now)
  recoverStale (staleBefore now : Instant) :
    Carries f (JobStore.recoverStale staleBefore now) (JobStore.recoverStale staleBefore now)
  backlog (s : σ) : JobStore.backlog (f s) = JobStore.backlog s

/-- **A journal may be taken away.** -/
theorem storeMap_store : StoreMap (Journaled.store : Journaled σ → σ) where
  dueJobs _ _ _ _ := rfl
  claim _ _ _ := rfl
  complete _ _ _ _ := rfl
  recoverStale _ _ _ := rfl
  backlog _ := rfl

/-- The same store with more past before its journal. -/
def Journaled.onto (past : List (Exchange σ)) (s : Journaled σ) : Journaled σ :=
  ⟨s.store, s.journal ++ past⟩

/-- **A journal may have more past before it.** -/
theorem storeMap_onto (past : List (Exchange σ)) : StoreMap (Journaled.onto past) where
  dueJobs _ _ _ _ := rfl
  claim _ _ _ := rfl
  complete _ _ _ _ := rfl
  recoverStale _ _ _ := rfl
  backlog _ := rfl

/-- The same disturbances of another store. -/
def Disturbed.map (f : σ → τ) (d : Disturbed σ) : Disturbed τ := ⟨f d.store, d.plan, d.called⟩

omit [JobStore σ] [JobStore τ] in
theorem Carries.inside {α : Type} {op : StoreM σ α} {op' : StoreM τ α} (h : Carries f op op') :
    Carries (Disturbed.map f) (Disturbed.inside op) (Disturbed.inside op') := by
  intro d
  have hd := congrArg (fun a => (a.1, Disturbed.mk a.2 d.plan d.called)) (h d.store)
  exact hd

omit [JobStore σ] [JobStore τ] in
theorem Carries.attemptInside {α : Type} {op : StoreM σ α} {op' : StoreM τ α}
    (h : Carries f op op') (d : Disturbed σ) :
    Disturbed.attemptInside op' (d.map f) = (Disturbed.attemptInside op d).map f :=
  congrArg Prod.snd (h.inside d)

omit [JobStore σ] [JobStore τ] in
theorem Carries.disturb {α : Type} (o : StoreOperation)
    {op : Option Disturbance → StoreM (Disturbed σ) α}
    {op' : Option Disturbance → StoreM (Disturbed τ) α}
    (h : ∀ p, Carries (Disturbed.map f) (op p) (op' p)) :
    Carries (Disturbed.map f) (Disturbed.disturb o op) (Disturbed.disturb o op') := by
  intro d
  have hplanned : (d.map f).planned? o = d.planned? o := rfl
  simp only [Disturbed.disturb, hplanned]
  split
  · rfl
  · exact h _ { d with called := o :: d.called }

/-- **Disturbances are the same on both sides.** -/
theorem StoreMap.disturbed (h : StoreMap f) : StoreMap (Disturbed.map f) where
  dueJobs now limit cap := Carries.disturb _ fun _ => (h.dueJobs now limit cap).inside
  claim i now := by
    refine Carries.disturb _ fun p => ?_
    cases p with
    | none => exact (h.claim i now).inside
    | some p =>
      cases p with
      | lose => exact fun _ => rfl
      | steal =>
        intro d
        simp only [(h.claim i now).attemptInside d]
        exact (h.claim i now).inside _
      | fail => exact (h.claim i now).inside
      | reclaim => exact (h.claim i now).inside
  complete r d now := by
    refine Carries.disturb _ fun p => ?_
    cases p with
    | none => exact (h.complete r d now).inside
    | some p =>
      cases p with
      | reclaim =>
        intro s
        simp only [(h.recoverStale _ _).attemptInside s, (h.claim r.job _).attemptInside]
        exact (h.complete r d now).inside _
      | fail => exact (h.complete r d now).inside
      | lose => exact (h.complete r d now).inside
      | steal => exact (h.complete r d now).inside
  recoverStale staleBefore now :=
    Carries.disturb _ fun _ => (h.recoverStale staleBefore now).inside
  backlog d := h.backlog d.store

/-! ## Runs -/

/-- The same pool with another store. -/
def Queue.map (f : σ → τ) (q : Queue σ) : Queue τ := ⟨f q.store, q.pool⟩

theorem StoreMap.look (h : StoreMap f) (rules : RunRules) (time : Nat) (now : Instant) (r : Run)
    (q : Queue σ) : r.look rules time now (q.map f) =
      ((r.look rules time now q).1, (r.look rules time now q).2.map f) := by
  have hpool : (q.map f).pool = q.pool := rfl
  have hstore := h.dueJobs now rules.window (some q.pool.limits.perAccount) q.store
  rw [Run.look, Run.look, hpool]
  by_cases hend : r.isPast time || q.pool.available = 0
  · rw [if_pos hend, if_pos hend]
  · rw [if_neg hend, if_neg hend, show (q.map f).store = f q.store from rfl, hstore]
    rcases JobStore.dueJobs now rules.window (some q.pool.limits.perAccount) q.store with
      ⟨_ | _ | _, _⟩ <;> rfl

theorem StoreMap.claim_run (h : StoreMap f) (now : Instant) (j : Job) (permit : Permit)
    (rest : List (Job × Permit)) (started : Nat) (r : Run) (q : Queue σ) :
    r.claim now j permit rest started (q.map f) =
      ((r.claim now j permit rest started q).1, (r.claim now j permit rest started q).2.map f) := by
  have hstore := h.claim j.id now q.store
  rw [Run.claim, Run.claim, show (q.map f).store = f q.store from rfl, hstore]
  rcases JobStore.claim j.id now q.store with ⟨_ | _ | _, _⟩ <;> rfl

theorem StoreMap.settle (h : StoreMap f) (rules : RunRules) (a : Attempt) (outcome : Outcome)
    (finished : Instant) (sample : Binary64) (r : Run) (q : Queue σ) :
    r.settle rules a outcome finished sample (q.map f) =
      ((r.settle rules a outcome finished sample q).1,
        (r.settle rules a outcome finished sample q).2.map f) := by
  rw [Run.settle, Run.settle]
  cases hdecision : a.job.decide? rules.backoff outcome finished sample with
  | none => rfl
  | some decision =>
    have hstore := h.complete a.job.receipt decision finished q.store
    simp only [show (q.map f).store = f q.store from rfl, hstore]
    rcases JobStore.complete a.job.receipt decision finished q.store with ⟨_ | _, _⟩ <;> rfl

/-- **A run makes the same step** over the other store. -/
theorem StoreMap.apply_run (h : StoreMap f) (rules : RunRules) (step : Step) (r : Run)
    (q : Queue σ) :
    r.apply rules step (q.map f) =
      ((r.apply rules step q).1, (r.apply rules step q).2.map f) := by
  cases step with
  | look time now =>
    cases hphase : r.phase with
    | idle => simp only [Run.apply, hphase, h.look]
    | looked | claiming | waiting | finished => simp only [Run.apply, hphase]
  | allocate =>
    cases hphase : r.phase with
    | looked now candidates => simp only [Run.apply, hphase, Run.allocate, Queue.map]
    | idle | claiming | waiting | finished => simp only [Run.apply, hphase]
  | claim time =>
    cases hphase : r.phase with
    | claiming now granted started =>
      cases granted with
      | nil => simp only [Run.apply, hphase]
      | cons g granted =>
        simp only [Run.apply, hphase]
        by_cases hpast : r.isPast time
        · simp only [hpast, if_true, Run.giveUp, Queue.map]
        · simp only [hpast, Bool.false_eq_true, if_false, h.claim_run]
    | idle | looked | waiting | finished => simp only [Run.apply, hphase]
  | launch =>
    cases hphase : r.phase with
    | claiming now granted started => cases granted <;> simp only [Run.apply, hphase]
    | idle | looked | waiting | finished => simp only [Run.apply, hphase]
  | settle receipt outcome finished sample =>
    simp only [Run.apply]
    cases hfound : r.batch.find? fun a => a.job.receipt = receipt with
    | none => rfl
    | some a => exact h.settle rules a outcome finished sample r q
  | lose receipt =>
    simp only [Run.apply]
    cases r.batch.find? fun a => a.job.receipt = receipt <;> rfl
  | release =>
    simp only [Run.apply]
    cases r.leaving <;> rfl
  | join =>
    cases hphase : r.phase with
    | waiting =>
      simp only [Run.apply, hphase]
      by_cases hsettled : r.batch.isEmpty && r.leaving.isEmpty
      · simp only [hsettled, if_true]
      · simp only [hsettled, Bool.false_eq_true, if_false]
    | idle | looked | claiming | finished => simp only [Run.apply, hphase]

namespace System

/-- The same runs over another store. -/
def map (f : σ → τ) (s : System σ) : System τ := ⟨s.queue.map f, s.runs⟩

end System

/-- **The same happens** over the other store. -/
theorem StoreMap.apply (h : StoreMap f) (rules : RunRules) (e : Event) (s : System σ) :
    (s.map f).apply rules e = (s.apply rules e).map f := by
  cases e with
  | step i step =>
    simp only [System.apply, System.map]
    cases s.runs[i]? with
    | none => rfl
    | some r => simp only [h.apply_run rules step r s.queue]
  | recover staleBefore now =>
    simp only [System.apply, System.map, Queue.map, h.recoverStale staleBefore now s.queue.store]

theorem StoreMap.applyAll (h : StoreMap f) (rules : RunRules) (events : List Event)
    (s : System σ) : (s.map f).applyAll rules events = (s.applyAll rules events).map f := by
  induction events generalizing s with
  | nil => rfl
  | cons e events ih =>
    rw [System.applyAll, List.foldl_cons, h.apply rules e s]
    exact ih (s.apply rules e)

end Maps

end SyncJobs
