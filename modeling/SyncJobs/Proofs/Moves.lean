import SyncJobs.Proofs.Journal

/-!
# What a step of a run can do

A run looks at its phase and at the answer of the store, and then does one of sixteen things.
`Run.Move` lists them once: under which conditions each happens, which call it makes to the store,
and what the run and the queue are afterwards. `Run.move` says that there is nothing else, so that
whatever is shown of all moves holds of every step.

Calls can be told beforehand (`Run.call?`): a step makes at most one, and which one does not
depend on the store. `System.log` writes down what some events ask of the store, and what the store
was each time.
-/

namespace SyncJobs

/-! ## Moves -/

namespace Run

/-- Whether a run can make a step now. -/
def accepts (r : Run) : Step → Bool
  | .look _ _ => match r.phase with
    | .idle => true
    | _ => false
  | .allocate => match r.phase with
    | .looked _ _ => true
    | _ => false
  | .claim _ => match r.phase with
    | .claiming _ (_ :: _) _ => true
    | _ => false
  | .launch => match r.phase with
    | .claiming _ [] _ => true
    | _ => false
  | .settle receipt _ _ _ | .lose receipt =>
    (r.batch.find? fun a => a.job.receipt = receipt).isSome
  | .release => !r.leaving.isEmpty
  | .join => match r.phase with
    | .waiting => r.batch.isEmpty && r.leaving.isEmpty
    | _ => false

/-- The call that a step makes to the store, if it makes one. -/
def call? (rules : RunRules) (step : Step) (r : Run) (p : Pool) : Option StoreCall :=
  match step, r.phase with
  | .look time now, .idle =>
    if r.isPast time || p.available = 0 then none
    else some (.dueJobs now rules.window (some p.limits.perAccount))
  | .claim time, .claiming now ((j, _) :: _) _ =>
    if r.isPast time then none else some (.claim j.id now)
  | .settle receipt outcome finished sample, _ =>
    (r.batch.find? fun a => a.job.receipt = receipt).bind fun a =>
      (a.job.decide? rules.backoff outcome finished sample).map fun decision =>
        .complete a.job.receipt decision finished
  | _, _ => none

variable {σ : Type} [JobStore σ]

/-- **What a step can do:** the call that it makes, and the run and the queue after it. -/
inductive Move (rules : RunRules) (r : Run) (q : Queue σ) :
    Step → Option StoreCall → Run → Queue σ → Prop where
  /-- the run cannot make the step now -/
  | ignored {step : Step} (h : r.accepts step = false) : Move rules r q step none r q
  /-- the deadline has passed, or no permit is left -/
  | closed {time : Nat} {now : Instant} (hphase : r.phase = .idle)
    (h : r.isPast time = true ∨ q.pool.available = 0) :
    Move rules r q (.look time now) none (r.finish none) q
  /-- the queue cannot be read -/
  | unreadable {time : Nat} {now : Instant} {e : StoreError} {store : σ} (hphase : r.phase = .idle)
    (htime : r.isPast time = false) (havailable : q.pool.available ≠ 0)
    (h : JobStore.dueJobs now rules.window (some q.pool.limits.perAccount) q.store =
      (.error e, store)) :
    Move rules r q (.look time now)
      (some (.dueJobs now rules.window (some q.pool.limits.perAccount)))
      (r.finish (if r.passes = 0 then some e else none)) { q with store }
  /-- nothing is due -/
  | nothingDue {time : Nat} {now : Instant} {store : σ} (hphase : r.phase = .idle)
    (htime : r.isPast time = false) (havailable : q.pool.available ≠ 0)
    (h : JobStore.dueJobs now rules.window (some q.pool.limits.perAccount) q.store =
      (.ok [], store)) :
    Move rules r q (.look time now)
      (some (.dueJobs now rules.window (some q.pool.limits.perAccount)))
      (r.finish none) { q with store }
  /-- some jobs are due -/
  | looked {time : Nat} {now : Instant} {candidates : List Job} {store : σ}
    (hphase : r.phase = .idle) (htime : r.isPast time = false) (havailable : q.pool.available ≠ 0)
    (hsome : candidates ≠ [])
    (h : JobStore.dueJobs now rules.window (some q.pool.limits.perAccount) q.store =
      (.ok candidates, store)) :
    Move rules r q (.look time now)
      (some (.dueJobs now rules.window (some q.pool.limits.perAccount)))
      { r with phase := .looked now candidates } { q with store }
  /-- the pool grants permits -/
  | granted {now : Instant} {candidates : List Job} (hphase : r.phase = .looked now candidates) :
    Move rules r q .allocate none
      { r with phase := .claiming now (q.pool.allocate candidates).1 0 }
      { q with pool := (q.pool.allocate candidates).2 }
  /-- the deadline has passed, and the jobs that are still to be claimed are given up -/
  | gaveUp {time : Nat} {now : Instant} {g : Job × Permit} {rest : List (Job × Permit)}
    {started : Nat} (hphase : r.phase = .claiming now (g :: rest) started)
    (h : r.isPast time = true) :
    Move rules r q (.claim time) none { r with phase := .claiming now [] started }
      { q with pool := q.pool.releaseAll ((g :: rest).map (·.2)) }
  /-- a job is claimed -/
  | claimed {time : Nat} {now : Instant} {j job : Job} {permit : Permit}
    {rest : List (Job × Permit)} {started : Nat} {store : σ}
    (hphase : r.phase = .claiming now ((j, permit) :: rest) started)
    (htime : r.isPast time = false)
    (h : JobStore.claim j.id now q.store = (.ok (some job), store)) :
    Move rules r q (.claim time) (some (.claim j.id now))
      { r with
        phase := .claiming now rest (started + 1)
        batch := r.batch ++ [⟨job, permit⟩] } { q with store }
  /-- somebody else has claimed the job, or the claim fails -/
  | missed {time : Nat} {now : Instant} {j : Job} {permit : Permit} {rest : List (Job × Permit)}
    {started : Nat} {answer : Except StoreError (Option Job)} {store : σ}
    (hphase : r.phase = .claiming now ((j, permit) :: rest) started)
    (htime : r.isPast time = false) (h : JobStore.claim j.id now q.store = (answer, store))
    (hnone : ∀ job, answer ≠ .ok (some job)) :
    Move rules r q (.claim time) (some (.claim j.id now))
      { r with phase := .claiming now rest started }
      { q with store, pool := q.pool.release permit }
  /-- no job could be claimed -/
  | ended {now : Instant} (hphase : r.phase = .claiming now [] 0) :
    Move rules r q .launch none (r.finish none) q
  /-- the claims are over -/
  | launched {now : Instant} {started : Nat} (hphase : r.phase = .claiming now [] started)
    (hsome : started ≠ 0) :
    Move rules r q .launch none { r with phase := .waiting, passes := r.passes + 1 } q
  /-- there is no decision on an attempt -/
  | lost {receipt : Receipt} {outcome : Outcome} {finished : Instant} {sample : Binary64}
    {a : Attempt} (hfound : r.batch.find? (fun a => a.job.receipt = receipt) = some a)
    (h : a.job.decide? rules.backoff outcome finished sample = none) :
    Move rules r q (.settle receipt outcome finished sample) none (r.retire a) q
  /-- an attempt broke down -/
  | brokeDown {receipt : Receipt} {a : Attempt}
    (hfound : r.batch.find? (fun a => a.job.receipt = receipt) = some a) :
    Move rules r q (.lose receipt) none (r.retire a) q
  /-- an attempt is completed -/
  | completed {receipt : Receipt} {outcome : Outcome} {finished : Instant} {sample : Binary64}
    {a : Attempt} {decision : Decision} {job : Job} {store : σ}
    (hfound : r.batch.find? (fun a => a.job.receipt = receipt) = some a)
    (hdecide : a.job.decide? rules.backoff outcome finished sample = some decision)
    (h : JobStore.complete a.job.receipt decision finished q.store = (.ok job, store)) :
    Move rules r q (.settle receipt outcome finished sample)
      (some (.complete a.job.receipt decision finished))
      { r.retire a with summary := r.summary.record job.domain decision } { q with store }
  /-- the completion of an attempt fails -/
  | refused {receipt : Receipt} {outcome : Outcome} {finished : Instant} {sample : Binary64}
    {a : Attempt} {decision : Decision} {e : StoreError} {store : σ}
    (hfound : r.batch.find? (fun a => a.job.receipt = receipt) = some a)
    (hdecide : a.job.decide? rules.backoff outcome finished sample = some decision)
    (h : JobStore.complete a.job.receipt decision finished q.store = (.error e, store)) :
    Move rules r q (.settle receipt outcome finished sample)
      (some (.complete a.job.receipt decision finished)) (r.retire a) { q with store }
  /-- the permit of a settled attempt goes back -/
  | released {permit : Permit} {leaving : List Permit} (h : r.leaving = permit :: leaving) :
    Move rules r q .release none { r with leaving } { q with pool := q.pool.release permit }
  /-- the pass is over -/
  | joined (hphase : r.phase = .waiting) (hbatch : r.batch = []) (hleaving : r.leaving = []) :
    Move rules r q .join none { r with phase := .idle } q

section Cases

variable {rules : RunRules} {r : Run} {q : Queue σ}

theorem move_look (time : Nat) (now : Instant) (hphase : r.phase = .idle) :
    r.Move rules q (.look time now) (r.call? rules (.look time now) q.pool)
      (r.look rules time now q).1 (r.look rules time now q).2 := by
  simp only [look, call?, hphase]
  by_cases hclosed : r.isPast time || q.pool.available = 0
  · simp only [hclosed, if_true]
    rw [Bool.or_eq_true, decide_eq_true_eq] at hclosed
    exact .closed hphase hclosed
  · simp only [hclosed, Bool.false_eq_true, if_false]
    simp only [Bool.or_eq_true, decide_eq_true_eq, not_or, Bool.not_eq_true] at hclosed
    obtain ⟨htime, havailable⟩ := hclosed
    rcases h : JobStore.dueJobs now rules.window (some q.pool.limits.perAccount) q.store with
      ⟨e | _ | ⟨c, cs⟩, store⟩
    · exact .unreadable hphase htime havailable h
    · exact .nothingDue hphase htime havailable h
    · exact .looked hphase htime havailable (List.cons_ne_nil c cs) h

theorem move_claim {time : Nat} {now : Instant} {j : Job} {permit : Permit}
    {rest : List (Job × Permit)} {started : Nat}
    (hphase : r.phase = .claiming now ((j, permit) :: rest) started)
    (htime : r.isPast time = false) :
    r.Move rules q (.claim time) (some (.claim j.id now))
      (r.claim now j permit rest started q).1 (r.claim now j permit rest started q).2 := by
  rw [claim]
  rcases h : JobStore.claim j.id now q.store with ⟨e | _ | job, store⟩
  · exact .missed hphase htime h fun _ hok => by cases hok
  · exact .missed hphase htime h fun _ hok => by cases hok
  · exact .claimed hphase htime h

theorem move_settle {receipt : Receipt} {outcome : Outcome} {finished : Instant}
    {sample : Binary64} {a : Attempt}
    (hfound : r.batch.find? (fun a => a.job.receipt = receipt) = some a) :
    r.Move rules q (.settle receipt outcome finished sample)
      (r.call? rules (.settle receipt outcome finished sample) q.pool)
      (r.settle rules a outcome finished sample q).1
      (r.settle rules a outcome finished sample q).2 := by
  simp only [call?, hfound, Option.bind_some, settle]
  cases hdecide : a.job.decide? rules.backoff outcome finished sample with
  | none => exact .lost hfound hdecide
  | some decision =>
    simp only [Option.map_some]
    rcases h : JobStore.complete a.job.receipt decision finished q.store with ⟨e | job, store⟩
    · exact .refused hfound hdecide h
    · exact .completed hfound hdecide h

/-- **Every step is a move.** -/
theorem move (rules : RunRules) (step : Step) (r : Run) (q : Queue σ) :
    r.Move rules q step (r.call? rules step q.pool) (r.apply rules step q).1
      (r.apply rules step q).2 := by
  cases step with
  | look time now =>
    cases hphase : r.phase with
    | idle =>
      simp only [apply, hphase]
      exact move_look time now hphase
    | looked | claiming | waiting | finished =>
      simp only [apply, call?, hphase]
      exact .ignored (by simp only [accepts, hphase])
  | allocate =>
    cases hphase : r.phase with
    | looked now candidates =>
      simp only [apply, call?, hphase, allocate]
      exact .granted hphase
    | idle | claiming | waiting | finished =>
      simp only [apply, call?, hphase]
      exact .ignored (by simp only [accepts, hphase])
  | claim time =>
    cases hphase : r.phase with
    | claiming now granted started =>
      cases granted with
      | nil =>
        simp only [apply, call?, hphase]
        exact .ignored (by simp only [accepts, hphase])
      | cons g rest =>
        simp only [apply, call?, hphase]
        cases htime : r.isPast time with
        | true => exact .gaveUp hphase htime
        | false => exact move_claim hphase htime
    | idle | looked | waiting | finished =>
      simp only [apply, call?, hphase]
      exact .ignored (by simp only [accepts, hphase])
  | launch =>
    cases hphase : r.phase with
    | claiming now granted started =>
      cases granted with
      | cons g rest =>
        simp only [apply, call?, hphase]
        exact .ignored (by simp only [accepts, hphase])
      | nil =>
        simp only [apply, call?, hphase, launch]
        by_cases hstarted : started = 0
        · subst hstarted
          exact .ended hphase
        · rw [if_neg hstarted]
          exact .launched hphase hstarted
    | idle | looked | waiting | finished =>
      simp only [apply, call?, hphase]
      exact .ignored (by simp only [accepts, hphase])
  | settle receipt outcome finished sample =>
    cases hfound : r.batch.find? fun a => a.job.receipt = receipt with
    | none =>
      simp only [apply, call?, hfound, Option.bind_none]
      exact .ignored (by simp only [accepts, hfound, Option.isSome_none])
    | some a =>
      simp only [apply, hfound]
      exact move_settle hfound
  | lose receipt =>
    cases hfound : r.batch.find? fun a => a.job.receipt = receipt with
    | none =>
      simp only [apply, call?, hfound]
      exact .ignored (by simp only [accepts, hfound, Option.isSome_none])
    | some a =>
      simp only [apply, call?, hfound]
      exact .brokeDown hfound
  | release =>
    cases hleaving : r.leaving with
    | nil =>
      simp only [apply, call?, hleaving]
      exact .ignored (by simp only [accepts, hleaving, List.isEmpty_nil, Bool.not_true])
    | cons permit leaving =>
      simp only [apply, call?, hleaving]
      exact .released hleaving
  | join =>
    cases hphase : r.phase with
    | waiting =>
      simp only [apply, call?, hphase]
      by_cases hsettled : r.batch.isEmpty && r.leaving.isEmpty
      · rw [if_pos hsettled]
        rw [Bool.and_eq_true, List.isEmpty_iff, List.isEmpty_iff] at hsettled
        exact .joined hphase hsettled.1 hsettled.2
      · rw [if_neg hsettled]
        exact .ignored (by simpa only [accepts, hphase] using Bool.eq_false_iff.mpr hsettled)
    | idle | looked | claiming | finished =>
      simp only [apply, call?, hphase]
      exact .ignored (by simp only [accepts, hphase])

end Cases

/-! ## Calls -/

/-- **The store changes by the call that a move makes.** -/
theorem Move.store {rules : RunRules} {r r' : Run} {q q' : Queue σ} {step : Step}
    {c : Option StoreCall} (h : r.Move rules q step c r' q') :
    q'.store = c.elim q.store fun c => (c.run q.store).2 := by
  cases h with
  | ignored | closed | granted | gaveUp | ended | launched | lost | brokeDown | released
  | joined => rfl
  | unreadable _ _ _ h => exact (congrArg Prod.snd h).symm
  | nothingDue _ _ _ h => exact (congrArg Prod.snd h).symm
  | looked _ _ _ _ h => exact (congrArg Prod.snd h).symm
  | claimed _ _ h => exact (congrArg Prod.snd h).symm
  | missed _ _ h _ => exact (congrArg Prod.snd h).symm
  | completed _ _ h => exact (congrArg Prod.snd h).symm
  | refused _ _ h => exact (congrArg Prod.snd h).symm

/-- The deadline of a run stays. -/
theorem Move.deadline {rules : RunRules} {r r' : Run} {q q' : Queue σ} {step : Step}
    {c : Option StoreCall} (h : r.Move rules q step c r' q') : r'.deadline = r.deadline := by
  cases h <;> rfl

end Run

/-! ## What is asked of a store -/

namespace System

variable {σ : Type} [JobStore σ] {rules : RunRules}

/-- The call that an event makes to the store, if it makes one. -/
def call? (rules : RunRules) (e : Event) (s : System σ) : Option StoreCall :=
  match e with
  | .step i step => s.runs[i]?.bind fun r => r.call? rules step s.queue.pool
  | .recover staleBefore now => some (.recoverStale staleBefore now)

/-- **What events ask of the store,** in the order of the events. -/
def log (rules : RunRules) : List Event → System σ → List (Event × Exchange σ)
  | [], _ => []
  | e :: events, s =>
    ((s.call? rules e).map fun c => (e, ⟨s.queue.store, c⟩)).toList ++
      log rules events (s.apply rules e)

/-- A step of a run is one of its moves. -/
theorem apply_step (rules : RunRules) {i : Nat} {r : Run} {s : System σ}
    (hr : s.runs[i]? = some r) (step : Step) :
    ∃ c r' q', r.Move rules s.queue step c r' q' ∧ s.call? rules (.step i step) = c ∧
      s.apply rules (.step i step) = ⟨q', s.runs.set i r'⟩ := by
  refine ⟨_, _, _, r.move rules step s.queue, ?_, ?_⟩
  · rw [call?, hr, Option.bind_some]
  · simp only [apply, hr]

/-- Nobody moves if there is no run with the number. -/
theorem apply_step_of_none (rules : RunRules) {i : Nat} {s : System σ} (hr : s.runs[i]? = none)
    (step : Step) :
    s.call? rules (.step i step) = none ∧ s.apply rules (.step i step) = s := by
  refine ⟨?_, ?_⟩
  · rw [call?, hr, Option.bind_none]
  · simp only [apply, hr]

/-- **What every move keeps holds of all runs,** whatever happens. -/
theorem forall_runs {P : Run → Prop}
    (hP : ∀ {r r' : Run} {q q' : Queue σ} {step : Step} {c : Option StoreCall},
      r.Move rules q step c r' q' → P r → P r')
    {s : System σ} (h : ∀ r ∈ s.runs, P r) (events : List Event) :
    ∀ r ∈ (s.applyAll rules events).runs, P r := by
  induction events generalizing s with
  | nil => exact h
  | cons e events ih =>
    refine ih (s := s.apply rules e) ?_
    cases e with
    | recover => exact h
    | step i step =>
      cases hr : s.runs[i]? with
      | none =>
        rw [(apply_step_of_none rules hr step).2]
        exact h
      | some r =>
        obtain ⟨c, r', q', hmove, -, happly⟩ := apply_step rules hr step
        rw [happly]
        intro r₁ hr₁
        rcases List.mem_or_eq_of_mem_set hr₁ with hr₁ | rfl
        · exact h r₁ hr₁
        · exact hP hmove (h r (List.mem_of_getElem? hr))

/-- Runs neither come nor go, and their deadlines stay. -/
theorem deadlines_applyAll (rules : RunRules) (events : List Event) (s : System σ) :
    (s.applyAll rules events).runs.map Run.deadline = s.runs.map Run.deadline := by
  induction events generalizing s with
  | nil => rfl
  | cons e events ih =>
    refine (ih (s.apply rules e)).trans ?_
    cases e with
    | recover => rfl
    | step i step =>
      cases hr : s.runs[i]? with
      | none => rw [(apply_step_of_none rules hr step).2]
      | some r =>
        obtain ⟨c, r', q', hmove, -, happly⟩ := apply_step rules hr step
        obtain ⟨hi, rfl⟩ := List.getElem?_eq_some_iff.mp hr
        have hlength : i < (s.runs.map Run.deadline).length := by rwa [List.length_map]
        have hsame : (s.runs.map Run.deadline)[i] = r'.deadline := by
          rw [List.getElem_map, hmove.deadline]
        rw [happly, List.map_set, ← hsame, List.set_getElem_self]

/-- What is in the log was asked for after some of the events. -/
theorem of_mem_log {events : List Event} {s : System σ} {x : Event × Exchange σ}
    (h : x ∈ s.log rules events) : ∃ earlier later, events = earlier ++ x.1 :: later ∧
      (s.applyAll rules earlier).call? rules x.1 = some x.2.call ∧
      x.2.before = (s.applyAll rules earlier).queue.store := by
  induction events generalizing s with
  | nil => cases h
  | cons e events ih =>
    rcases List.mem_append.mp h with hfirst | hrest
    · obtain ⟨c, hc, rfl⟩ := Option.map_eq_some_iff.mp (Option.mem_toList.mp hfirst)
      exact ⟨[], events, rfl, hc, rfl⟩
    · obtain ⟨earlier, later, rfl, hcall, hbefore⟩ := ih hrest
      exact ⟨e :: earlier, later, rfl, hcall, hbefore⟩

end System

end SyncJobs
