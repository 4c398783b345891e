import SyncJobs.Proofs.Rounding
import SyncJobs.Proofs.Upkeep

/-!
# Runs leave nothing behind

Claims are lost or fail, the queue cannot be read, attempts break down, and completions fail or come
too late. Whatever happens, and over a store in any state, runs clean up after themselves
(`CleansUp`). A run that is over has given back all its permits, it has claimed nothing after its
deadline, and it has offered every job that it claimed for completion. If that completion was
answered with a job, the attempt is over; if it failed, the attempt is underway still, unless a
recovery has taken it back.
-/

namespace SyncJobs

/-! ## Counts -/

/-- Tallies of the same items have the same entries. -/
theorem Tally.Counts.entries_perm {κ : Type} [DecidableEq κ] {t t' : Tally κ} {l : List κ}
    (h : t.Counts l) (h' : t'.Counts l) : t.entries.Perm t'.entries := by
  refine (List.perm_ext_iff_of_nodup (List.Nodup.of_map _ h.nodup)
    (List.Nodup.of_map _ h'.nodup)).mpr fun e => ?_
  exact (h.mem_entries e.1 e.2).trans (h'.mem_entries e.1 e.2).symm

namespace Usage

/-- **Two usages have the same counts.** -/
structure Agrees (u v : Usage) : Prop where
  total : u.total = v.total
  byDomain : u.byDomain.entries.Perm v.byDomain.entries
  byAccount : u.byAccount.entries.Perm v.byAccount.entries
  byPair : u.byPair.entries.Perm v.byPair.entries

/-- The permits that are out determine the counts. -/
theorem Counts.agrees {u v : Usage} {out : List Permit} (h : u.Counts out) (h' : v.Counts out) :
    u.Agrees v where
  total := h.total.trans h'.total.symm
  byDomain := h.byDomain.entries_perm h'.byDomain
  byAccount := h.byAccount.entries_perm h'.byAccount
  byPair := h.byPair.entries_perm h'.byPair

end Usage

/-! ## Deadlines -/

namespace Run

variable {σ : Type} [JobStore σ] {rules : RunRules} {r r' : Run} {q q' : Queue σ} {step : Step}
  {c : Option StoreCall}

/-- **Jobs are claimed before the deadline.** -/
theorem Move.claims_in_time {id : JobId} {now : Instant}
    (h : r.Move rules q step (some (.claim id now)) r' q') :
    ∃ time, step = .claim time ∧ r.isPast time = false := by
  cases h with
  | claimed hphase htime | missed hphase htime => exact ⟨_, rfl, htime⟩

end Run

namespace System

variable {σ : Type} [JobStore σ]

/-- A run has the deadline that it had at the start. -/
theorem exists_of_applyAll {rules : RunRules} {events : List Event} {s : System σ} {i : Nat}
    {r : Run} (h : (s.applyAll rules events).runs[i]? = some r) :
    ∃ r₀, s.runs[i]? = some r₀ ∧ r₀.deadline = r.deadline := by
  have hsame := congrArg (·[i]?) (deadlines_applyAll rules events s)
  simp only [List.getElem?_map, h, Option.map_some] at hsame
  exact Option.map_eq_some_iff.mp hsame.symm

omit [JobStore σ] in
/-- The permits that the other runs hold. -/
def heldBesides (i : Nat) (s : System σ) : List Permit := (s.runs.eraseIdx i).flatMap Run.permits

end System

/-- **Runs clean up after themselves,** whatever has happened to them and to their store. -/
structure CleansUp {σ : Type} [JobStore σ] (rules : RunRules) (s : System (Disturbed σ))
    (events : List Event) : Prop where
  /-- no job is claimed when the deadline of a run is reached, or later -/
  inTime : ∀ x ∈ s.log rules events, ∀ id now, x.2.call = .claim id now →
    ∃ i time r, x.1 = .step i (.claim time) ∧ s.runs[i]? = some r ∧
      ∀ deadline ∈ r.deadline, time < deadline
  /-- a run that is over has no attempts and no permits -/
  nothingLeft : ∀ r ∈ (s.applyAll rules events).runs, r.isFinished → r.batch = [] ∧ r.permits = []
  /-- the counts of the pool are what they were before the run, if the others hold what they held -/
  restored : ∀ earlier later, events = earlier ++ later → ∀ i deadline r,
    (s.applyAll rules earlier).runs[i]? = some { deadline } →
    (s.applyAll rules events).runs[i]? = some r → r.isFinished →
    ((s.applyAll rules earlier).heldBesides i).Perm ((s.applyAll rules events).heldBesides i) →
      (s.applyAll rules events).queue.pool.usage.Agrees
        (s.applyAll rules earlier).queue.pool.usage
  /-- every job that a run has claimed is concluded when the run is over -/
  concluded : ∀ i r, (s.applyAll rules events).runs[i]? = some r → r.isFinished →
    ∀ j ∈ s.claimsBy rules i events,
      Concluded (s.log rules events) i j (s.applyAll rules events).queue.store.store

/-! ## What runs leave at their end -/

namespace System

/-- **Every claim of a run comes before its deadline.** -/
theorem claims_in_time {σ : Type} [JobStore σ] {rules : RunRules} {events : List Event}
    {s : System σ} {x : Event × Exchange σ} (hx : x ∈ s.log rules events) {id : JobId}
    {now : Instant} (hcall : x.2.call = .claim id now) :
    ∃ i time r, x.1 = .step i (.claim time) ∧ s.runs[i]? = some r ∧
      ∀ deadline ∈ r.deadline, time < deadline := by
  obtain ⟨e, before, call⟩ := x
  subst hcall
  obtain ⟨earlier, later, -, hcall, -⟩ := of_mem_log hx
  cases e with
  | recover => cases hcall
  | step i step =>
    cases hr : (s.applyAll rules earlier).runs[i]? with
    | none =>
      rw [(apply_step_of_none rules hr step).1] at hcall
      cases hcall
    | some r =>
      obtain ⟨c, r', q', hmove, hc, -⟩ := apply_step rules hr step
      obtain rfl := hc.symm.trans hcall
      obtain ⟨time, rfl, htime⟩ := hmove.claims_in_time
      obtain ⟨r₀, hr₀, hsame⟩ := exists_of_applyAll hr
      refine ⟨i, time, r₀, rfl, hr₀, fun deadline hdeadline => ?_⟩
      rw [Run.isPast, ← hsame, hdeadline, Option.any_some, decide_eq_false_iff_not] at htime
      exact Nat.lt_of_not_le htime

/-- Runs at their start and afterwards are tidy, so those that are over have nothing left. -/
theorem nothing_left {σ : Type} [JobStore σ] {rules : RunRules} {events : List Event} {store : σ}
    {pool : Pool} {deadlines : List (Option Nat)} {r : Run}
    (hr : r ∈ ((start store pool deadlines).applyAll rules events).runs) (hover : r.isFinished) :
    r.batch = [] ∧ r.permits = [] :=
  (forall_runs Run.Move.tidy (forall_start Run.tidy_start store pool deadlines) events r
    hr).permits_of_isFinished hover

end System

namespace Attended

variable {σ : Type} [JobStore σ] {l : Limits} {others : List Permit}
  {log : List (Event × Exchange (Disturbed σ))} {s : System (Disturbed σ)} {i : Nat} {r : Run}

/-- If a run holds no permits, the pool counts those of the other runs. -/
theorem counts_besides (h : Attended l others log s) (hr : s.runs[i]? = some r)
    (hnone : r.permits = []) : s.queue.pool.usage.Counts (s.heldBesides i ++ others) := by
  have hperm := flatMap_perm_of_getElem? hr Run.permits
  rw [hnone, List.nil_append] at hperm
  exact h.loan.counts.perm (hperm.append_right others)

/-- If a run has no attempts in progress, what it has claimed is concluded. -/
theorem concluded_of_rest (h : Attended l others log s) (hr : s.runs[i]? = some r)
    (hrest : r.batch = []) {x : Event × Exchange (Disturbed σ)} (hx : x ∈ log) (hi : x.1.isOf i)
    {j : Job} (hj : j ∈ x.2.handedOut) : Concluded log i j s.queue.store.store := by
  obtain ⟨r₁, hr₁, hflight⟩ | ⟨-, hended⟩ := h.claims i x hx hi j hj
  · obtain rfl := Option.some.inj (hr.symm.trans hr₁)
    rw [hrest] at hflight
    cases hflight
  · exact hended

end Attended

/-- **Runs clean up after themselves** over every store that looks after its jobs. -/
theorem System.cleansUp {σ : Type} [Custodian σ] {l : Limits} {others : List Permit} {pool : Pool}
    (hpool : Loan.Exact l ⟨pool, others⟩) {rules : RunRules} (hrules : rules.Decide)
    (d : Disturbed σ) (deadlines : List (Option Nat)) {events : List Event}
    (hdecided : ∀ e ∈ events, e.IsDecided) :
    CleansUp rules (start d pool deadlines) events := by
  have hattended : ∀ earlier later, events = earlier ++ later →
      Attended l others ((start d pool deadlines).log rules earlier)
        ((start d pool deadlines).applyAll rules earlier) := by
    rintro earlier later rfl
    exact (attended_start hpool d deadlines).applyAll hrules fun e he =>
      hdecided e (List.mem_append_left _ he)
  have hend := hattended events [] (List.append_nil events).symm
  constructor
  case inTime => exact fun x hx id now => claims_in_time hx
  case nothingLeft => exact fun r hr hover => nothing_left hr hover
  case restored =>
    intro earlier later hevents i deadline r hfresh hr hover hothers
    have hbefore := (hattended earlier later hevents).counts_besides hfresh rfl
    have hafter := hend.counts_besides hr (nothing_left (List.mem_of_getElem? hr) hover).2
    exact hafter.agrees (hbefore.perm (hothers.append_right others))
  case concluded =>
    intro i r hr hover j hj
    obtain ⟨_, hmem, hj⟩ := List.mem_flatMap.mp hj
    obtain ⟨x, hclaim, rfl⟩ := List.mem_map.mp hmem
    obtain ⟨hx, hi⟩ := List.mem_filter.mp hclaim
    exact hend.concluded_of_rest hr (nothing_left (List.mem_of_getElem? hr) hover).1 hx hi hj

/-! ## Both stores -/

/-- **Over both stores runs clean up after themselves,** whatever state the store is in, whatever
the runs do and whatever goes wrong, with settings that break no rule. -/
theorem runs_clean_up (l : Limits) (others : List Permit) (pool : Pool)
    (hpool : Loan.Exact l ⟨pool, others⟩) (settings : Settings) (hvalid : settings.fault? = none)
    (window : Nat) (deadlines : List (Option Nat)) (events : List Event)
    (hdecided : ∀ e ∈ events, e.IsDecided) :
    (∀ d : Disturbed Memory,
      CleansUp ⟨window, settings.backoff.policy⟩ (System.start d pool deadlines) events) ∧
    (∀ d : Disturbed Table,
      CleansUp ⟨window, settings.backoff.policy⟩ (System.start d pool deadlines) events) := by
  have hvalid : settings.Valid := Settings.fault?_eq_none_iff.mp hvalid
  have hrules : RunRules.Decide ⟨window, settings.backoff.policy⟩ := fun j outcome now _ hsample =>
    hvalid.isSome_decide? j outcome now hsample
  exact ⟨fun d => System.cleansUp hpool hrules d deadlines hdecided,
    fun d => System.cleansUp hpool hrules d deadlines hdecided⟩

/-- Of two runs one settles an attempt, then finds nothing due any more; the deadline of the other
one has passed. -/
def unheard : List Event :=
  [.step 0 (.look 0 .epoch), .step 0 .allocate, .step 0 (.claim 0), .step 0 .launch,
    .step 0 (.settle ⟨NewJob.plain.id, 0⟩ (.success 3) .epoch (.zero false)), .step 0 .release,
    .step 0 .join, .step 0 (.look 7 .epoch), .step 1 (.look 7 .epoch)]

/-- Two runs at their start, over a store whose only job is the plain one and whose first completion
fails. -/
def Ledger.deafStart (σ : Type) [Ledger σ] : System (Disturbed σ) :=
  System.start { plainQueue σ with plan := [⟨.complete, 0, .fail⟩] } {} [none, some 5]

/-- The same two runs at their end. -/
def Ledger.deafEnd (σ : Type) [Ledger σ] : System (Disturbed σ) :=
  (deafStart σ).applyAll ⟨16, ({} : Settings).backoff.policy⟩ unheard

/-- Two runs are over. One of them has claimed a job whose completion failed: it runs still, and no
attempt of it is counted. -/
theorem unheard_runs_clean_up :
    (CleansUp ⟨16, ({} : Settings).backoff.policy⟩ (Ledger.deafStart Memory) unheard ∧
      (Ledger.deafEnd Memory).runs.map Run.isFinished = [true, true] ∧
      ((Ledger.deafStart Memory).claimsBy ⟨16, ({} : Settings).backoff.policy⟩ 0 unheard).map
        Job.receipt = [⟨NewJob.plain.id, 0⟩] ∧
      JobStore.Underway (Ledger.deafEnd Memory).queue.store.store ⟨NewJob.plain.id, 0⟩) ∧
    (CleansUp ⟨16, ({} : Settings).backoff.policy⟩ (Ledger.deafStart Table) unheard ∧
      (Ledger.deafEnd Table).runs.map Run.isFinished = [true, true] ∧
      ((Ledger.deafStart Table).claimsBy ⟨16, ({} : Settings).backoff.policy⟩ 0 unheard).map
        Job.receipt = [⟨NewJob.plain.id, 0⟩] ∧
      JobStore.Underway (Ledger.deafEnd Table).queue.store.store ⟨NewJob.plain.id, 0⟩) := by
  have hpool : Loan.Exact {} ⟨{}, []⟩ := Loan.exact_of_unused rfl rfl
  have hdecided : ∀ e ∈ unheard, e.IsDecided := by
    simp [unheard, Event.IsDecided, Binary64.zero]
  obtain ⟨inMemory, inTable⟩ := runs_clean_up {} [] {} hpool {} (by decide +kernel) 16
    [none, some 5] unheard hdecided
  exact ⟨⟨inMemory _, by decide +kernel, by decide +kernel, by decide +kernel⟩,
    ⟨inTable _, by decide +kernel, by decide +kernel, by decide +kernel⟩⟩

end SyncJobs
