import Mathlib.Algebra.BigOperators.Ring.Finset
import SyncJobs.Proofs.AnyOrder
import SyncJobs.Proofs.Passes
import SyncJobs.Scheduler

/-!
# The summaries of runs account for what was completed

Runs share a store in any order of their steps; jobs are taken back while they are worked on, and
completions fail or come too late. Then the summaries that the runs return account for the attempts
that were written down, each exactly once (`Reckoned`). What was written is read off the calls to
the store behind all disturbances (`System.asked`), by where the jobs stood before and after.

The counters have 64 bits. They are the numbers of the attempts modulo `2 ^ 64`, which are the
numbers themselves as long as these have 64 bits (`Summary.Records`); two jobs may have too many
items between them (`two_jobs_are_too_much`).

Three parts are put together: the summaries are the sum over the calls (`System.total_applyAll`),
a call completes what it wrote (`History.persisted`), and what is completed is added to the totals
over the jobs as long as nobody takes jobs back (`Ledger.Tracks.total_append`).
-/

namespace SyncJobs

/-! ## Attempts that were completed -/

/-- **A summary records some attempts,** counted one after the other: it has their numbers modulo
`2 ^ 64`. Where overflow is looked for there is a summary exactly if the numbers have 64 bits, and
it is the same. -/
structure Summary.Records (attempts : List (Domain × Decision)) (s : Summary) : Prop where
  counted : s = attempts.foldl (fun s a => s.record a.1 a.2) {}
  scores : s.Scores attempts
  checked : ∀ x, attempts.foldlM (fun s a => s.record? a.1 a.2) {} = some x ↔
    HasRoom {} attempts ∧ x = s

theorem Summary.records_sum (attempts : List (Domain × Decision)) :
    Records attempts (attempts.map fun a => single a.1 a.2).sum := by
  have hcounted : attempts.foldl (fun s a => s.record a.1 a.2) {} =
      (attempts.map fun a => single a.1 a.2).sum := (foldl_record attempts {}).trans (zero_add _)
  refine ⟨hcounted.symm, scores_sum attempts, fun x => ?_⟩
  rw [foldlM_record?, hcounted, eq_comm (a := x)]

namespace System

variable {σ : Type} [JobStore σ] {rules : RunRules}

/-- **The attempts that the run with a number completed,** one for each completion that was answered
with a job. -/
def persistedBy (rules : RunRules) (i : Nat) (events : List Event) (s : System σ) :
    List (Domain × Decision) :=
  ((s.log rules events).filter fun x => x.1.isOf i).filterMap fun x => x.2.persisted?

theorem countedBy_eq_sum (i : Nat) (events : List Event) (s : System σ) :
    s.countedBy rules i events =
      ((s.persistedBy rules i events).map fun a => Summary.single a.1 a.2).sum :=
  sum_summary _

/-! ## What is asked of the store behind -/

/-- **What is asked of the store behind the disturbances,** the latest call first. -/
def asked (rules : RunRules) (d : Disturbed σ) (pool : Pool) (deadlines : List (Option Nat))
    (events : List Event) : List (Exchange σ) :=
  past rules d [] pool deadlines events

theorem past_eq_append (rules : RunRules) (d : Disturbed σ) (past : List (Exchange σ)) (pool : Pool)
    (deadlines : List (Option Nat)) (events : List Event) :
    System.past rules d past pool deadlines events =
      asked rules d pool deadlines events ++ past := by
  have hsame := (storeMap_onto past).disturbed.applyAll rules events
    (start (d.journaled []) pool deadlines)
  exact congrArg (fun s => s.queue.store.store.journal) hsame

/-- **What the runs return,** taken together: a run that failed returns no summary. -/
def returned (s : System σ) : Summary :=
  (s.runs.filterMap fun r => (Scheduler.resultOf r).toOption).sum

omit [JobStore σ] in
/-- Runs that failed have counted nothing, so nothing is lost with them. -/
theorem returned_eq_total {s : System σ}
    (h : ∀ r ∈ s.runs, ∀ e, r.phase = .finished (some e) → r.summary = {}) :
    s.returned = s.total := by
  rw [returned, total]
  generalize s.runs = runs at h
  induction runs with
  | nil => rfl
  | cons r runs ih =>
    obtain ⟨hr, hruns⟩ := List.forall_mem_cons.mp h
    rw [List.filterMap_cons, List.map_cons, List.sum_cons, ← ih hruns, Scheduler.resultOf]
    split
    · rename_i hnone
      split at hnone
      · rw [hr _ ‹_›]
        exact (zero_add _).symm
      · cases hnone
    · rename_i x hx
      split at hx
      · cases hx
      · obtain rfl := Option.some.inj hx
        rfl

end System

/-! ## Stores that cannot be told apart -/

/-- The same call to another store. -/
def Exchange.map {σ τ : Type} (f : σ → τ) (e : Exchange σ) : Exchange τ := ⟨f e.before, e.call⟩

namespace StoreMap

variable {σ τ : Type} [JobStore σ] [JobStore τ] {f : σ → τ} (h : StoreMap f) (rules : RunRules)
  (events : List Event) (s : System σ)

include h

/-- **The same is asked** of a store that cannot be told from another one. -/
theorem log : (s.map f).log rules events =
    (s.log rules events).map fun x => (x.1, x.2.map f) := by
  induction events generalizing s with
  | nil => rfl
  | cons e events ih =>
    rw [System.log, System.log, List.map_append, h.apply, ih]
    refine congrArg (· ++ _) ?_
    show (Option.map _ (s.call? rules e)).toList = _
    cases s.call? rules e <;> rfl

/-- The same attempts are completed. -/
theorem completions : (s.map f).completions rules events = s.completions rules events := by
  rw [System.completions, h.log, List.filterMap_map]
  refine List.filterMap_congr fun x _ => ?_
  obtain ⟨e, before, c⟩ := x
  cases c with
  | complete r d now =>
    simp only [Function.comp_apply, Exchange.map, Exchange.completion?, h.complete r d now before]
  | enqueue | dueJobs | claim | claimDue | get | counts | deadLetters | recoverStale
    | purgeSucceeded => rfl

theorem persisted : (s.map f).persisted rules events = s.persisted rules events := by
  rw [System.persisted, h.log, List.filterMap_map]
  refine List.filterMap_congr fun x _ => ?_
  obtain ⟨e, before, c⟩ := x
  cases c with
  | complete r d now =>
    simp only [Function.comp_apply, Exchange.map, Exchange.persisted?, h.complete r d now before]
  | enqueue | dueJobs | claim | claimDue | get | counts | deadLetters | recoverStale
    | purgeSucceeded => rfl

end StoreMap

/-! ## Books that balance -/

/-- **Some attempts were added to a store:** to its counts of jobs, and to the attempts of all jobs
taken together. -/
structure Adds {σ : Type} [Inventory σ] (attempts : List (Domain × Decision)) (s s' : σ) :
    Prop where
  counts : ∃ c c', (JobStore.counts s).1 = .ok c ∧ (JobStore.counts s').1 = .ok c' ∧
    c'.succeeded = c.succeeded + ledTo .succeeded attempts ∧
    c'.deadLetter = c.deadLetter + ledTo .deadLetter attempts
  attempts : ((Inventory.standings s').map Standing.attempts).sum =
    ((Inventory.standings s).map Standing.attempts).sum + attempts.length

/-- **The books of some runs balance** after some events. -/
structure Reckoned {σ : Type} [Inventory σ] (rules : RunRules) (d : Disturbed σ) (pool : Pool)
    (deadlines : List (Option Nat)) (events : List Event) (s : System (Disturbed σ)) : Prop where
  /-- a run has counted the attempts that it completed, once each, in whatever order -/
  run : ∀ i r, s.runs[i]? = some r → ∀ attempts : List (Domain × Decision),
    attempts.Perm ((System.start d pool deadlines).persistedBy rules i events) →
      r.summary.Records attempts
  /-- no more was counted than the runs return -/
  failed : ∀ r ∈ s.runs, ∀ e, r.phase = .finished (some e) → r.summary = {}
  /-- what is returned are the attempts that all runs completed -/
  returned : s.returned.Records ((System.start d pool deadlines).persisted rules events)
  /-- these are the transitions that completions wrote -/
  written : ∀ t, t ≠ .running → ledTo t ((System.start d pool deadlines).persisted rules events) =
    (System.asked rules d pool deadlines events).countP (Exchange.wrote t)
  /-- with the items of the jobs that succeeded -/
  items : ∀ domain,
    itemsFound domain ((System.start d pool deadlines).persisted rules events) =
      ((System.asked rules d pool deadlines events).map (Exchange.itemsOf domain)).sum
  /-- a completion that fails is not counted and changes nothing -/
  refused : ∀ x ∈ (System.start d pool deadlines).log rules events, ∀ receipt decision now,
    x.2.call = .complete receipt decision now → ∀ e, x.2.answer = .error e →
      x.2.persisted? = none ∧ x.2.after.store = x.2.before.overtaken receipt now
  /-- if nobody takes jobs back, what the runs completed was added to the store -/
  alone : d.IsCalm → (∀ e ∈ events, ¬ e.isRecovery) →
    Adds ((System.start d pool deadlines).persisted rules events) d.store s.queue.store.store
  /-- the order in which the attempts in flight end does not matter, if the same are completed -/
  anyOrder : ∀ ends ends' : List Event, ends.Perm ends' → (∀ e ∈ ends, e.isEnding) →
    (ends.filterMap Event.receipt?).Nodup →
    (∀ r, r ∈ s.completions rules ends ↔ r ∈ s.completions rules ends') →
      (s.applyAll rules ends).runs.map Run.summary = (s.applyAll rules ends').runs.map Run.summary
  /-- and the same are completed, if no completion is disturbed -/
  sameCompleted : s.queue.store.IsSteady → ∀ ends ends' : List Event, ends.Perm ends' →
    (∀ e ∈ ends, e.isEnding) → (ends.filterMap Event.receipt?).Nodup →
      ∀ r, r ∈ s.completions rules ends ↔ r ∈ s.completions rules ends'

section Books

variable {σ : Type} [Inventory σ] {past new : List (Exchange σ)}

/-- **Calls of runs add what they complete.** -/
theorem History.adds (h : History Ledger.start (new ++ past))
    (hnew : ∀ e ∈ new, e.call.isOfRuns) :
    Adds (new.filterMap Exchange.persisted?) (current Ledger.start past)
      (current Ledger.start (new ++ past)) := by
  obtain ⟨m, hm⟩ := h.of_append.tracks
  obtain ⟨m₁, hm₁, hsucceeded⟩ := hm.total_append (weighs_status (t := .succeeded) rfl) h hnew
  obtain ⟨m₂, hm₂, hdeadLetter⟩ := hm.total_append (weighs_status (t := .deadLetter) rfl) h hnew
  obtain ⟨m₃, hm₃, hattempts⟩ := hm.total_append weighs_attempts h hnew
  have hcounts := Inventory.counts_eq hm₁.keeps
  have hsame : m₂.counts = m₁.counts :=
    Except.ok.inj ((Inventory.counts_eq hm₂.keeps).symm.trans hcounts)
  rw [← Memory.of_counts, ← Memory.of_counts, sum_led] at hsucceeded hdeadLetter
  rw [List.map_const', List.sum_replicate_nat, Nat.mul_one] at hattempts
  have hsum : ∀ {s : σ} {m : Memory}, Ledger.Keeps s m →
      ((Inventory.standings s).map Standing.attempts).sum =
        ((m.total fun j => j.attempts.toNat : Nat) : Int) := by
    intro s m hs
    rw [Inventory.standings_eq hs, Memory.total, Nat.cast_list_sum, List.map_map, List.map_map]
    rfl
  refine ⟨⟨m.counts, m₁.counts, Inventory.counts_eq hm.keeps, hcounts, hsucceeded, ?_⟩, ?_⟩
  · rw [← hsame]
    exact hdeadLetter
  · rw [hsum hm₃.keeps, hsum hm.keeps, hattempts, Nat.cast_add]

/-- The order of the attempts does not matter. -/
theorem Adds.of_reverse {attempts : List (Domain × Decision)} {s s' : σ}
    (h : Adds attempts.reverse s s') : Adds attempts s s' := by
  obtain ⟨hcounts, hattempts⟩ := h
  simp only [ledTo_reverse] at hcounts
  rw [List.length_reverse] at hattempts
  exact ⟨hcounts, hattempts⟩

end Books

namespace System

section Started

variable {σ : Type} [JobStore σ] {rules : RunRules} {d : Disturbed σ} {pool : Pool}
  {deadlines : List (Option Nat)} {events : List Event}

/-- A run that started with an empty summary has counted what it completed, in whatever order. -/
theorem records_of_perm {i : Nat} {r : Run}
    (hr : ((start d pool deadlines).applyAll rules events).runs[i]? = some r)
    {attempts : List (Domain × Decision)}
    (h : attempts.Perm ((start d pool deadlines).persistedBy rules i events)) :
    r.summary.Records attempts := by
  have hi : i < (start d pool deadlines).runs.length := by
    rw [← length_runs_applyAll rules events]
    exact (List.getElem?_eq_some_iff.mp hr).1
  obtain ⟨deadline, -, hstart⟩ := List.mem_map.mp (List.getElem_mem hi)
  obtain ⟨r', hr', hsum⟩ := summary_applyAll rules events (List.getElem?_eq_getElem hi)
  obtain rfl := Option.some.inj (hr'.symm.trans hr)
  rw [← hstart, countedBy_eq_sum, ← (h.map _).sum_eq] at hsum
  rw [hsum.trans (zero_add _)]
  exact Summary.records_sum attempts

/-- A run that failed has counted nothing. -/
theorem summary_of_failed {r : Run} (hr : r ∈ ((start d pool deadlines).applyAll rules events).runs)
    {e : StoreError} (he : r.phase = .finished (some e)) : r.summary = {} :=
  (forall_runs Run.Move.tidy (forall_start Run.tidy_start d pool deadlines) events r
    hr).summary_of_failed he

/-- What runs return are the attempts that they completed. -/
theorem returned_records : ((start d pool deadlines).applyAll rules events).returned.Records
    ((start d pool deadlines).persisted rules events) := by
  have hstart : (start d pool deadlines).total = 0 := by
    refine List.sum_eq_zero (List.forall_mem_map.mpr ?_)
    exact forall_start (fun _ => rfl) d pool deadlines
  have htotal := total_applyAll rules events (start d pool deadlines)
  rw [hstart, zero_add, counted, sum_summary] at htotal
  rw [returned_eq_total fun r hr e he => summary_of_failed hr he, htotal]
  exact Summary.records_sum _

end Started

section Journals

variable {σ : Type} [Inventory σ] {past : List (Exchange σ)} {d : Disturbed σ} {rules : RunRules}
  {pool : Pool} {deadlines : List (Option Nat)} {events : List Event}

/-- Over a store that keeps a journal the runs do the same. -/
theorem applyAll_journaled (rules : RunRules) (d : Disturbed σ) (past : List (Exchange σ))
    (pool : Pool) (deadlines : List (Option Nat)) (events : List Event) :
    (start d pool deadlines).applyAll rules events =
      ((start (d.journaled past) pool deadlines).applyAll rules events).map
        (Disturbed.map Journaled.store) :=
  storeMap_store.disturbed.applyAll rules events (start (d.journaled past) pool deadlines)

/-- **What the calls behind complete** is what the runs have completed, the latest first; without
recoveries these are calls that runs make. -/
theorem asked_persisted (rules : RunRules) (d : Disturbed σ) (pool : Pool)
    (deadlines : List (Option Nat)) (events : List Event) :
    (asked rules d pool deadlines events).filterMap Exchange.persisted? =
      ((start d pool deadlines).persisted rules events).reverse ∧
    (d.IsCalm → (∀ e ∈ events, ¬ e.isRecovery) →
      ∀ e ∈ asked rules d pool deadlines events, e.call.isOfRuns) := by
  obtain ⟨-, new, hnew, hpersisted, hcalls⟩ :=
    gains_applyAll rules events (start (d.journaled []) pool deadlines)
  obtain rfl : asked rules d pool deadlines events = new := hnew.trans (List.append_nil new)
  refine ⟨hpersisted.trans ?_, fun hcalm hquiet => hcalls ⟨hcalm, hquiet⟩⟩
  exact congrArg List.reverse (storeMap_store.disturbed.persisted rules events
    (start (d.journaled []) pool deadlines)).symm

variable {l : Limits} {others : List Permit} (h : History Ledger.start past)
  (hd : d.store = current Ledger.start past) (hpool : Loan.Exact l ⟨pool, others⟩)

include h hd hpool

/-- Runs over a store that keeps a journal are orderly. -/
theorem orderly_journaled (rules : RunRules) (deadlines : List (Option Nat))
    (events : List Event) :
    Orderly (fun d => d.store) l others
      ((start (d.journaled past) pool deadlines).applyAll rules events).queue
      ((start (d.journaled past) pool deadlines).applyAll rules events).runs :=
  (orderly_start ⟨h, hd.symm⟩ hpool deadlines).applyAll records_journaled.disturbed rules events

/-- What was asked goes on from the past, and leads to the store at the end. -/
theorem history_asked (rules : RunRules) (deadlines : List (Option Nat)) (events : List Event) :
    History Ledger.start (asked rules d pool deadlines events ++ past) ∧
    current Ledger.start (asked rules d pool deadlines events ++ past) =
      ((start d pool deadlines).applyAll rules events).queue.store.store := by
  have hfaithful := (orderly_journaled h hd hpool rules deadlines events).faithful
  have hpast := past_eq_append rules d past pool deadlines events
  rw [← hpast, applyAll_journaled rules d past]
  exact ⟨hfaithful.history, hfaithful.current⟩

/-- **A completion that fails** counts for nothing and changes nothing. -/
theorem refused_of_mem_log {x : Event × Exchange (Disturbed σ)}
    (hx : x ∈ (start d pool deadlines).log rules events) {receipt : Receipt} {decision : Decision}
    {now : Instant} (hcall : x.2.call = .complete receipt decision now) {e : StoreError}
    (hanswer : x.2.answer = .error e) :
    x.2.persisted? = none ∧ x.2.after.store = x.2.before.overtaken receipt now := by
  obtain ⟨ev, before, call⟩ := x
  subst hcall
  obtain ⟨earlier, later, -, hcall, hbefore⟩ := of_mem_log hx
  have horderly := orderly_journaled h hd hpool rules deadlines earlier
  have hcompletes : (JobStore.complete receipt decision now before).1 = .error e :=
    Exchange.answer_complete_eq_error_iff.mp hanswer
  refine ⟨?_, ?_⟩
  · rw [Exchange.persisted?_complete, hcompletes]
    rfl
  · rw [applyAll_journaled rules d past] at hcall hbefore
    refine Disturbed.store_of_refused horderly.faithful.history ?_ (horderly.allowed hcall)
      hcompletes
    obtain rfl : before = _ := hbefore
    exact horderly.faithful.current.symm

/-- **The books balance** over every store that can be taken stock of. -/
theorem reckoned (rules : RunRules) (deadlines : List (Option Nat)) (events : List Event) :
    Reckoned rules d pool deadlines events ((start d pool deadlines).applyAll rules events) := by
  obtain ⟨hasked, hcalls⟩ := asked_persisted rules d pool deadlines events
  obtain ⟨hhistory, hcurrent⟩ := history_asked h hd hpool rules deadlines events
  obtain ⟨hwrote, hitems⟩ := hhistory.persisted
  have horderly := orderly_journaled h hd hpool rules deadlines events
  have hsame := applyAll_journaled rules d past pool deadlines events
  simp only [hasked, ledTo_reverse, itemsFound_reverse] at hwrote hitems
  constructor
  case run => exact fun i r hr attempts hattempts => records_of_perm hr hattempts
  case failed => exact fun r hr e he => summary_of_failed hr he
  case returned => exact returned_records
  case written => exact fun t ht => (hwrote t ht).symm
  case items => exact fun domain => (hitems domain).symm
  case refused =>
    exact fun x hx receipt decision now hcall e => refused_of_mem_log h hd hpool hx hcall
  case alone =>
    intro hcalm hquiet
    have hadds := hhistory.adds (hcalls hcalm hquiet)
    rw [hasked, hcurrent, ← hd] at hadds
    exact hadds.of_reverse
  case anyOrder =>
    intro ends ends' hperm hends hnodup hsameEnds
    rw [hsame] at hsameEnds ⊢
    simp only [storeMap_store.disturbed.completions] at hsameEnds
    rw [storeMap_store.disturbed.applyAll, storeMap_store.disturbed.applyAll]
    exact horderly.summary_perm hperm hends hnodup hsameEnds
  case sameCompleted =>
    intro hsteady ends ends' hperm hends hnodup r
    rw [hsame] at hsteady ⊢
    rw [storeMap_store.disturbed.completions, storeMap_store.disturbed.completions]
    exact horderly.completions_perm hsteady hperm hends hnodup r

end Journals

end System

/-! ## Both stores -/

/-- **In both stores the summaries of runs account for what was completed,** whatever the runs do,
and whatever goes wrong with the store that they share. -/
theorem summaries_account (l : Limits) (others : List Permit) (pool : Pool)
    (hpool : Loan.Exact l ⟨pool, others⟩) (rules : RunRules) (deadlines : List (Option Nat))
    (events : List Event) :
    (∀ (past : List (Exchange Memory)) (d : Disturbed Memory), History Memory.empty past →
      d.store = current .empty past →
      Reckoned rules d pool deadlines events
        ((System.start d pool deadlines).applyAll rules events)) ∧
    (∀ (past : List (Exchange Table)) (d : Disturbed Table), History Table.empty past →
      d.store = current .empty past →
      Reckoned rules d pool deadlines events
        ((System.start d pool deadlines).applyAll rules events)) :=
  ⟨fun _ _ h hd => System.reckoned h hd hpool rules deadlines events,
    fun _ _ h hd => System.reckoned h hd hpool rules deadlines events⟩

/-- The racing runs go on: one of them settles its attempt, and then jobs are taken back. -/
def raced : List Event :=
  racing ++ [.step 0 .launch, .step 1 .launch,
    .step 0 (.settle ⟨NewJob.plain.id, 0⟩ (.success 3) .epoch (.zero false)),
    .recover .epoch .epoch, .step 0 .release, .step 0 .join, .step 0 (.look 0 .epoch)]

/-- Of two racing runs, one returns the attempt that was completed, and the other nothing. -/
theorem racing_runs_account :
    (Reckoned ⟨16, .usual⟩ (Ledger.plainQueue Memory) {} [none, none] raced
        ((System.start (Ledger.plainQueue Memory) {} [none, none]).applyAll ⟨16, .usual⟩ raced) ∧
      ((System.start (Ledger.plainQueue Memory) {} [none, none]).applyAll
        ⟨16, .usual⟩ raced).returned = { completed := 1, emailItems := 3 }) ∧
    (Reckoned ⟨16, .usual⟩ (Ledger.plainQueue Table) {} [none, none] raced
        ((System.start (Ledger.plainQueue Table) {} [none, none]).applyAll ⟨16, .usual⟩ raced) ∧
      ((System.start (Ledger.plainQueue Table) {} [none, none]).applyAll
        ⟨16, .usual⟩ raced).returned = { completed := 1, emailItems := 3 }) := by
  have hpool : Loan.Exact {} ⟨{}, []⟩ := Loan.exact_of_unused rfl rfl
  have hmemory : History Memory.empty (Ledger.plainPast Memory) :=
    .step .nil (.enqueue .plain) ⟨List.not_mem_nil, by decide⟩
  have htable : History Table.empty (Ledger.plainPast Table) :=
    .step .nil (.enqueue .plain) ⟨List.not_mem_nil, by decide⟩
  obtain ⟨inMemory, inTable⟩ := summaries_account {} [] {} hpool ⟨16, .usual⟩ [none, none] raced
  exact ⟨⟨inMemory _ (Ledger.plainQueue Memory) hmemory rfl, by decide +kernel⟩,
    ⟨inTable _ (Ledger.plainQueue Table) htable rfl, by decide +kernel⟩⟩

/-! ## Counters that overflow -/

/-- A job that becomes due a second after 1970 began. -/
def NewJob.later : NewJob :=
  { NewJob.plain with id := ⟨2⟩, runAfter := Instant.epoch.add (.ofSeconds 1) }

/-- The history of a store with two jobs that become due one after the other. -/
def Ledger.bulkPast (σ : Type) [Ledger σ] : List (Exchange σ) :=
  replay start [.enqueue .later, .enqueue .plain]

/-- A store with these jobs, and with which nothing goes wrong. -/
def Ledger.bulkQueue (σ : Type) [Ledger σ] : Disturbed σ where
  store := current start (bulkPast σ)
  plan := []

/-- A pass that works on a job and finds `2 ^ 63` items. -/
def bulkPass (i : JobId) (now : Instant) : List Event :=
  [.step 0 (.look 0 now), .step 0 .allocate, .step 0 (.claim 0), .step 0 .launch,
    .step 0 (.settle ⟨i, 0⟩ (.success 9223372036854775808) now (.zero false)), .step 0 .release,
    .step 0 .join]

/-- A run that works on both jobs and then finds nothing due. -/
def bulk : List Event :=
  bulkPass ⟨1⟩ .epoch ++ bulkPass ⟨2⟩ NewJob.later.runAfter ++
    [.step 0 (.look 0 NewJob.later.runAfter)]

/-- Runs that return no items, although completions wrote some. -/
def Ledger.LosesItems (σ : Type) [Inventory σ] : Prop :=
  History (Ledger.start (σ := σ)) (bulkPast σ) ∧
    ((System.start (bulkQueue σ) {} [none]).applyAll ⟨16, .usual⟩ bulk).returned =
      { completed := 2, emailItems := 0 } ∧
    ((System.asked ⟨16, .usual⟩ (bulkQueue σ) {} [none] bulk).map
      (Exchange.itemsOf .email)).sum = 2 ^ 64

/-- **The items of two jobs may be too many for a counter of 64 bits,** in either store. -/
theorem two_jobs_are_too_much : Ledger.LosesItems Memory ∧ Ledger.LosesItems Table := by
  have hfresh : (⟨2⟩ : JobId) ∉ [(⟨1⟩ : JobId)] := by decide
  have hmemory : History Memory.empty (Ledger.bulkPast Memory) :=
    (History.step .nil (.enqueue .plain) ⟨List.not_mem_nil, by decide⟩).step
      (.enqueue .later) ⟨hfresh, by decide⟩
  have htable : History Table.empty (Ledger.bulkPast Table) :=
    (History.step .nil (.enqueue .plain) ⟨List.not_mem_nil, by decide⟩).step
      (.enqueue .later) ⟨hfresh, by decide⟩
  exact ⟨⟨hmemory, by decide +kernel, by decide +kernel⟩,
    htable, by decide +kernel, by decide +kernel⟩

end SyncJobs
