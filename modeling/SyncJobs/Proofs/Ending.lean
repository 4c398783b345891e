import SyncJobs.Proofs.Allowance
import SyncJobs.Proofs.InFlight
import SyncJobs.Proofs.StepsLeft

/-!
# Runs come to an end

Runs share a store, writes to which may fail and claims from which may be lost or stolen, while
nobody else adds jobs or takes them back. Then their claims are no more than the attempts that are
left to the waiting jobs at the start; each pass claims a job, so the passes are no more either; and
after a number of steps that is known beforehand each run is over (`System.ends`). Nothing is
assumed of the clock, of outcomes, or of the order in which the runs make their steps.

Two accounts are kept. What the jobs owe (`Spends`) pays for the claims of all runs, and the claims
of a run pay for its steps (`Run.stepsLeft`).
-/

namespace SyncJobs

/-! ## Stores from which nobody takes jobs back -/

/-- No completion is planned to come after a recovery of its job. -/
def Disturbed.IsCalm {σ : Type} (d : Disturbed σ) : Prop := ∀ p ∈ d.plan, p.disturbance ≠ .reclaim

instance {σ : Type} (d : Disturbed σ) : Decidable d.IsCalm :=
  inferInstanceAs (Decidable (∀ p ∈ d.plan, p.disturbance ≠ .reclaim))

/-- A journal that is faithful goes on from the store that it led to. -/
theorem Journaled.Faithful.journal_after {σ : Type} [Ledger σ] {s : Journaled σ}
    (hs : s.Faithful Ledger.start) (c : StoreCall) :
    (s.after c).journal = ⟨SyncJobs.current Ledger.start s.journal, c⟩ :: s.journal := by
  rw [hs.current]
  rfl

namespace Disturbed

section Calm

variable {σ : Type} [Ledger σ] {d : Disturbed (Journaled σ)} {bound n : Nat}
  {held held' : List Receipt}

omit [Ledger σ] in
theorem IsCalm.planned_ne (h : d.IsCalm) (o : StoreOperation) : d.planned? o ≠ some .reclaim := by
  intro hplanned
  rw [planned?, Option.map_eq_some_iff] at hplanned
  obtain ⟨p, hp, hreclaim⟩ := hplanned
  exact h p (List.mem_of_find?_eq_some hp) hreclaim

variable (hd : d.store.Faithful Ledger.start) (h : Spends bound d.store.journal held n)

include hd h

/-- A look at a disturbed store spends nothing. -/
theorem spends_dueJobs (now : Instant) (limit : Nat) (cap : Option Nat) :
    (JobStore.dueJobs now limit cap d).2.plan = d.plan ∧
      Spends bound (JobStore.dueJobs now limit cap d).2.store.journal held n := by
  refine disturb_cases (P := fun (x : _ × Disturbed (Journaled σ)) => x.2.plan = d.plan ∧
    Spends bound x.2.store.journal held n) ?_ ?_
  · exact fun _ => ⟨rfl, h⟩
  · refine ⟨rfl, ?_⟩
    show Spends bound (d.store.after (.dueJobs now limit cap)).journal held n
    rw [hd.journal_after]
    exact h.dueJobs now limit cap

/-- **A claim from a disturbed store spends one** if it is answered with a job. If somebody else
claims the job first, that spends one too, but nobody holds the receipt. -/
theorem spends_claim (i : JobId) (now : Instant) :
    (JobStore.claim i now d).2.plan = d.plan ∧
      Spends bound (JobStore.claim i now d).2.store.journal held n ∧
      ∀ j, (JobStore.claim i now d).1 = .ok (some j) →
        Spends bound (JobStore.claim i now d).2.store.journal (j.receipt :: held) (n + 1) := by
  have honce : ∀ {s : Journaled σ}, s.Faithful Ledger.start → Spends bound s.journal held n →
      Spends bound (s.after (.claim i now)).journal held n ∧
      ∀ j, (JobStore.claim i now s).1 = .ok (some j) →
        Spends bound (s.after (.claim i now)).journal (j.receipt :: held) (n + 1) := by
    intro s hs hspends
    obtain ⟨hmissed, hclaimed⟩ := hspends.claim i now
    rw [hs.journal_after]
    refine ⟨hmissed, fun j hj => hclaimed j ?_⟩
    rw [hs.current]
    exact hj
  refine disturb_cases (P := fun (x : _ × Disturbed (Journaled σ)) => x.2.plan = d.plan ∧
    Spends bound x.2.store.journal held n ∧ ∀ j : Job, x.1 = .ok (some j) →
      Spends bound x.2.store.journal (j.receipt :: held) (n + 1)) ?_ ?_
  · exact fun _ => ⟨rfl, h, fun _ => nofun⟩
  · cases d.planned? .claim with
    | none => exact ⟨rfl, honce hd h⟩
    | some p =>
      cases p with
      | lose => exact ⟨rfl, h, fun _ => nofun⟩
      | fail | reclaim => exact ⟨rfl, honce hd h⟩
      | steal =>
        obtain ⟨hstolen, -⟩ := honce hd h
        exact ⟨rfl, honce (hd.after (c := .claim i now) trivial) hstolen⟩

/-- **A completion spends nothing** if nobody takes the job back first, and gives its receipt
away, whether or not it fails. -/
theorem spends_complete (hcalm : d.IsCalm) {r : Receipt} (hr : r ∈ held) (hheld : held' ⊆ held)
    {decision : Decision} {now : Instant}
    (hallowed : (StoreCall.complete r decision now).Allowed d.store.journal) :
    (JobStore.complete r decision now d).2.plan = d.plan ∧
      Spends bound (JobStore.complete r decision now d).2.store.journal held' n := by
  have honce : Spends bound (d.store.after (.complete r decision now)).journal held' n := by
    rw [hd.journal_after]
    exact h.complete hr hheld hallowed
  refine disturb_cases (P := fun (x : _ × Disturbed (Journaled σ)) => x.2.plan = d.plan ∧
    Spends bound x.2.store.journal held' n) ?_ ?_
  · exact fun _ => ⟨rfl, h.mono hheld⟩
  · cases hplanned : d.planned? .complete with
    | none => exact ⟨rfl, honce⟩
    | some p =>
      cases p with
      | fail | lose | steal => exact ⟨rfl, honce⟩
      | reclaim => exact absurd hplanned (hcalm.planned_ne .complete)

end Calm

end Disturbed

/-! ## Runs over such a store -/

namespace System

section Thrifty

variable {σ : Type} [Shelf σ] {rules : RunRules} {l : Limits} {others : List Permit}

/-- **The runs spend what is theirs:** they are orderly, nobody takes jobs back, and so many jobs
were claimed of a number of them. -/
structure Thrifty (l : Limits) (others : List Permit) (bound : Nat)
    (s : System (Disturbed (Journaled σ))) (n : Nat) : Prop where
  orderly : Orderly (fun d => d.store) l others s.queue s.runs
  calm : s.queue.store.IsCalm
  spends : Spends bound s.queue.store.store.journal (s.inFlight.map fun a => a.job.receipt) n

variable {bound n : Nat} {s : System (Disturbed (Journaled σ))}

omit [Shelf σ] in
/-- The attempts in flight after one run has moved. -/
theorem mem_inFlight_set {i : Nat} {r' : Run} {q' : Queue (Disturbed (Journaled σ))} {a : Attempt}
    (h : a ∈ (System.mk q' (s.runs.set i r')).inFlight) : a ∈ r'.batch ∨ a ∈ s.inFlight := by
  obtain ⟨r, hr, ha⟩ := List.mem_flatMap.mp h
  rcases List.mem_or_eq_of_mem_set hr with hr | rfl
  · exact .inr (List.mem_flatMap.mpr ⟨r, hr, ha⟩)
  · exact .inl ha

/-- **A step spends the job that it claims,** if it claims one. -/
theorem Thrifty.step (h : Thrifty l others bound s n) (rules : RunRules) (i : Nat) (step : Step) :
    Thrifty l others bound (s.apply rules (.step i step))
      (n + (StoreCall.handsOut s.queue.store (s.call? rules (.step i step))).length) := by
  have horderly := h.orderly.apply records_journaled.disturbed rules (.step i step)
  cases hr : s.runs[i]? with
  | none =>
    obtain ⟨hcall, happly⟩ := apply_step_of_none rules hr step
    rw [happly, hcall]
    exact h
  | some r =>
    obtain ⟨c, r', q', hmove, hcall, happly⟩ := apply_step rules hr step
    rw [hcall, happly]
    rw [happly] at horderly
    have hmem : r ∈ s.runs := List.mem_of_getElem? hr
    have hfaithful := h.orderly.faithful
    -- attempts that are in flight afterwards were so before, or are new in this run
    have hheld : ∀ held, (∀ a ∈ r'.batch, a.job.receipt ∈ held) →
        (s.inFlight.map fun a => a.job.receipt) ⊆ held →
        ((System.mk q' (s.runs.set i r')).inFlight.map fun a => a.job.receipt) ⊆ held := by
      intro held hnew hold receipt hreceipt
      obtain ⟨a, ha, rfl⟩ := List.mem_map.mp hreceipt
      exact (mem_inFlight_set ha).elim (hnew a) fun ha => hold (List.mem_map_of_mem ha)
    have hflight : ∀ a ∈ r.batch, a.job.receipt ∈ s.inFlight.map fun a => a.job.receipt :=
      fun a ha => List.mem_map_of_mem (List.mem_flatMap.mpr ⟨r, hmem, ha⟩)
    have hsame : (∀ a ∈ r'.batch, a ∈ r.batch) → ((System.mk q' (s.runs.set i r')).inFlight.map
        fun a => a.job.receipt) ⊆ s.inFlight.map fun a => a.job.receipt :=
      fun hbatch => hheld _ (fun a ha => hflight a (hbatch a ha)) (List.Subset.refl _)
    have hretired : ∀ a, ∀ b ∈ (r.retire a).batch, b ∈ r.batch :=
      fun _ _ hb => (List.mem_filter.mp hb).1
    cases hmove with
    | ignored | closed | granted | gaveUp | ended | launched | released | joined =>
      exact ⟨horderly, h.calm, h.spends.mono (hsame fun _ ha => ha)⟩
    | lost | brokeDown => exact ⟨horderly, h.calm, h.spends.mono (hsame (hretired _))⟩
    | unreadable hphase htime havailable heq | nothingDue hphase htime havailable heq
      | looked hphase htime havailable hsome heq =>
      obtain ⟨hplan, hspends⟩ := Disturbed.spends_dueJobs hfaithful h.spends ‹Instant› rules.window
        (some s.queue.pool.limits.perAccount)
      rw [heq] at hplan hspends
      exact ⟨horderly, fun p hp => h.calm p (hplan ▸ hp), hspends.mono (hsame fun _ ha => ha)⟩
    | @claimed time now j job permit rest started store hphase htime heq =>
      obtain ⟨hplan, -, hclaimed⟩ := Disturbed.spends_claim hfaithful h.spends j.id now
      have hspends := hclaimed job (congrArg Prod.fst heq)
      rw [heq] at hplan hspends
      rw [Run.handsOut_claimed heq]
      refine ⟨horderly, fun p hp => h.calm p (hplan ▸ hp), hspends.mono (hheld _ (fun a ha => ?_)
        (List.subset_cons_self _ _))⟩
      rcases List.mem_append.mp ha with ha | ha
      · exact List.mem_cons_of_mem _ (hflight a ha)
      · rw [List.mem_singleton.mp ha]
        exact List.mem_cons_self
    | @missed time now j permit rest started answer store hphase htime heq hnone =>
      obtain ⟨hplan, hspends, -⟩ := Disturbed.spends_claim hfaithful h.spends j.id now
      rw [heq] at hplan hspends
      have hnothing : StoreCall.handsOut s.queue.store (some (.claim j.id now)) = [] := by
        rw [Run.handsOut_claim heq]
        rcases answer with e | _ | job
        · rfl
        · rfl
        · exact absurd rfl (hnone job)
      rw [hnothing]
      exact ⟨horderly, fun p hp => h.calm p (hplan ▸ hp), hspends.mono (hsame fun _ ha => ha)⟩
    | completed hfound hdecide heq | refused hfound hdecide heq =>
      have ha := List.mem_of_find?_eq_some hfound
      obtain ⟨hplan, hspends⟩ := Disturbed.spends_complete hfaithful h.spends h.calm (hflight _ ha)
        (hsame (hretired _))
        ⟨_, (h.orderly.batch r hmem _ ha).1, rfl, _, _, _, _, hdecide⟩
      rw [heq] at hplan hspends
      exact ⟨horderly, fun p hp => h.calm p (hplan ▸ hp), hspends⟩

/-- **All claims are paid for.** -/
theorem Thrifty.length_claims_le (h : Thrifty l others bound s n) (rules : RunRules)
    {events : List Event} (hevents : ∀ e ∈ events, e.isRecovery = false) :
    n + (s.claims rules events).length ≤ bound := by
  induction events generalizing s n with
  | nil => exact h.spends.spent_le
  | cons e events ih =>
    cases e with
    | recover staleBefore now => cases hevents _ List.mem_cons_self
    | step i step =>
      have hrest := ih (h.step rules i step) fun e he => hevents e (List.mem_cons_of_mem _ he)
      rw [claims_cons, List.length_append]
      omega

/-- Runs at their start have spent nothing. -/
theorem thrifty_start {σ : Type} [Inventory σ] {past : List (Exchange σ)}
    (h : History Ledger.start past) {d : Disturbed σ} (hd : d.store = current Ledger.start past)
    (hcalm : d.IsCalm) {pool : Pool} (hpool : Loan.Exact l ⟨pool, others⟩)
    (deadlines : List (Option Nat)) :
    Thrifty l others (Inventory.allowance d.store) (start (d.journaled past) pool deadlines) 0 where
  orderly := orderly_start ⟨h, hd.symm⟩ hpool deadlines
  calm := hcalm
  spends := by
    rw [hd, inFlight_start]
    exact h.spends

end Thrifty

end System

/-! ## Claims over another store -/

section Maps

variable {σ τ : Type} [JobStore σ] [JobStore τ] {f : σ → τ} {rules : RunRules}

/-- Runs claim jobs one by one. -/
theorem System.call?_ne_claimDue (s : System σ) (e : Event) (now : Instant) (limit : Nat) :
    s.call? rules e ≠ some (.claimDue now limit) := by
  cases e with
  | recover => exact nofun
  | step i step =>
    cases hr : s.runs[i]? with
    | none =>
      rw [(apply_step_of_none rules hr step).1]
      exact nofun
    | some r =>
      obtain ⟨c, r', q', hmove, hcall, -⟩ := apply_step rules hr step
      rw [hcall]
      cases hmove <;> exact nofun

/-- **The same jobs are claimed** over a store that cannot be told from another one. -/
theorem StoreMap.claims (h : StoreMap f) (events : List Event) (s : System σ) :
    (s.map f).claims rules events = s.claims rules events := by
  induction events generalizing s with
  | nil => rfl
  | cons e events ih =>
    have hcall : (s.map f).call? rules e = s.call? rules e := rfl
    have hhands : StoreCall.handsOut (f s.queue.store) (s.call? rules e) =
        StoreCall.handsOut s.queue.store (s.call? rules e) := by
      cases hc : s.call? rules e with
      | none => rfl
      | some c =>
        cases c with
        | claim i now =>
          exact (Run.handsOut_claim (h.claim i now s.queue.store)).trans
            (Run.handsOut_claim rfl).symm
        | claimDue now limit => exact absurd hc (s.call?_ne_claimDue e now limit)
        | enqueue | dueJobs | complete | get | counts | deadLetters | recoverStale
          | purgeSucceeded => rfl
    rw [System.claims_cons, System.claims_cons, hcall, h.apply, ih]
    exact congrArg (· ++ _) hhands

end Maps

/-! ## All runs are over after a while -/

/-- **Runs that come to an end,** for a schedule that tells which event comes when. -/
structure Ends {σ : Type} [JobStore σ] (rules : RunRules) (bound total : Nat) (s : System σ)
    (schedule : Nat → Event) : Prop where
  /-- all runs together claim at most so many jobs -/
  claims : ∀ n, (s.claims rules ((List.range n).map schedule)).length ≤ bound
  /-- each pass of a run begins with a claim -/
  passes : ∀ n i r, (s.applyAll rules ((List.range n).map schedule)).runs[i]? = some r →
    r.passes ≤ (s.claimsBy rules i ((List.range n).map schedule)).length ∧ r.passes ≤ bound
  /-- a run makes at most so many steps -/
  steps : ∀ n i, i < s.runs.length →
    s.stepsOf rules i ((List.range n).map schedule) ≤ (total + 6) * bound + (total + 3)
  /-- a run that is not over has a step to make -/
  goesOn : ∀ n, ∀ r ∈ (s.applyAll rules ((List.range n).map schedule)).runs,
    r.isFinished = false → ∃ step, r.accepts step = true
  /-- a run that is let make its steps as long as it is not over returns -/
  returns : ∀ i, i < s.runs.length →
    (∀ n, (∃ r, (s.applyAll rules ((List.range n).map schedule)).runs[i]? = some r ∧
        r.isFinished = true) ∨
      ∃ k, n ≤ k ∧ (s.applyAll rules ((List.range k).map schedule)).accepts i (schedule k) = true) →
    ∃ n r, (s.applyAll rules ((List.range n).map schedule)).runs[i]? = some r ∧
      r.isFinished = true

namespace System

variable {σ : Type} [JobStore σ] {rules : RunRules}

/-- Steps are counted one after the other. -/
theorem stepsOf_append (i : Nat) (events later : List Event) (s : System σ) :
    s.stepsOf rules i (events ++ later) =
      s.stepsOf rules i events + (s.applyAll rules events).stepsOf rules i later := by
  induction events generalizing s with
  | nil => exact (Nat.zero_add _).symm
  | cons e events ih =>
    rw [List.cons_append, stepsOf, stepsOf, ih, Nat.add_assoc]
    rfl

/-- Runs neither come nor go. -/
theorem length_runs_applyAll (rules : RunRules) (events : List Event) (s : System σ) :
    (s.applyAll rules events).runs.length = s.runs.length := by
  have hsame := congrArg List.length (deadlines_applyAll rules events s)
  rwa [List.length_map, List.length_map] at hsame

/-- If a run makes its steps for ever, it makes any number of them. -/
theorem le_stepsOf {s : System σ} {schedule : Nat → Event} {i : Nat}
    (h : ∀ n, ∃ k, n ≤ k ∧
      (s.applyAll rules ((List.range k).map schedule)).accepts i (schedule k) = true) (m : Nat) :
    ∃ n, m ≤ s.stepsOf rules i ((List.range n).map schedule) := by
  induction m with
  | zero => exact ⟨0, Nat.zero_le _⟩
  | succ m ih =>
    obtain ⟨n, hn⟩ := ih
    obtain ⟨k, hk, haccepts⟩ := h n
    obtain ⟨c, rfl⟩ := Nat.exists_eq_add_of_le hk
    refine ⟨n + c + 1, ?_⟩
    have hbefore : s.stepsOf rules i ((List.range n).map schedule) ≤
        s.stepsOf rules i ((List.range (n + c)).map schedule) := by
      rw [List.range_add, List.map_append, stepsOf_append]
      exact Nat.le_add_right _ _
    rw [List.range_succ, List.map_append, stepsOf_append, List.map_singleton, stepsOf,
      if_pos haccepts]
    omega

/-- **Claims that are bounded bring the runs to an end.** -/
theorem ends_of_claims {bound : Nat} {d : σ} {pool : Pool} {deadlines : List (Option Nat)}
    {schedule : Nat → Event}
    (h : ∀ n,
      ((start d pool deadlines).claims rules ((List.range n).map schedule)).length ≤ bound) :
    Ends rules bound pool.limits.total (start d pool deadlines) schedule := by
  have hstart : ∀ {i : Nat}, i < (start d pool deadlines).runs.length →
      ∃ r, (start d pool deadlines).runs[i]? = some r ∧
        r.stepsLeft pool.limits.total = pool.limits.total + 3 ∧ r.passes + r.started = 0 := by
    intro i hi
    refine ⟨_, List.getElem?_eq_getElem hi, ?_⟩
    obtain ⟨deadline, -, hr⟩ := List.mem_map.mp (List.getElem_mem hi)
    rw [← hr]
    exact ⟨rfl, rfl⟩
  have hby : ∀ n i, ((start d pool deadlines).claimsBy rules i
      ((List.range n).map schedule)).length ≤ bound := fun n i =>
    (length_claimsBy_le i _ _).trans (h n)
  have hsteps : ∀ n i, i < (start d pool deadlines).runs.length →
      (start d pool deadlines).stepsOf rules i ((List.range n).map schedule) ≤
        (pool.limits.total + 6) * bound + (pool.limits.total + 3) := by
    intro n i hi
    obtain ⟨r, hr, hleft, -⟩ := hstart hi
    obtain ⟨r', -, hsteps, -⟩ :=
      stepsLeft_applyAll rules ((List.range n).map schedule) rfl hr
    have hclaims := Nat.mul_le_mul_left (pool.limits.total + 6) (hby n i)
    change _ ≤ r.stepsLeft pool.limits.total + (pool.limits.total + 6) * _ at hsteps
    change r'.stepsLeft pool.limits.total + _ ≤ _ at hsteps
    omega
  refine ⟨h, fun n i r hr => ?_, hsteps, fun n r _ hr => Run.exists_accepts hr,
    fun i hi hfair => ?_⟩
  · have hi : i < (start d pool deadlines).runs.length := by
      rw [← length_runs_applyAll rules ((List.range n).map schedule)]
      exact (List.getElem?_eq_some_iff.mp hr).1
    obtain ⟨r₀, hr₀, -, hnone⟩ := hstart hi
    obtain ⟨r', hr', -, hpasses⟩ :=
      stepsLeft_applyAll rules ((List.range n).map schedule) rfl hr₀
    obtain rfl := Option.some.inj (hr'.symm.trans hr)
    have hle := hby n i
    exact ⟨by omega, by omega⟩
  · refine Classical.byContradiction fun hnever => ?_
    have hgoes : ∀ n, ∃ k, n ≤ k ∧ ((start d pool deadlines).applyAll rules
        ((List.range k).map schedule)).accepts i (schedule k) = true := fun n =>
      (hfair n).resolve_left fun ⟨r, hr, hover⟩ => hnever ⟨n, r, hr, hover⟩
    obtain ⟨n, hn⟩ := le_stepsOf hgoes
      ((pool.limits.total + 6) * bound + (pool.limits.total + 3) + 1)
    have hle := hsteps n i hi
    omega

/-- **Runs end** over every store that can be taken stock of, if nobody adds jobs or takes them
back. -/
theorem ends {σ : Type} [Inventory σ] {l : Limits} {others : List Permit}
    {past : List (Exchange σ)} (h : History Ledger.start past) {d : Disturbed σ}
    (hd : d.store = current Ledger.start past) (hcalm : d.IsCalm) {pool : Pool}
    (hpool : Loan.Exact l ⟨pool, others⟩) (rules : RunRules) (deadlines : List (Option Nat))
    {schedule : Nat → Event} (hschedule : ∀ n, (schedule n).isRecovery = false) :
    Ends rules (Inventory.allowance d.store) pool.limits.total (start d pool deadlines)
      schedule := by
  refine ends_of_claims fun n => ?_
  have hevents : ∀ e ∈ (List.range n).map schedule, e.isRecovery = false := by
    intro e he
    obtain ⟨k, -, rfl⟩ := List.mem_map.mp he
    exact hschedule k
  have hclaims := (thrifty_start h hd hcalm hpool deadlines).length_claims_le rules hevents
  rw [← storeMap_store.disturbed.claims, Nat.zero_add] at hclaims
  exact hclaims

end System

/-! ## Both stores -/

/-- **In both stores runs come to an end:** they claim no more jobs than the waiting jobs allow,
whatever the clock shows, whatever attempts come to, and whatever goes wrong with the store, if
nobody else adds jobs or takes them back. -/
theorem runs_end (l : Limits) (others : List Permit) (pool : Pool)
    (hpool : Loan.Exact l ⟨pool, others⟩) (rules : RunRules) (deadlines : List (Option Nat))
    (schedule : Nat → Event) (hschedule : ∀ n, (schedule n).isRecovery = false) :
    (∀ (past : List (Exchange Memory)) (d : Disturbed Memory), History Memory.empty past →
      d.store = current .empty past → d.IsCalm →
      Ends rules (Inventory.allowance d.store) pool.limits.total (System.start d pool deadlines)
        schedule) ∧
    (∀ (past : List (Exchange Table)) (d : Disturbed Table), History Table.empty past →
      d.store = current .empty past → d.IsCalm →
      Ends rules (Inventory.allowance d.store) pool.limits.total (System.start d pool deadlines)
        schedule) :=
  ⟨fun _ _ h hd hcalm => System.ends h hd hcalm hpool rules deadlines hschedule,
    fun _ _ h hd hcalm => System.ends h hd hcalm hpool rules deadlines hschedule⟩

/-- A run that claims one job and settles it; the completion may fail. -/
def onePass : List Event :=
  [.step 0 (.look 0 .epoch), .step 0 .allocate, .step 0 (.claim 0), .step 0 .launch,
    .step 0 (.settle ⟨NewJob.plain.id, 0⟩ (.success 1) .epoch (.zero false)), .step 0 .release,
    .step 0 .join, .step 0 (.look 0 .epoch)]

/-- A store whose only job is the plain one, and that fails when the job is to be completed. -/
def Ledger.failingQueue (σ : Type) [Ledger σ] : Disturbed σ where
  store := current start (plainPast σ)
  plan := [⟨.complete, 0, .fail⟩]

/-- A run ends after the one claim that the plain job allows, although the completion fails. -/
theorem failing_pass_ends :
    (Ends ⟨16, .usual⟩ (Inventory.allowance (Ledger.failingQueue Memory).store) 4
        (System.start (Ledger.failingQueue Memory) {} [none])
        (fun n => onePass.getD n (.step 0 .join)) ∧
      Inventory.allowance (Ledger.failingQueue Memory).store = 1 ∧
      ((System.start (Ledger.failingQueue Memory) {} [none]).applyAll ⟨16, .usual⟩
        onePass).runs.map Run.isFinished = [true]) ∧
    (Ends ⟨16, .usual⟩ (Inventory.allowance (Ledger.failingQueue Table).store) 4
        (System.start (Ledger.failingQueue Table) {} [none])
        (fun n => onePass.getD n (.step 0 .join)) ∧
      Inventory.allowance (Ledger.failingQueue Table).store = 1 ∧
      ((System.start (Ledger.failingQueue Table) {} [none]).applyAll ⟨16, .usual⟩
        onePass).runs.map Run.isFinished = [true]) := by
  have hpool : Loan.Exact {} ⟨{}, []⟩ := Loan.exact_of_unused rfl rfl
  have hmemory : History Memory.empty (Ledger.plainPast Memory) :=
    .step .nil (.enqueue .plain) ⟨List.not_mem_nil, by decide⟩
  have htable : History Table.empty (Ledger.plainPast Table) :=
    .step .nil (.enqueue .plain) ⟨List.not_mem_nil, by decide⟩
  have hsteps : ∀ n, (onePass.getD n (.step 0 .join)).isRecovery = false := by
    intro n
    rw [List.getD_eq_getElem?_getD]
    cases h : onePass[n]? with
    | none => rfl
    | some e =>
      have hall : ∀ e ∈ onePass, e.isRecovery = false := by decide
      exact hall e (List.mem_of_getElem? h)
  obtain ⟨inMemory, inTable⟩ := runs_end {} [] {} hpool ⟨16, .usual⟩ [none] _ hsteps
  exact ⟨⟨inMemory _ (Ledger.failingQueue Memory) hmemory rfl (by decide), by decide +kernel,
      by decide +kernel⟩,
    ⟨inTable _ (Ledger.failingQueue Table) htable rfl (by decide), by decide +kernel,
      by decide +kernel⟩⟩

end SyncJobs
