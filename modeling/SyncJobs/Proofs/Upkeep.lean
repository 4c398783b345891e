import SyncJobs.Proofs.Passes
import SyncJobs.Proofs.Underway

/-!
# What runs look after

Runs share a store and a pool, over a store in any state. At every moment the pool counts exactly
the permits that the runs hold, attempts in flight have different receipts and nobody has completed
them, and every job that a run has claimed is in flight in that run or concluded (`Attended`).

A move of a run does one of three things to its batch (`Run.Move.batch_cases`): it begins an
attempt, settles one, or neither. A claim begins an attempt under a receipt that is new to the
store, which is why receipts stay different; and since they are different, nobody but its own run
completes an attempt.
-/

namespace SyncJobs

open JobStore

/-! ## Moves -/

namespace Run

variable {σ : Type} [JobStore σ] {rules : RunRules} {r r' : Run} {q q' : Queue σ} {step : Step}
  {c : Option StoreCall}

/-- **Every move accounts for its permits:** those that a run takes it holds, and those that it does
not hold any more have gone back. -/
theorem Move.loan {l : Limits} {others : List Permit} (h : r.Move rules q step c r' q')
    (hdistinct : (r.batch.map fun a => a.job.receipt).Nodup)
    (hloan : Loan.Exact l ⟨q.pool, r.permits ++ others⟩) :
    Loan.Exact l ⟨q'.pool, r'.permits ++ others⟩ := by
  have hsame : r.granted = [] → r'.granted = [] → r'.batch = r.batch → r'.leaving = r.leaving →
      Loan.Exact l ⟨q.pool, r'.permits ++ others⟩ := by
    intro hnone hnone' hbatch hleaving
    rwa [permits_eq, hnone', hbatch, hleaving, ← hnone, ← permits_eq]
  have hretire : ∀ {receipt : Receipt} {a : Attempt},
      r.batch.find? (fun a => a.job.receipt = receipt) = some a →
        r.permits.Perm (r.retire a).permits := by
    intro receipt a hfound
    have hbatch := (batch_perm hdistinct (List.mem_of_find?_eq_some hfound)).map Attempt.permit
    rw [permits_eq, permits_eq, List.append_assoc, List.append_assoc]
    refine List.Perm.append_left _ ((hbatch.append_right _).trans ?_)
    rw [List.map_cons, List.cons_append, retire, ← List.append_assoc]
    exact (List.perm_append_singleton _ _).symm
  cases h with
  | ignored => exact hloan
  | closed hphase | unreadable hphase | nothingDue hphase | looked hphase | ended hphase
    | launched hphase | joined hphase =>
    refine hsame ?_ rfl rfl rfl
    rw [Run.granted, hphase]
  | @granted now candidates hphase =>
    have hnone : r.granted = [] := by rw [Run.granted, hphase]
    refine (hloan.grant (q.pool.fairness.arrange candidates)).perm ?_
    refine List.perm_append_comm.trans ?_
    rw [permits_eq, permits_eq, hnone]
    simp only [List.map_nil, List.nil_append, List.append_assoc]
    exact .refl _
  | gaveUp hphase =>
    refine hloan.releaseAll ?_
    rw [permits_eq, permits_eq, granted_of_claiming hphase, List.append_assoc, List.append_assoc,
      List.append_assoc]
    exact .refl _
  | claimed hphase =>
    refine hloan.perm (.append_right _ ?_)
    rw [permits_eq, permits_eq, granted_of_claiming hphase, Run.granted, List.map_append,
      List.map_cons]
    refine List.Perm.append_right _ ?_
    rw [List.cons_append, List.map_singleton, ← List.append_assoc]
    exact (List.perm_append_singleton _ _).symm
  | missed hphase =>
    refine hloan.release ?_
    rw [permits_eq, permits_eq, granted_of_claiming hphase]
    exact .refl _
  | lost hfound | brokeDown hfound | completed hfound | refused hfound =>
    exact hloan.perm ((hretire hfound).append_right _)
  | released hleaving =>
    refine hloan.release ?_
    rw [permits_eq, permits_eq, hleaving]
    exact List.perm_middle.append_right _

/-- **What a move does to the batch:** it begins an attempt at a job that is handed out to the run,
or settles an attempt with a decision on its job, or loses one, or does none of this. -/
theorem Move.batch_cases (h : r.Move rules q step c r' q') :
    (r'.batch = r.batch ∧ StoreCall.handsOut q.store c = [] ∧
      ∀ receipt d now, c ≠ some (.complete receipt d now)) ∨
    (∃ i now a, c = some (.claim i now) ∧ StoreCall.handsOut q.store c = [a.job] ∧
      r'.batch = r.batch ++ [a]) ∨
    ∃ a ∈ r.batch, r'.batch = (r.retire a).batch ∧
      ((∃ receipt outcome finished sample, step = .settle receipt outcome finished sample ∧
          a.job.decide? rules.backoff outcome finished sample = none) ∨
        (∃ receipt, step = .lose receipt) ∨
        ∃ d now, c = some (.complete a.job.receipt d now) ∧ a.job.MayDecide d) := by
  cases h with
  | ignored | closed | unreadable | nothingDue | looked | granted | gaveUp | ended | launched
    | released | joined =>
    refine .inl ⟨rfl, rfl, fun _ _ _ hc => ?_⟩
    cases hc
  | claimed hphase htime hclaim => exact .inr (.inl ⟨_, _, _, rfl, handsOut_claimed hclaim, rfl⟩)
  | @missed _ _ _ _ _ _ answer _ _ _ hclaim hnone =>
    refine .inl ⟨rfl, ?_, fun _ _ _ hc => ?_⟩
    · rw [handsOut_claim hclaim]
      rcases answer with e | _ | job
      · rfl
      · rfl
      · exact absurd rfl (hnone job)
    · cases hc
  | lost hfound hdecide =>
    exact .inr (.inr ⟨_, List.mem_of_find?_eq_some hfound, rfl, .inl ⟨_, _, _, _, rfl, hdecide⟩⟩)
  | brokeDown hfound =>
    exact .inr (.inr ⟨_, List.mem_of_find?_eq_some hfound, rfl, .inr (.inl ⟨_, rfl⟩)⟩)
  | completed hfound hdecide | refused hfound hdecide =>
    exact .inr (.inr ⟨_, List.mem_of_find?_eq_some hfound, rfl,
      .inr (.inr ⟨_, _, rfl, _, _, _, _, hdecide⟩)⟩)

end Run

/-- Decisions leave room for one more attempt if the job waits again. -/
theorem Job.MayDecide.countable {j : Job} {d : Decision} (h : j.MayDecide d) (now : Instant) :
    (StoreCall.complete j.receipt d now).Countable := by
  intro hnext
  have hlt := h.permits hnext
  have hmax := j.maxAttempts.toNat_lt
  show j.attempts.toNat + 1 < 2 ^ 32
  omega

/-! ## What runs look after -/

section Attended

variable {σ : Type} [JobStore σ]

/-- **Nobody has completed the attempt:** it is underway, or a recovery has taken it back. -/
def Awaits (log : List (Event × Exchange (Disturbed σ))) (s : σ) (r : Receipt) : Prop :=
  Underway s r ∨ Over s r ∧ ∃ x ∈ log, x.2.TakesBack r

/-- **What became of a claimed job:** the run with the number has offered it for completion. If that
was answered with a job, the attempt is over, and if it failed, nobody has completed it. -/
def Concluded (log : List (Event × Exchange (Disturbed σ))) (i : Nat) (j : Job) (s : σ) : Prop :=
  ∃ x ∈ log, x.1.isOf i ∧ (∃ d now, x.2.call = .complete j.receipt d now) ∧
    ((x.2.Completes j.receipt ∧ Over s j.receipt) ∨
      ((∃ e, x.2.answer = .error e) ∧ Awaits log s j.receipt))

variable {log : List (Event × Exchange (Disturbed σ))} {s : σ} {r : Receipt}

/-- The attempt is known to the store. -/
theorem Awaits.stands (h : Awaits log s r) : Underway s r ∨ Over s r := h.imp_right And.left

theorem Concluded.stands {i : Nat} {j : Job} (h : Concluded log i j s) :
    Underway s j.receipt ∨ Over s j.receipt := by
  obtain ⟨-, -, -, -, ⟨-, hover⟩ | ⟨-, hawaits⟩⟩ := h
  · exact .inr hover
  · exact hawaits.stands

/-- **What the runs of a system look after,** if `others` are permits that are out elsewhere. -/
structure Attended (l : Limits) (others : List Permit)
    (log : List (Event × Exchange (Disturbed σ))) (s : System (Disturbed σ)) : Prop where
  loan : Loan.Exact l ⟨s.queue.pool, s.runs.flatMap Run.permits ++ others⟩
  distinct : (s.inFlight.map fun a => a.job.receipt).Nodup
  awaits : ∀ a ∈ s.inFlight, Awaits log s.queue.store.store a.job.receipt
  /-- a claimed job is in flight in its run, or concluded -/
  claims : ∀ i, ∀ x ∈ log, x.1.isOf i → ∀ j ∈ x.2.handedOut,
    (∃ r, s.runs[i]? = some r ∧ j ∈ r.batch.map Attempt.job) ∨
      (∀ a ∈ s.inFlight, a.job.receipt ≠ j.receipt) ∧ Concluded log i j s.queue.store.store

end Attended

/-! ## What calls leave of it -/

section Calls

variable {σ : Type} [Custodian σ] {log : List (Event × Exchange (Disturbed σ))} {d : Disturbed σ}
  {c : Option StoreCall} {r : Receipt}

/-- What a call adds to a log, if one is made. -/
def StoreCall.entry (e : Event) (d : Disturbed σ) (c : Option StoreCall) :
    List (Event × Exchange (Disturbed σ)) :=
  (c.map fun c => (e, ⟨d, c⟩)).toList

/-- The store after a call, if one is made. -/
def StoreCall.leaves (d : Disturbed σ) (c : Option StoreCall) : Disturbed σ :=
  c.elim d fun c => (c.run d).2

/-- Whether attempts go on through a call, if one is made. -/
def StoreCall.Sound (c : Option StoreCall) : Prop :=
  ∀ x ∈ c, (x.isOfRuns ∨ x.isRecovery) ∧ x.Countable

/-- Only a completion completes an attempt. -/
theorem StoreCall.not_completes (h : ∀ receipt d now, c ≠ some (.complete receipt d now)) :
    ∀ x ∈ c, ¬ (Exchange.mk d x).Completes r := by
  rintro _ hx ⟨_, _, _, rfl, -⟩
  exact h _ _ _ hx

theorem over_next (h : Over d.store r) (hc : StoreCall.Sound c) :
    Over (StoreCall.leaves d c).store r := by
  cases c with
  | none => exact h
  | some x =>
    obtain ⟨hcall, hcountable⟩ := hc x rfl
    exact (Exchange.goes_on (e := ⟨d, x⟩) hcall hcountable r).ended h

/-- Nobody has completed an attempt, unless the call does. -/
theorem Awaits.next (h : Awaits log d.store r) (hc : StoreCall.Sound c) (e : Event)
    (hopen : ∀ x ∈ c, ¬ (Exchange.mk d x).Completes r) :
    Awaits (log ++ StoreCall.entry e d c) (StoreCall.leaves d c).store r := by
  cases c with
  | none => rwa [StoreCall.entry, Option.map_none, Option.toList_none, List.append_nil]
  | some x =>
    obtain ⟨hcall, hcountable⟩ := hc x rfl
    have hgoes := Exchange.goes_on (e := ⟨d, x⟩) hcall hcountable r
    rcases h with hunderway | ⟨hover, y, hy, hback⟩
    · refine (hgoes.underway hunderway).imp_right fun ⟨hover, hended⟩ =>
        ⟨hover, (e, ⟨d, x⟩), ?_, ?_⟩
      · exact List.mem_append_right _ (List.mem_singleton_self _)
      · exact hended.resolve_left (hopen x rfl)
    · exact .inr ⟨hgoes.ended hover, y, List.mem_append_left _ hy, hback⟩

/-- What is concluded stays so, unless the call completes it once more. -/
theorem Concluded.next {i : Nat} {j : Job} (h : Concluded log i j d.store) (hc : StoreCall.Sound c)
    (e : Event) (hopen : ∀ x ∈ c, ¬ (Exchange.mk d x).Completes j.receipt) :
    Concluded (log ++ StoreCall.entry e d c) i j (StoreCall.leaves d c).store := by
  obtain ⟨x, hx, hi, hcall, hended⟩ := h
  refine ⟨x, List.mem_append_left _ hx, hi, hcall, hended.imp ?_ ?_⟩
  · exact fun ⟨hcompletes, hover⟩ => ⟨hcompletes, over_next hover hc⟩
  · exact fun ⟨hfails, hawaits⟩ => ⟨hfails, hawaits.next hc e hopen⟩

/-- **An attempt that is offered for completion** is concluded. -/
theorem Awaits.concluded {i : Nat} {j : Job} (h : Awaits log d.store j.receipt) {e : Event}
    (he : e.isOf i) {decision : Decision} {now : Instant}
    (hcountable : (StoreCall.complete j.receipt decision now).Countable) :
    Concluded (log ++ StoreCall.entry e d (some (.complete j.receipt decision now))) i j
      (StoreCall.leaves d (some (.complete j.receipt decision now))).store := by
  refine ⟨(e, ⟨d, .complete j.receipt decision now⟩),
    List.mem_append_right _ (List.mem_singleton_self _), he, ⟨_, _, rfl⟩, ?_⟩
  by_cases hcompletes : (Exchange.mk d (.complete j.receipt decision now)).Completes j.receipt
  · exact .inl ⟨hcompletes, hcompletes.ended hcountable h.stands⟩
  · refine .inr ⟨?_, h.next (fun x hx => ?_) e fun x hx => ?_⟩
    · rcases hanswer : (JobStore.complete j.receipt decision now d).1 with e | k
      · exact ⟨e, Exchange.answer_complete_eq_error_iff.mpr hanswer⟩
      · exact absurd ⟨decision, now, k, rfl, Exchange.answer_complete_eq_ok_iff.mpr hanswer⟩
          hcompletes
    · obtain rfl := Option.some.inj hx
      exact ⟨.inl rfl, hcountable⟩
    · obtain rfl := Option.some.inj hx
      exact hcompletes

end Calls

/-! ## Moves of one run among others -/

/-- A run and the other runs, or any item of a list and the others. -/
theorem flatMap_perm_of_getElem? {α β : Type} {runs : List β} {i : Nat} {r : β}
    (h : runs[i]? = some r) (f : β → List α) :
    (runs.flatMap f).Perm (f r ++ (runs.eraseIdx i).flatMap f) := by
  obtain ⟨hi, rfl⟩ := List.getElem?_eq_some_iff.mp h
  exact (List.getElem_cons_eraseIdx_perm hi).symm.flatMap_right f

/-- The same after the run has moved. -/
theorem flatMap_set_perm {α β : Type} {runs : List β} {i : Nat} {r r' : β}
    (h : runs[i]? = some r) (f : β → List α) :
    ((runs.set i r').flatMap f).Perm (f r' ++ (runs.eraseIdx i).flatMap f) := by
  have hset : (runs.set i r')[i]? = some r' :=
    List.getElem?_set_self (List.getElem?_eq_some_iff.mp h).1
  have hperm := flatMap_perm_of_getElem? hset f
  rwa [List.eraseIdx_set_eq] at hperm

/-- The calls of runs let attempts go on. -/
theorem Run.Move.sound {σ : Type} [JobStore σ] {rules : RunRules} {r r' : Run} {q q' : Queue σ}
    {step : Step} {c : Option StoreCall} (h : r.Move rules q step c r' q') :
    StoreCall.Sound c := by
  intro x hx
  obtain rfl : c = some x := hx
  refine ⟨.inl h.isOfRuns, ?_⟩
  cases h with
  | unreadable | nothingDue | looked | claimed | missed => trivial
  | completed hfound hdecide | refused hfound hdecide =>
    exact Job.MayDecide.countable ⟨_, _, _, _, hdecide⟩ _

/-- The step of a run is a step of that run only. -/
theorem eq_of_isOf_step {i k : Nat} {step : Step} (h : (Event.step i step).isOf k) : k = i :=
  (of_decide_eq_true h).symm

namespace Attended

section Steps

variable {σ : Type} [Custodian σ] {rules : RunRules} {l : Limits} {others : List Permit}
  {log : List (Event × Exchange (Disturbed σ))} {s : System (Disturbed σ)} {i : Nat} {r r' : Run}
  {q' : Queue (Disturbed σ)} {step : Step} {c : Option StoreCall}

/-- The attempts of one run have different receipts. -/
theorem distinct_batch (h : Attended l others log s) (hr : s.runs[i]? = some r) :
    (r.batch.map fun a => a.job.receipt).Nodup := by
  have hdistinct := ((flatMap_perm_of_getElem? hr Run.batch).map _).nodup_iff.mp h.distinct
  rw [List.map_append] at hdistinct
  exact (List.nodup_append.mp hdistinct).1

/-- The permits stay accounted for when a run moves. -/
theorem loan_move (h : Attended l others log s) (hr : s.runs[i]? = some r)
    (hmove : r.Move rules s.queue step c r' q') :
    Loan.Exact l ⟨q'.pool, (s.runs.set i r').flatMap Run.permits ++ others⟩ := by
  have hloan := h.loan.perm ((flatMap_perm_of_getElem? hr Run.permits).append_right others)
  rw [List.append_assoc] at hloan
  have hmoved := hmove.loan (h.distinct_batch hr) hloan
  rw [← List.append_assoc] at hmoved
  exact hmoved.perm ((flatMap_set_perm hr Run.permits).symm.append_right others)

/-- Claimed jobs stay in flight or concluded, if those of the run that moves do. -/
theorem claims_move (h : Attended l others log s) (hr : s.runs[i]? = some r) {e : Event}
    (he : ∀ k, e.isOf k → k = i) {s' : System (Disturbed σ)} (hruns : s'.runs = s.runs.set i r')
    (hbatch : ∀ j ∈ r.batch.map Attempt.job, j ∈ r'.batch.map Attempt.job ∨
      (∀ a ∈ s'.inFlight, a.job.receipt ≠ j.receipt) ∧
        Concluded (log ++ StoreCall.entry e s.queue.store c) i j s'.queue.store.store)
    (hconcluded : ∀ k j, (∀ a ∈ s.inFlight, a.job.receipt ≠ j.receipt) →
      Concluded log k j s.queue.store.store →
        (∀ a ∈ s'.inFlight, a.job.receipt ≠ j.receipt) ∧
          Concluded (log ++ StoreCall.entry e s.queue.store c) k j s'.queue.store.store)
    (hclaimed : ∀ j ∈ StoreCall.handsOut s.queue.store c, j ∈ r'.batch.map Attempt.job) :
    ∀ k, ∀ x ∈ log ++ StoreCall.entry e s.queue.store c, x.1.isOf k → ∀ j ∈ x.2.handedOut,
      (∃ r, s'.runs[k]? = some r ∧ j ∈ r.batch.map Attempt.job) ∨
        (∀ a ∈ s'.inFlight, a.job.receipt ≠ j.receipt) ∧
          Concluded (log ++ StoreCall.entry e s.queue.store c) k j s'.queue.store.store := by
  have hself : s'.runs[i]? = some r' := by
    rw [hruns, List.getElem?_set_self (List.getElem?_eq_some_iff.mp hr).1]
  intro k x hx hk j hj
  rcases List.mem_append.mp hx with hx | hx
  · obtain ⟨r₁, hr₁, hj⟩ | ⟨hflight, hended⟩ := h.claims k x hx hk j hj
    · by_cases hki : k = i
      · subst hki
        obtain rfl := Option.some.inj (hr.symm.trans hr₁)
        exact (hbatch j hj).imp_left fun hj => ⟨r', hself, hj⟩
      · refine .inl ⟨r₁, ?_, hj⟩
        rwa [hruns, List.getElem?_set_ne (Ne.symm hki)]
    · exact .inr (hconcluded k j hflight hended)
  · obtain ⟨y, rfl, rfl⟩ := Option.map_eq_some_iff.mp (Option.mem_toList.mp hx)
    obtain rfl := he k hk
    refine .inl ⟨r', hself, hclaimed j ?_⟩
    exact List.mem_flatMap.mpr ⟨_, List.mem_singleton_self _, hj⟩

/-- **A move that neither begins nor settles an attempt** is attended to. -/
theorem passes_by (h : Attended l others log s) (hr : s.runs[i]? = some r)
    (hmove : r.Move rules s.queue step c r' q') (hbatch : r'.batch = r.batch)
    (hnothing : StoreCall.handsOut s.queue.store c = [])
    (hquiet : ∀ receipt d now, c ≠ some (.complete receipt d now)) :
    Attended l others (log ++ StoreCall.entry (.step i step) s.queue.store c)
      ⟨q', s.runs.set i r'⟩ := by
  have hstore : q'.store = StoreCall.leaves s.queue.store c := hmove.store
  have hsame : (System.mk q' (s.runs.set i r')).inFlight.Perm s.inFlight := by
    refine (flatMap_set_perm hr Run.batch).trans ?_
    rw [hbatch]
    exact (flatMap_perm_of_getElem? hr Run.batch).symm
  refine ⟨h.loan_move hr hmove, ((hsame.map _).nodup_iff).mpr h.distinct, fun a ha => ?_,
    h.claims_move hr (fun _ => eq_of_isOf_step) rfl (fun j hj => .inl (hbatch ▸ hj))
      (fun k j hflight hended => ?_) ?_⟩
  · show Awaits _ q'.store.store _
    rw [hstore]
    exact (h.awaits a (hsame.subset ha)).next hmove.sound _ (StoreCall.not_completes hquiet)
  · refine ⟨fun a ha => hflight a (hsame.subset ha), ?_⟩
    show Concluded _ k j q'.store.store
    rw [hstore]
    exact hended.next hmove.sound _ (StoreCall.not_completes hquiet)
  · rw [hnothing]
    exact fun _ hj => absurd hj List.not_mem_nil

/-- **A claim that begins an attempt** is attended to: its receipt is new to the store. -/
theorem begins (h : Attended l others log s) (hr : s.runs[i]? = some r) {id : JobId}
    {now : Instant} {a : Attempt} (hmove : r.Move rules s.queue step (some (.claim id now)) r' q')
    (hhands : StoreCall.handsOut s.queue.store (some (.claim id now)) = [a.job])
    (hbatch : r'.batch = r.batch ++ [a]) :
    Attended l others
      (log ++ StoreCall.entry (.step i step) s.queue.store (some (.claim id now)))
      ⟨q', s.runs.set i r'⟩ := by
  have hstore : q'.store = StoreCall.leaves s.queue.store (some (.claim id now)) := hmove.store
  obtain ⟨hbegins, hnew, hnew'⟩ := Disturbed.begins_of_mem_handsOut
    (hhands ▸ List.mem_singleton_self a.job)
  have hfresh : ∀ receipt, Underway s.queue.store.store receipt ∨
      Over s.queue.store.store receipt → a.job.receipt ≠ receipt := by
    rintro receipt hstands rfl
    exact hstands.elim hnew hnew'
  have hperm : (System.mk q' (s.runs.set i r')).inFlight.Perm (a :: s.inFlight) := by
    refine (flatMap_set_perm hr Run.batch).trans (.trans ?_
      ((flatMap_perm_of_getElem? hr Run.batch).symm.cons a))
    rw [hbatch, List.append_assoc]
    exact List.perm_middle
  have hquiet : ∀ receipt d t, some (StoreCall.claim id now) ≠ some (.complete receipt d t) :=
    fun _ _ _ hcall => by cases hcall
  refine ⟨h.loan_move hr hmove, ?_, fun b hb => ?_, h.claims_move hr (fun _ => eq_of_isOf_step) rfl
    (fun j hj => .inl ?_) (fun k j hflight hended => ⟨fun b hb => ?_, ?_⟩) ?_⟩
  · refine ((hperm.map _).nodup_iff).mpr (List.nodup_cons.mpr ⟨fun hmem => ?_, h.distinct⟩)
    obtain ⟨b, hb, hreceipt⟩ := List.mem_map.mp hmem
    exact hfresh _ (h.awaits b hb).stands hreceipt.symm
  · show Awaits _ q'.store.store _
    rw [hstore]
    rcases List.mem_cons.mp (hperm.subset hb) with rfl | hb
    · exact .inl hbegins
    · exact (h.awaits b hb).next hmove.sound _ (StoreCall.not_completes hquiet)
  · rw [hbatch, List.map_append]
    exact List.mem_append_left _ hj
  · rcases List.mem_cons.mp (hperm.subset hb) with rfl | hb
    · exact hfresh _ hended.stands
    · exact hflight b hb
  · show Concluded _ k j q'.store.store
    rw [hstore]
    exact hended.next hmove.sound _ (StoreCall.not_completes hquiet)
  · rw [hhands, hbatch, List.map_append]
    exact fun j hj => List.mem_append_right _ hj

/-- **A completion that settles an attempt** is attended to: the job of the attempt is concluded. -/
theorem settles (h : Attended l others log s) (hr : s.runs[i]? = some r) {a : Attempt}
    (ha : a ∈ r.batch) {d : Decision} {now : Instant} (hdecision : a.job.MayDecide d)
    (hmove : r.Move rules s.queue step (some (.complete a.job.receipt d now)) r' q')
    (hbatch : r'.batch = (r.retire a).batch) :
    Attended l others
      (log ++ StoreCall.entry (.step i step) s.queue.store
        (some (.complete a.job.receipt d now))) ⟨q', s.runs.set i r'⟩ := by
  have hstore : q'.store =
      StoreCall.leaves s.queue.store (some (.complete a.job.receipt d now)) := hmove.store
  have hretired := batch_perm (h.distinct_batch hr) ha
  have hperm : s.inFlight.Perm (a :: (System.mk q' (s.runs.set i r')).inFlight) := by
    have hnew : ((s.runs.set i r').flatMap Run.batch).Perm
        (r'.batch ++ (s.runs.eraseIdx i).flatMap Run.batch) := flatMap_set_perm hr Run.batch
    rw [hbatch] at hnew
    exact (flatMap_perm_of_getElem? hr Run.batch).trans
      ((hretired.append_right _).trans (hnew.symm.cons a))
  obtain ⟨hleft, hnodup⟩ := List.nodup_cons.mp (((hperm.map _).nodup_iff).mp h.distinct)
  have hin : a ∈ s.inFlight := hperm.symm.subset List.mem_cons_self
  have hold : ∀ b ∈ (System.mk q' (s.runs.set i r')).inFlight, b ∈ s.inFlight := fun b hb =>
    hperm.symm.subset (List.mem_cons_of_mem a hb)
  have hne : ∀ b ∈ (System.mk q' (s.runs.set i r')).inFlight,
      b.job.receipt ≠ a.job.receipt := fun b hb hsame => hleft (hsame ▸ List.mem_map_of_mem hb)
  have hopen : ∀ receipt, receipt ≠ a.job.receipt →
      ∀ x ∈ some (StoreCall.complete a.job.receipt d now),
        ¬ (Exchange.mk s.queue.store x).Completes receipt := by
    rintro receipt hreceipt x hx ⟨d', t, k, hcall, -⟩
    obtain rfl := Option.some.inj hx
    cases hcall
    exact hreceipt rfl
  refine ⟨h.loan_move hr hmove, hnodup, fun b hb => ?_, h.claims_move hr
    (fun _ => eq_of_isOf_step) rfl (fun j hj => ?_)
    (fun k j hflight hended => ⟨fun b hb => hflight b (hold b hb), ?_⟩) fun j hj => ?_⟩
  · show Awaits _ q'.store.store _
    rw [hstore]
    exact (h.awaits b (hold b hb)).next hmove.sound _ (hopen _ (hne b hb))
  · obtain ⟨b, hb, rfl⟩ := List.mem_map.mp hj
    by_cases hsame : b.job.receipt = a.job.receipt
    · refine .inr ⟨fun b' hb' => hsame ▸ hne b' hb', ?_⟩
      show Concluded _ i b.job q'.store.store
      have hself : (Event.step i step).isOf i := decide_eq_true rfl
      have hawaits := h.awaits a hin
      have hcountable := hdecision.countable now
      rw [hstore]
      rw [← hsame] at hawaits hcountable ⊢
      exact hawaits.concluded hself hcountable
    · refine .inl (List.mem_map_of_mem ?_)
      rw [hbatch, Run.retire]
      exact List.mem_filter.mpr ⟨hb, decide_eq_true hsame⟩
  · show Concluded _ k j q'.store.store
    rw [hstore]
    exact hended.next hmove.sound _ (hopen _ (hflight a hin).symm)
  · obtain ⟨x, hx, hj⟩ := List.mem_flatMap.mp hj
    obtain rfl := List.mem_singleton.mp hx
    obtain ⟨_, _, hcall⟩ | ⟨_, _, hcall⟩ := Exchange.claims_of_mem_handedOut hj <;> cases hcall

/-- **Every step of a run is attended to,** if there is a decision on each attempt that it ends. -/
theorem move (h : Attended l others log s) (hr : s.runs[i]? = some r)
    (hmove : r.Move rules s.queue step c r' q')
    (hdecided : ∀ receipt outcome finished sample,
      step = .settle receipt outcome finished sample →
        ∀ j : Job, j.decide? rules.backoff outcome finished sample ≠ none)
    (hkept : ∀ receipt, step ≠ .lose receipt) :
    Attended l others (log ++ StoreCall.entry (.step i step) s.queue.store c)
      ⟨q', s.runs.set i r'⟩ := by
  obtain ⟨hbatch, hnothing, hquiet⟩ | ⟨id, now, a, rfl, hhands, hbatch⟩ |
    ⟨a, ha, hbatch, ⟨_, _, _, _, hstep, hnone⟩ | ⟨_, hstep⟩ | ⟨d, now, rfl, hdecision⟩⟩ :=
    hmove.batch_cases
  · exact h.passes_by hr hmove hbatch hnothing hquiet
  · exact h.begins hr hmove hhands hbatch
  · exact absurd hnone (hdecided _ _ _ _ hstep a.job)
  · exact absurd hstep (hkept _)
  · exact h.settles hr ha hdecision hmove hbatch

/-- A recovery leaves the runs alone. -/
theorem recover (h : Attended l others log s) (staleBefore now : Instant) :
    Attended l others
      (log ++ StoreCall.entry (.recover staleBefore now) s.queue.store
        (some (.recoverStale staleBefore now)))
      (s.apply rules (.recover staleBefore now)) := by
  have hsound : StoreCall.Sound (some (.recoverStale staleBefore now)) := by
    rintro x hx
    obtain rfl := Option.some.inj hx
    exact ⟨.inr rfl, trivial⟩
  have hquiet : ∀ receipt d t,
      some (StoreCall.recoverStale staleBefore now) ≠ some (.complete receipt d t) :=
    fun _ _ _ hcall => by cases hcall
  refine ⟨h.loan, h.distinct,
    fun a ha => (h.awaits a ha).next hsound _ (StoreCall.not_completes hquiet),
    fun k x hx hk j hj => ?_⟩
  rcases List.mem_append.mp hx with hx | hx
  · refine (h.claims k x hx hk j hj).imp_right fun ⟨hflight, hended⟩ => ⟨hflight, ?_⟩
    exact hended.next hsound _ (StoreCall.not_completes hquiet)
  · obtain rfl := List.mem_singleton.mp hx
    cases hk

end Steps

end Attended

/-! ## Whatever happens -/

/-- With any sample that is a number, there is a decision on every attempt. -/
def RunRules.Decide (rules : RunRules) : Prop :=
  ∀ (j : Job) (outcome : Outcome) (now : Instant) (sample : Binary64), sample ≠ .nan →
    (j.decide? rules.backoff outcome now sample).isSome

/-- Whether an event that ends an attempt, if it does, leaves room for a decision: the sample is a
number, and the attempt has not broken down. -/
def Event.IsDecided : Event → Prop
  | .step _ (.settle _ _ _ sample) => sample ≠ .nan
  | .step _ (.lose _) => False
  | _ => True

section Events

variable {σ : Type} [Custodian σ] {rules : RunRules} {l : Limits} {others : List Permit}
  {log : List (Event × Exchange (Disturbed σ))} {s : System (Disturbed σ)}

/-- **Every event is attended to.** -/
theorem Attended.apply (h : Attended l others log s) (hrules : rules.Decide) {e : Event}
    (he : e.IsDecided) :
    Attended l others (log ++ StoreCall.entry e s.queue.store (s.call? rules e))
      (s.apply rules e) := by
  cases e with
  | recover staleBefore now => exact h.recover staleBefore now
  | step i step =>
    cases hr : s.runs[i]? with
    | none =>
      obtain ⟨hcall, happly⟩ := System.apply_step_of_none rules hr step
      rw [hcall, happly, StoreCall.entry, Option.map_none, Option.toList_none, List.append_nil]
      exact h
    | some r =>
      obtain ⟨c, r', q', hmove, hcall, happly⟩ := System.apply_step rules hr step
      rw [hcall, happly]
      refine h.move hr hmove ?_ ?_
      · rintro receipt outcome finished sample rfl j hnone
        have hsome := hrules j outcome finished sample he
        rw [hnone] at hsome
        cases hsome
      · rintro receipt rfl
        exact he

/-- **Whatever happens is attended to.** -/
theorem Attended.applyAll (h : Attended l others log s) (hrules : rules.Decide)
    {events : List Event} (hdecided : ∀ e ∈ events, e.IsDecided) :
    Attended l others (log ++ s.log rules events) (s.applyAll rules events) := by
  induction events generalizing log s with
  | nil =>
    rw [System.log, List.append_nil]
    exact h
  | cons e events ih =>
    obtain ⟨he, hevents⟩ := List.forall_mem_cons.mp hdecided
    rw [System.log, ← List.append_assoc]
    exact ih (h.apply hrules he) hevents

omit [Custodian σ] in
/-- Runs at their start have nothing to look after. -/
theorem attended_start [JobStore σ] {pool : Pool} (hpool : Loan.Exact l ⟨pool, others⟩)
    (d : Disturbed σ) (deadlines : List (Option Nat)) :
    Attended l others [] (System.start d pool deadlines) := by
  refine ⟨?_, ?_, ?_, fun _ _ hx => absurd hx List.not_mem_nil⟩
  · rw [System.permits_start]
    exact hpool
  · rw [System.inFlight_start]
    exact List.nodup_nil
  · rw [System.inFlight_start]
    exact fun _ ha => absurd ha List.not_mem_nil

end Events

end SyncJobs
