import SyncJobs.Proofs.Counting

/-!
# Attempts may end in any order

Attempts are in flight. Whichever of them ends first, each run counts the same in the end, if the
same attempts are completed (`Orderly.summary_perm`). What a run has to offer for an attempt is
known before any of them ends (`System.offers`), and it counts that exactly if the attempt is among
those that are completed.

If the completions to come are not disturbed, the same attempts are completed in every order
(`Orderly.completions_perm`): those whose jobs still run under their receipts. Attempts have
different receipts, and a completion leaves alone what runs under other receipts.
-/

namespace SyncJobs

/-! ## Completions that were answered -/

namespace Exchange

variable {σ : Type} [JobStore σ]

/-- The receipt of the attempt that was completed, if one was. -/
def completion? (e : Exchange σ) : Option Receipt :=
  match e.call with
  | .complete r d now => (JobStore.complete r d now e.before).1.toOption.map fun _ => r
  | _ => none

end Exchange

/-- The receipts of the attempts that a call completes, if one is made. -/
def StoreCall.completions {σ : Type} [JobStore σ] (s : σ) (c : Option StoreCall) : List Receipt :=
  (c.bind fun c => (Exchange.mk s c).completion?).toList

namespace System

variable {σ : Type} [JobStore σ]

/-- **The receipts of the attempts that some events complete.** -/
def completions (rules : RunRules) (events : List Event) (s : System σ) : List Receipt :=
  (s.log rules events).filterMap fun x => x.2.completion?

theorem completions_cons (rules : RunRules) (e : Event) (events : List Event) (s : System σ) :
    s.completions rules (e :: events) =
      StoreCall.completions s.queue.store (s.call? rules e) ++
        (s.apply rules e).completions rules events := by
  rw [completions, log, List.filterMap_append]
  cases s.call? rules e with
  | none => rfl
  | some c =>
    show List.filterMap _ [_] ++ _ = _
    rw [List.filterMap_cons, StoreCall.completions, Option.bind_some]
    cases (Exchange.mk s.queue.store c).completion? <;> rfl

end System

/-! ## Ends of attempts -/

/-- Whether an event is part of the end of an attempt: it is settled or lost, or its permit comes
back. -/
def Event.isEnding : Event → Bool
  | .step _ (.settle _ _ _ _) => true
  | .step _ (.lose _) => true
  | .step _ .release => true
  | _ => false

/-- The receipt of the attempt that an event settles or loses. -/
def Event.receipt? : Event → Option Receipt
  | .step _ (.settle receipt _ _ _) => some receipt
  | .step _ (.lose receipt) => some receipt
  | _ => none

/-- **What a run has to offer** for the attempt that an event settles. -/
def System.offers {σ : Type} (rules : RunRules) (e : Event) (s : System σ) : Summary :=
  match e with
  | .step i (.settle receipt outcome finished sample) =>
    ((s.runs[i]?.bind fun r => r.batch.find? fun a => a.job.receipt = receipt).bind fun a =>
      (a.job.decide? rules.backoff outcome finished sample).map
        (Summary.single a.job.domain)).getD 0
  | _ => 0

namespace Run

/-- An attempt that is found for a receipt has the receipt. -/
theorem receipt_of_find? {r : Run} {receipt : Receipt} {a : Attempt}
    (h : r.batch.find? (fun a => a.job.receipt = receipt) = some a) : a.job.receipt = receipt := by
  have hfound := List.find?_some h
  exact of_decide_eq_true hfound

/-- The other attempts of a batch are found as before. -/
theorem find?_retire {r : Run} {a : Attempt} {receipt : Receipt} (h : receipt ≠ a.job.receipt) :
    ((r.retire a).batch.find? fun b => b.job.receipt = receipt) =
      r.batch.find? fun b => b.job.receipt = receipt := by
  rw [retire, List.find?_filter]
  refine congrArg (List.find? · r.batch) (funext fun b => ?_)
  by_cases hb : b.job.receipt = receipt
  · simp [hb, h]
  · simp [hb]

/-- The end of an attempt leaves the others in their batch. -/
theorem Move.find?_batch {σ : Type} [JobStore σ] {rules : RunRules} {r r' : Run} {q q' : Queue σ}
    {i : Nat} {step : Step} {c : Option StoreCall} (h : r.Move rules q step c r' q')
    (he : (Event.step i step).isEnding) {receipt : Receipt}
    (hne : (Event.step i step).receipt? ≠ some receipt) :
    (r'.batch.find? fun a => a.job.receipt = receipt) =
      r.batch.find? fun a => a.job.receipt = receipt := by
  cases h with
  | ignored | released => rfl
  | lost hfound | brokeDown hfound | completed hfound | refused hfound =>
    refine find?_retire fun hsame => hne ?_
    rw [hsame]
    exact congrArg some (receipt_of_find? hfound).symm
  | closed | unreadable | nothingDue | looked | granted | gaveUp | claimed | missed | ended
    | launched | joined => cases he

end Run

namespace System

variable {σ : Type} [JobStore σ] {rules : RunRules} {s : System σ} {e f : Event}

/-- **The end of an attempt asks for its completion,** if it asks for anything. -/
theorem of_isEnding (he : e.isEnding) {c : StoreCall} (hc : s.call? rules e = some c) :
    ∃ d now, ∃ r ∈ s.runs, ∃ a ∈ r.batch, c = .complete a.job.receipt d now ∧
      a.job.MayDecide d ∧ e.receipt? = some a.job.receipt ∧
      s.offers rules e = .single a.job.domain d := by
  cases e with
  | recover => cases he
  | step i step =>
    cases hr : s.runs[i]? with
    | none =>
      rw [(apply_step_of_none rules hr step).1] at hc
      cases hc
    | some r =>
      obtain ⟨c', r', q', hmove, hcall, -⟩ := apply_step rules hr step
      obtain rfl := hcall.symm.trans hc
      cases hmove with
      | unreadable | nothingDue | looked | claimed | missed => cases he
      | completed hfound hdecide | refused hfound hdecide =>
        refine ⟨_, _, r, List.mem_of_getElem? hr, _, List.mem_of_find?_eq_some hfound, rfl,
          ⟨_, _, _, _, hdecide⟩, congrArg some (Run.receipt_of_find? hfound).symm, ?_⟩
        simp only [offers, hr, Option.bind_some, hfound, hdecide, Option.map_some,
          Option.getD_some]

/-- The end of an attempt changes nothing about the end of another one. -/
theorem end_apply (he : e.isEnding) (hf : f.isEnding)
    (hne : ∀ r, f.receipt? = some r → e.receipt? ≠ some r) :
    (s.apply rules e).call? rules f = s.call? rules f ∧
      (s.apply rules e).offers rules f = s.offers rules f := by
  cases e with
  | recover => cases he
  | step i step =>
    cases hr : s.runs[i]? with
    | none =>
      rw [(apply_step_of_none rules hr step).2]
      exact ⟨rfl, rfl⟩
    | some r =>
      obtain ⟨c, r', q', hmove, -, happly⟩ := apply_step rules hr step
      rw [happly]
      cases f with
      | recover => cases hf
      | step k step' =>
        by_cases hki : i = k
        · subst hki
          have hset : (s.runs.set i r')[i]? = some r' :=
            List.getElem?_set_self (List.getElem?_eq_some_iff.mp hr).1
          cases step' with
          | settle receipt outcome finished sample =>
            have hfound := hmove.find?_batch he (hne receipt rfl)
            refine ⟨?_, ?_⟩
            · simp only [call?, hset, hr, Option.bind_some]
              show (r'.batch.find? _).bind _ = (r.batch.find? _).bind _
              rw [hfound]
            · simp only [offers, hset, hr, Option.bind_some, hfound]
          | lose | release =>
            refine ⟨?_, rfl⟩
            simp only [call?, hset, hr, Option.bind_some]
            rfl
          | look | allocate | claim | launch | join => cases hf
        · have hset : (s.runs.set i r')[k]? = s.runs[k]? := List.getElem?_set_ne hki
          cases step' with
          | settle =>
            refine ⟨?_, by simp only [offers, hset]⟩
            simp only [call?, hset]
            rfl
          | lose | release =>
            refine ⟨?_, rfl⟩
            simp only [call?, hset]
            rfl
          | look | allocate | claim | launch | join => cases hf

/-- The end of an attempt completes no other attempt. -/
theorem receipt?_of_mem_completions (he : e.isEnding) {r : Receipt}
    (hr : r ∈ StoreCall.completions s.queue.store (s.call? rules e)) : e.receipt? = some r := by
  rw [StoreCall.completions, Option.mem_toList] at hr
  obtain ⟨c, hc, hr⟩ := Option.bind_eq_some_iff.mp hr
  obtain ⟨d, now, -, -, a, -, rfl, -, hreceipt, -⟩ := of_isEnding he hc
  obtain ⟨-, -, rfl⟩ := Option.map_eq_some_iff.mp hr
  exact hreceipt

/-- Only attempts that end are completed. -/
theorem exists_of_mem_completions {ends : List Event} (hends : ∀ e ∈ ends, e.isEnding)
    {r : Receipt} (hr : r ∈ s.completions rules ends) : ∃ e ∈ ends, e.receipt? = some r := by
  induction ends generalizing s with
  | nil => cases hr
  | cons e ends ih =>
    obtain ⟨he, hends⟩ := List.forall_mem_cons.mp hends
    rw [completions_cons, List.mem_append] at hr
    rcases hr with hr | hr
    · exact ⟨e, List.mem_cons_self, receipt?_of_mem_completions he hr⟩
    · obtain ⟨f, hf, hreceipt⟩ := ih hends hr
      exact ⟨f, List.mem_cons_of_mem _ hf, hreceipt⟩

end System

/-! ## Completions of a disturbed store -/

namespace Disturbed

variable {σ : Type}

/-- The store behind when a completion reaches it: somebody else may have taken the job back and
claimed it again, if that is planned. -/
def overtaken [JobStore σ] (r : Receipt) (now : Instant) (d : Disturbed σ) : σ :=
  match d.planned? .complete with
  | some .reclaim =>
    let later := now.add hour
    (JobStore.claim r.job later (JobStore.recoverStale later later d.store).2).2
  | _ => d.store

/-- **A completion fails at once, or reaches the store** as somebody else has left it. -/
theorem complete_eq [JobStore σ] (r : Receipt) (decision : Decision) (now : Instant)
    (d : Disturbed σ) :
    (d.overtaken r now = d.store ∧ ∃ e, JobStore.complete r decision now d =
      (.error e, { d with called := .complete :: d.called })) ∨
    JobStore.complete r decision now d =
      ((JobStore.complete r decision now (d.overtaken r now)).1,
        ⟨(JobStore.complete r decision now (d.overtaken r now)).2, d.plan,
          .complete :: d.called⟩) := by
  show (_ ∧ ∃ e, disturb .complete _ d = _) ∨ disturb .complete _ d = _
  simp only [disturb, overtaken]
  cases d.planned? .complete with
  | none => exact .inr rfl
  | some p =>
    cases p with
    | fail => exact .inl ⟨rfl, _, rfl⟩
    | lose | steal | reclaim => exact .inr rfl

variable [Ledger σ] {past : List (Exchange σ)} {d : Disturbed σ}

/-- What somebody else does before a completion makes a longer history. -/
theorem exists_overtaken (h : History Ledger.start past) (hd : d.store = current Ledger.start past)
    (r : Receipt) (now : Instant) :
    ∃ past', History Ledger.start past' ∧ d.overtaken r now = current Ledger.start past' ∧
      ∀ j ∈ handedOut past, j ∈ handedOut past' := by
  rw [overtaken]
  split
  · have hfirst := (h.step (.recoverStale (now.add hour) (now.add hour)) trivial).step
      (.claim r.job (now.add hour)) trivial
    refine ⟨_, hfirst, ?_, fun j hj => mem_handedOut_cons.mpr (.inr (mem_handedOut_cons.mpr
      (.inr hj)))⟩
    rw [hd]
    rfl
  · exact ⟨past, h, hd, fun _ hj => hj⟩

variable {r : Receipt} {decision : Decision} {now : Instant}

/-- **A completion that fails changes nothing,** whatever was done to the store before. -/
theorem store_of_refused (h : History Ledger.start past) (hd : d.store = current Ledger.start past)
    (hallowed : (StoreCall.complete r decision now).Allowed past) {e : StoreError}
    (hanswer : (JobStore.complete r decision now d).1 = .error e) :
    (JobStore.complete r decision now d).2.store = d.overtaken r now := by
  obtain ⟨hsame, e', hfails⟩ | hreaches := d.complete_eq r decision now
  · rw [hfails, hsame]
  · rw [hreaches] at hanswer ⊢
    obtain ⟨past', h', hcurrent, hhanded⟩ := exists_overtaken h hd r now
    obtain ⟨j, hj, hreceipt, hdecision⟩ := hallowed
    obtain ⟨m, hm⟩ := h'.tracks
    rw [hcurrent] at hanswer ⊢
    have hallowed : (StoreCall.complete r decision now).Allowed past' :=
      ⟨j, hhanded j hj, hreceipt, hdecision⟩
    obtain ⟨-, -, e', hcomplete⟩ | ⟨k, p, -, -, -, -, hok⟩ := hm.complete_cases hallowed
    · rw [hcomplete]
    · rw [hok] at hanswer
      cases hanswer

/-- **A completed job** has the domain of the job that was handed out for the attempt. -/
theorem domain_of_completed (h : History Ledger.start past)
    (hd : d.store = current Ledger.start past) {j : Job} (hj : j ∈ handedOut past)
    (hdecision : j.MayDecide decision) {k : Job}
    (hanswer : (JobStore.complete j.receipt decision now d).1 = .ok k) : k.domain = j.domain := by
  obtain ⟨-, e, hfails⟩ | hreaches := d.complete_eq j.receipt decision now
  · rw [hfails] at hanswer
    cases hanswer
  · rw [hreaches] at hanswer
    obtain ⟨past', h', hcurrent, hhanded⟩ := exists_overtaken h hd j.receipt now
    obtain ⟨m, hm, hstored, hknown⟩ := h'.origins
    rw [hcurrent] at hanswer
    have hallowed : (StoreCall.complete j.receipt decision now).Allowed past' :=
      ⟨j, hhanded j hj, rfl, hdecision⟩
    obtain ⟨-, -, e, hcomplete⟩ | ⟨i, p, hi, -, -, -, hok⟩ := hm.complete_cases hallowed
    · rw [hcomplete] at hanswer
      cases hanswer
    · rw [hok] at hanswer
      obtain rfl := Except.ok.inj hanswer
      obtain ⟨hget, -, -⟩ := Memory.underway_eq_some_iff.mp hi
      exact (h'.known_unique (hstored _ i hget) (hknown j (hhanded j hj))
        (Memory.id_of_get? hget)).2

/-! ### Steady stores -/

omit [Ledger σ] in
/-- **No completion is to be disturbed** from now on. -/
def IsSteady (d : Disturbed σ) : Prop :=
  ∀ p ∈ d.plan, p.operation = .complete → p.call < d.called.count .complete

instance (d : Disturbed σ) : Decidable d.IsSteady :=
  inferInstanceAs (Decidable (∀ p ∈ d.plan, p.operation = .complete →
    p.call < d.called.count .complete))

omit [Ledger σ] in
/-- A steady store passes a completion on, and is steady then. -/
theorem IsSteady.complete [JobStore σ] (h : d.IsSteady) (r : Receipt) (decision : Decision)
    (now : Instant) :
    (JobStore.complete r decision now d).1 = (JobStore.complete r decision now d.store).1 ∧
      (JobStore.complete r decision now d).2.store =
        (JobStore.complete r decision now d.store).2 ∧
      (JobStore.complete r decision now d).2.IsSteady := by
  have hplanned : d.planned? .complete = none := by
    rw [planned?, Option.map_eq_none_iff, List.find?_eq_none]
    intro p hp hmatch
    rw [Bool.and_eq_true, decide_eq_true_eq, decide_eq_true_eq] at hmatch
    exact absurd hmatch.2 (Nat.ne_of_lt (h p hp hmatch.1))
  have hcomplete : JobStore.complete r decision now d =
      inside (JobStore.complete r decision now) { d with called := .complete :: d.called } := by
    show disturb .complete _ d = _
    simp only [disturb, hplanned]
  rw [hcomplete]
  refine ⟨rfl, rfl, fun p hp hop => Nat.lt_of_lt_of_le (h p hp hop) ?_⟩
  exact List.count_le_count_cons

end Disturbed

/-! ## What runs count of attempts that end -/

section Endings

variable {σ : Type} [Shelf σ] {rules : RunRules} {l : Limits} {others : List Permit}
  {t : System (Disturbed (Journaled σ))} {m : Memory} {e : Event} {ends ends' : List Event}

/-- **A run counts what it has to offer** if the attempt is completed. -/
theorem Orderly.adds_eq (h : Orderly (fun d => d.store) l others t.queue t.runs)
    (he : e.isEnding) : StoreCall.adds t.queue.store (t.call? rules e) =
      if e.receipt?.any (· ∈ StoreCall.completions t.queue.store (t.call? rules e)) then
        t.offers rules e else 0 := by
  cases hc : t.call? rules e with
  | none =>
    cases e.receipt? with
    | none => rfl
    | some r => exact (if_neg (by simp [StoreCall.completions])).symm
  | some c =>
    obtain ⟨d, now, r, hr, a, ha, rfl, hdecision, hreceipt, hoffers⟩ := System.of_isEnding he hc
    rw [hreceipt, hoffers, Option.any_some, StoreCall.adds, Option.elim_some,
      Exchange.summary, Exchange.persisted?_complete, StoreCall.completions, Option.bind_some,
      Exchange.completion?]
    cases hanswer : (JobStore.complete a.job.receipt d now t.queue.store).1 with
    | error e => exact (if_neg (by simp [hanswer, Except.toOption])).symm
    | ok k =>
      have hbehind := storeMap_store.disturbed.complete a.job.receipt d now t.queue.store
      have hcompleted : (JobStore.complete a.job.receipt d now
          (t.queue.store.map Journaled.store)).1 = .ok k := by rw [hbehind, hanswer]
      have hdomain := Disturbed.domain_of_completed h.faithful.history h.faithful.current.symm
        (h.batch r hr a ha).1 hdecision hcompleted
      rw [if_pos (by simp [hanswer, Except.toOption]), Decision.persisted?, hdomain,
        Option.elim_some]

omit [Shelf σ] in
/-- The first of some attempts that end is none of the others. -/
theorem nodup_receipts_cons (h : ((e :: ends).filterMap Event.receipt?).Nodup) :
    (∀ f ∈ ends, ∀ r, f.receipt? = some r → e.receipt? ≠ some r) ∧
      (ends.filterMap Event.receipt?).Nodup := by
  rw [List.filterMap_cons] at h
  cases hreceipt : e.receipt? with
  | none =>
    rw [hreceipt] at h
    exact ⟨fun _ _ _ _ => nofun, h⟩
  | some r =>
    rw [hreceipt] at h
    obtain ⟨hnew, hnodup⟩ := List.nodup_cons.mp h
    refine ⟨fun f hf r' hr' hsame => hnew ?_, hnodup⟩
    exact List.mem_filterMap.mpr ⟨f, hf, hr'.trans hsame.symm⟩

/-- **What a run counts of attempts that end:** what it has to offer beforehand for those that are
completed. -/
theorem Orderly.countedBy_eq (h : Orderly (fun d => d.store) l others t.queue t.runs)
    (hends : ∀ e ∈ ends, e.isEnding) (hnodup : (ends.filterMap Event.receipt?).Nodup) (i : Nat) :
    t.countedBy rules i ends = (ends.map fun e =>
      if e.isOf i && e.receipt?.any (· ∈ t.completions rules ends) then t.offers rules e
      else 0).sum := by
  induction ends generalizing t with
  | nil => rfl
  | cons e ends ih =>
    obtain ⟨he, hends⟩ := List.forall_mem_cons.mp hends
    obtain ⟨hnew, hnodup⟩ := nodup_receipts_cons hnodup
    have hlater := ih (h.apply records_journaled.disturbed rules e) hends hnodup
    -- an attempt is completed when it ends, and neither before nor after
    have hfirst : ∀ r, e.receipt? = some r → r ∉ (t.apply rules e).completions rules ends := by
      intro r hr hmem
      obtain ⟨f, hf, hreceipt⟩ := System.exists_of_mem_completions hends hmem
      exact hnew f hf r hreceipt hr
    have hrest : ∀ f ∈ ends, ∀ r, f.receipt? = some r →
        r ∉ StoreCall.completions t.queue.store (t.call? rules e) := fun f hf r hr hmem =>
      hnew f hf r hr (System.receipt?_of_mem_completions he hmem)
    have hfirst' : ∀ C : List Receipt, (e.receipt?.any fun r =>
        r ∈ C ++ (t.apply rules e).completions rules ends) = e.receipt?.any fun r => r ∈ C := by
      intro C
      cases hr : e.receipt? with
      | none => rfl
      | some r => simp [hfirst r hr]
    have hrest' : ∀ f ∈ ends, ∀ C : List Receipt, (f.receipt?.any fun r =>
        r ∈ StoreCall.completions t.queue.store (t.call? rules e) ++ C) =
          f.receipt?.any fun r => r ∈ C := by
      intro f hf C
      cases hr : f.receipt? with
      | none => rfl
      | some r => simp [hrest f hf r hr]
    rw [System.countedBy_cons, hlater, h.adds_eq he, System.completions_cons, List.map_cons,
      List.sum_cons, hfirst']
    refine congrArg₂ (· + ·) ?_ (congrArg List.sum (List.map_congr_left fun f hf => ?_))
    · cases e.isOf i <;> rfl
    · rw [hrest' f hf, (System.end_apply he (hends f hf) (hnew f hf)).2]

/-- **The order in which attempts end does not matter** for what a run counts, if the same attempts
are completed. -/
theorem Orderly.summary_perm (h : Orderly (fun d => d.store) l others t.queue t.runs)
    (hperm : ends.Perm ends') (hends : ∀ e ∈ ends, e.isEnding)
    (hnodup : (ends.filterMap Event.receipt?).Nodup)
    (hsame : ∀ r, r ∈ t.completions rules ends ↔ r ∈ t.completions rules ends') :
    (t.applyAll rules ends).runs.map Run.summary =
      (t.applyAll rules ends').runs.map Run.summary := by
  have hcounted : ∀ i, t.countedBy rules i ends = t.countedBy rules i ends' := by
    intro i
    rw [h.countedBy_eq hends hnodup i, h.countedBy_eq (fun e he => hends e (hperm.symm.subset he))
      ((hperm.filterMap _).nodup_iff.mp hnodup) i]
    simp only [hsame]
    exact (hperm.map _).sum_eq
  refine List.ext_getElem? fun i => ?_
  rw [List.getElem?_map, List.getElem?_map]
  cases hr : t.runs[i]? with
  | none =>
    have hlength := List.getElem?_eq_none_iff.mp hr
    rw [List.getElem?_eq_none (by rwa [System.length_runs_applyAll]),
      List.getElem?_eq_none (by rwa [System.length_runs_applyAll])]
  | some r =>
    obtain ⟨r₁, hr₁, hsum₁⟩ := System.summary_applyAll rules ends hr
    obtain ⟨r₂, hr₂, hsum₂⟩ := System.summary_applyAll rules ends' hr
    rw [hr₁, hr₂, Option.map_some, Option.map_some, hsum₁, hsum₂, hcounted]

/-! ## Which attempts are completed -/

/-- A run completes attempts that were handed out to it. -/
theorem Orderly.allowed {τ : Type} [JobStore τ] {view : τ → Journaled σ} {s : System τ}
    (h : Orderly view l others s.queue s.runs) {r : Receipt} {d : Decision} {now : Instant}
    (hc : s.call? rules e = some (.complete r d now)) :
    (StoreCall.complete r d now).Allowed (view s.queue.store).journal := by
  cases e with
  | recover => cases hc
  | step i step =>
    cases hr : s.runs[i]? with
    | none =>
      rw [(System.apply_step_of_none rules hr step).1] at hc
      cases hc
    | some r₁ =>
      obtain ⟨c', r', q', hmove, hcall, -⟩ := System.apply_step rules hr step
      obtain rfl := hcall.symm.trans hc
      cases hmove with
      | completed hfound hdecide | refused hfound hdecide =>
        exact ⟨_, (h.batch r₁ (List.mem_of_getElem? hr) _ (List.mem_of_find?_eq_some hfound)).1,
          rfl, _, _, _, _, hdecide⟩

/-- **The end of an attempt** that is not disturbed completes it if its job runs under its receipt,
and leaves alone what runs under the other receipts. -/
theorem Orderly.ending (h : Orderly (fun d => d.store) l others t.queue t.runs)
    (hsteady : t.queue.store.IsSteady) (hm : Ledger.Tracks t.queue.store.store.journal m)
    (he : e.isEnding) :
    (t.apply rules e).queue.store.IsSteady ∧
      (∀ r, r ∈ StoreCall.completions t.queue.store (t.call? rules e) ↔
        e.receipt? = some r ∧ (t.call? rules e).isSome ∧ (m.underway r).isSome) ∧
      ∃ m', Ledger.Tracks (t.apply rules e).queue.store.store.journal m' ∧
        ∀ r, e.receipt? ≠ some r → m'.underway r = m.underway r := by
  rw [System.store_apply]
  cases hc : t.call? rules e with
  | none =>
    refine ⟨hsteady, fun r => ⟨fun hr => ?_, fun hr => ?_⟩, m, hm, fun _ _ => rfl⟩
    · cases hr
    · cases hr.2.1
  | some c =>
    obtain ⟨d, now, r, -, a, -, rfl, -, hreceipt, -⟩ := System.of_isEnding he hc
    obtain ⟨hanswer, hstore, hsteady'⟩ := hsteady.complete a.job.receipt d now
    have hallowed := h.allowed hc
    obtain ⟨m', hstep⟩ := Ledger.step hm.keeps hm.sound _ (hm.fitsIn hallowed)
    obtain rfl := hstep.completes _ d now rfl
    refine ⟨hsteady', fun r' => ?_,
      (m.complete a.job.receipt (d.round (Ledger.round σ)) (Ledger.round σ now)).2, ?_,
      fun r' hne => ?_⟩
    · have hcases := hm.complete_cases hallowed
      rw [h.faithful.current] at hcases
      have hcompletes : StoreCall.completions t.queue.store
          (some (.complete a.job.receipt d now)) =
          ((m.underway a.job.receipt).map fun _ => a.job.receipt).toList := by
        show ((JobStore.complete a.job.receipt d now t.queue.store).1.toOption.map _).toList = _
        have hbehind : (JobStore.complete a.job.receipt d now t.queue.store.store).1 =
            (JobStore.complete a.job.receipt d now t.queue.store.store.store).1 := rfl
        rw [hanswer, hbehind]
        obtain ⟨hnone, -, e', hcomplete⟩ | ⟨k, p, hk, -, -, -, hok⟩ := hcases
        · rw [hnone, hcomplete]
          rfl
        · rw [hk, hok]
          rfl
      rw [hcompletes, hreceipt, Option.mem_toList, Option.map_eq_some_iff]
      constructor
      · rintro ⟨k, hk, rfl⟩
        exact ⟨rfl, rfl, Option.isSome_iff_exists.mpr ⟨k, hk⟩⟩
      · rintro ⟨hr', -, hk⟩
        obtain ⟨k, hk⟩ := Option.isSome_iff_exists.mp hk
        obtain rfl := Option.some.inj hr'
        exact ⟨k, hk, rfl⟩
    · have hjournal : ((StoreCall.complete a.job.receipt d now).run
          t.queue.store).2.store.journal =
          ⟨current Ledger.start t.queue.store.store.journal, .complete a.job.receipt d now⟩ ::
            t.queue.store.store.journal :=
        (congrArg Journaled.journal hstore).trans (h.faithful.journal_after _)
      rw [Option.elim_some, hjournal]
      exact hm.step hallowed hstep
    · exact Memory.underway_complete (fun hsame => hne (hreceipt.trans (congrArg some hsame.symm)))
        m _ _

/-- **Attempts that end are completed** if their jobs run under their receipts beforehand. -/
theorem Orderly.mem_completions_iff (h : Orderly (fun d => d.store) l others t.queue t.runs)
    (hsteady : t.queue.store.IsSteady) (hm : Ledger.Tracks t.queue.store.store.journal m)
    (hends : ∀ e ∈ ends, e.isEnding) (hnodup : (ends.filterMap Event.receipt?).Nodup)
    (r : Receipt) : r ∈ t.completions rules ends ↔
      ∃ e ∈ ends, e.receipt? = some r ∧ (t.call? rules e).isSome ∧ (m.underway r).isSome := by
  induction ends generalizing t m with
  | nil =>
    exact ⟨fun hr => absurd hr List.not_mem_nil, fun ⟨e, he, _⟩ => absurd he List.not_mem_nil⟩
  | cons e ends ih =>
    obtain ⟨he, hends⟩ := List.forall_mem_cons.mp hends
    obtain ⟨hnew, hnodup⟩ := nodup_receipts_cons hnodup
    obtain ⟨hsteady', hfirst, m', hm', hothers⟩ := h.ending hsteady hm he
    have hlater := ih (h.apply records_journaled.disturbed rules e) hsteady' hm' hends hnodup
    have hsame : ∀ f ∈ ends, f.receipt? = some r →
        (t.apply rules e).call? rules f = t.call? rules f ∧ m'.underway r = m.underway r :=
      fun f hf hr => ⟨(System.end_apply he (hends f hf) (hnew f hf)).1, hothers r (hnew f hf r hr)⟩
    rw [System.completions_cons, List.mem_append, hfirst, hlater, List.exists_mem_cons_iff]
    refine or_congr_right (exists_congr fun f => and_congr_right fun hf =>
      and_congr_right fun hr => ?_)
    obtain ⟨hcall, hunderway⟩ := hsame f hf hr
    rw [hcall, hunderway]

/-- **If no completion is disturbed,** the same attempts are completed in any order. -/
theorem Orderly.completions_perm (h : Orderly (fun d => d.store) l others t.queue t.runs)
    (hsteady : t.queue.store.IsSteady) (hperm : ends.Perm ends') (hends : ∀ e ∈ ends, e.isEnding)
    (hnodup : (ends.filterMap Event.receipt?).Nodup) (r : Receipt) :
    r ∈ t.completions rules ends ↔ r ∈ t.completions rules ends' := by
  obtain ⟨m, hm⟩ := h.faithful.history.tracks
  rw [h.mem_completions_iff hsteady hm hends hnodup, h.mem_completions_iff hsteady hm
    (fun e he => hends e (hperm.symm.subset he)) ((hperm.filterMap _).nodup_iff.mp hnodup)]
  exact exists_congr fun e => and_congr_left' hperm.mem_iff

end Endings

end SyncJobs
