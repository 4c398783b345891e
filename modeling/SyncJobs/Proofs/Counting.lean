import SyncJobs.Proofs.Ending
import SyncJobs.Proofs.Summaries

/-!
# What runs count

A move of a run adds to its summary what its call to the store adds (`Run.Move.summary`). So the
summary of a run is the sum over the calls that the run made (`System.summary_applyAll`), and the
summaries of all runs together are the sum over all calls (`System.total_applyAll`).

Behind its disturbances a store may be asked for more, or for less. What the calls behind complete
is the same (`System.gains_applyAll`): whatever somebody else does in between completes nothing.
-/

namespace SyncJobs

/-! ## Moves -/

/-- What a call adds to a summary, if one is made. -/
def StoreCall.adds {σ : Type} [JobStore σ] (s : σ) (c : Option StoreCall) : Summary :=
  c.elim 0 fun c => (Exchange.mk s c).summary

section Moves

variable {σ : Type} [JobStore σ] {rules : RunRules} {r r' : Run} {q q' : Queue σ} {step : Step}
  {c : Option StoreCall}

/-- **A move adds what its call adds.** -/
theorem Run.Move.summary (h : r.Move rules q step c r' q') :
    r'.summary = r.summary + StoreCall.adds q.store c := by
  cases h with
  | ignored | closed | unreadable | nothingDue | looked | granted | gaveUp | claimed | missed
    | ended | launched | lost | brokeDown | released | joined => exact (add_zero _).symm
  | completed hfound hdecide heq =>
    rw [StoreCall.adds, Option.elim_some, Exchange.summary, Exchange.persisted?_complete, heq]
    exact Summary.record_eq_add _ _ _
  | refused hfound hdecide heq =>
    rw [StoreCall.adds, Option.elim_some, Exchange.summary, Exchange.persisted?_complete, heq]
    exact (add_zero _).symm

/-- A move looks at the queue, claims a job, or completes an attempt. -/
theorem Run.Move.isOfRuns {c : StoreCall} (h : r.Move rules q step (some c) r' q') :
    c.isOfRuns := by
  cases h <;> rfl

end Moves

/-! ## Sums over calls -/

namespace System

variable {σ : Type} [JobStore σ] {rules : RunRules}

/-- **What all runs have counted.** -/
def total (s : System σ) : Summary := (s.runs.map Run.summary).sum

/-- What the calls of some events add. -/
def counted (rules : RunRules) (events : List Event) (s : System σ) : Summary :=
  ((s.log rules events).map fun x => x.2.summary).sum

/-- **The attempts that some events complete,** one for each completion that is answered with a
job. -/
def persisted (rules : RunRules) (events : List Event) (s : System σ) : List (Domain × Decision) :=
  (s.log rules events).filterMap fun x => x.2.persisted?

/-- What the calls of the run with a number add. -/
def countedBy (rules : RunRules) (i : Nat) (events : List Event) (s : System σ) : Summary :=
  (((s.log rules events).filter fun x => x.1.isOf i).map fun x => x.2.summary).sum

theorem counted_cons (e : Event) (events : List Event) (s : System σ) :
    s.counted rules (e :: events) =
      StoreCall.adds s.queue.store (s.call? rules e) + (s.apply rules e).counted rules events := by
  rw [counted, log]
  cases s.call? rules e with
  | none => exact (zero_add _).symm
  | some c => rfl

theorem persisted_cons (e : Event) (events : List Event) (s : System σ) :
    s.persisted rules (e :: events) =
      ((s.call? rules e).bind fun c => (Exchange.mk s.queue.store c).persisted?).toList ++
        (s.apply rules e).persisted rules events := by
  rw [persisted, log]
  cases s.call? rules e with
  | none => rfl
  | some c =>
    show List.filterMap _ (_ :: _) = _
    rw [List.filterMap_cons, Option.bind_some]
    cases (Exchange.mk s.queue.store c).persisted? <;> rfl

/-- What some exchanges add up to are the attempts that they complete. -/
theorem sum_summary (log : List (Event × Exchange σ)) :
    (log.map fun x => x.2.summary).sum =
      ((log.filterMap fun x => x.2.persisted?).map fun a => Summary.single a.1 a.2).sum := by
  induction log with
  | nil => rfl
  | cons x log ih =>
    rw [List.map_cons, List.sum_cons, ih, List.filterMap_cons, Exchange.summary]
    cases x.2.persisted? with
    | none => exact zero_add _
    | some a => rfl

theorem countedBy_cons (i : Nat) (e : Event) (events : List Event) (s : System σ) :
    s.countedBy rules i (e :: events) =
      (if e.isOf i then StoreCall.adds s.queue.store (s.call? rules e) else 0) +
        (s.apply rules e).countedBy rules i events := by
  rw [countedBy, log]
  cases s.call? rules e with
  | none =>
    have hnone : (if e.isOf i then StoreCall.adds s.queue.store none else 0) = 0 := by
      split <;> rfl
    rw [hnone, zero_add]
    rfl
  | some c =>
    show (((_ :: _).filter _).map _).sum = _
    rw [List.filter_cons]
    by_cases hi : e.isOf i
    · rw [if_pos hi, if_pos hi]
      rfl
    · rw [if_neg hi, if_neg hi, zero_add]
      rfl

/-- One run that counts more adds to what all runs have counted. -/
theorem sum_summary_set {runs : List Run} {i : Nat} {r r' : Run} {x : Summary}
    (hr : runs[i]? = some r) (hx : r'.summary = r.summary + x) :
    ((runs.set i r').map Run.summary).sum = (runs.map Run.summary).sum + x := by
  induction runs generalizing i with
  | nil => cases hr
  | cons r₁ runs ih =>
    cases i with
    | zero =>
      obtain rfl : r₁ = r := Option.some.inj hr
      rw [List.set_cons_zero, List.map_cons, List.sum_cons, List.map_cons, List.sum_cons, hx,
        add_right_comm]
    | succ i =>
      rw [List.set_cons_succ, List.map_cons, List.sum_cons, List.map_cons, List.sum_cons, ih hr,
        add_assoc]

theorem total_apply (rules : RunRules) (e : Event) (s : System σ) :
    (s.apply rules e).total = s.total + StoreCall.adds s.queue.store (s.call? rules e) := by
  cases e with
  | recover => exact (add_zero _).symm
  | step i step =>
    cases hr : s.runs[i]? with
    | none =>
      obtain ⟨hcall, happly⟩ := apply_step_of_none rules hr step
      rw [happly, hcall]
      exact (add_zero _).symm
    | some r =>
      obtain ⟨c, r', q', hmove, hcall, happly⟩ := apply_step rules hr step
      rw [happly, hcall]
      exact sum_summary_set hr hmove.summary

/-- **The runs have counted what their calls add.** -/
theorem total_applyAll (rules : RunRules) (events : List Event) (s : System σ) :
    (s.applyAll rules events).total = s.total + s.counted rules events := by
  induction events generalizing s with
  | nil => exact (add_zero _).symm
  | cons e events ih =>
    rw [counted_cons, ← add_assoc, ← total_apply]
    exact ih (s.apply rules e)

/-- **A run has counted what its own calls add.** -/
theorem summary_applyAll (rules : RunRules) (events : List Event) {s : System σ} {i : Nat}
    {r : Run} (hr : s.runs[i]? = some r) :
    ∃ r', (s.applyAll rules events).runs[i]? = some r' ∧
      r'.summary = r.summary + s.countedBy rules i events := by
  induction events generalizing s r with
  | nil => exact ⟨r, hr, (add_zero _).symm⟩
  | cons e events ih =>
    have hstep : ∃ r₁, (s.apply rules e).runs[i]? = some r₁ ∧ r₁.summary = r.summary +
        if e.isOf i then StoreCall.adds s.queue.store (s.call? rules e) else 0 := by
      cases e with
      | recover => exact ⟨r, hr, (add_zero _).symm⟩
      | step k step =>
        cases hk : s.runs[k]? with
        | none =>
          obtain ⟨hcall, happly⟩ := apply_step_of_none rules hk step
          rw [happly, hcall]
          refine ⟨r, hr, ?_⟩
          split <;> exact (add_zero _).symm
        | some r₂ =>
          obtain ⟨c, r', q', hmove, hcall, happly⟩ := apply_step rules hk step
          rw [happly, hcall]
          by_cases hki : k = i
          · subst hki
            obtain rfl := Option.some.inj (hk.symm.trans hr)
            refine ⟨r', List.getElem?_set_self (List.getElem?_eq_some_iff.mp hk).1, ?_⟩
            rw [if_pos (show Event.isOf k (.step k step) from decide_eq_true rfl)]
            exact hmove.summary
          · refine ⟨r, (List.getElem?_set_ne hki).trans hr, ?_⟩
            rw [if_neg (by simpa only [Event.isOf, decide_eq_true_eq] using hki), add_zero]
    obtain ⟨r₁, hr₁, hsum₁⟩ := hstep
    obtain ⟨r', hr', hsum⟩ := ih hr₁
    exact ⟨r', hr', by rw [hsum, hsum₁, countedBy_cons, add_assoc]⟩

/-- The store changes by the call that an event makes. -/
theorem store_apply (rules : RunRules) (e : Event) (s : System σ) :
    (s.apply rules e).queue.store =
      (s.call? rules e).elim s.queue.store fun c => (c.run s.queue.store).2 := by
  cases e with
  | recover => rfl
  | step i step =>
    cases hr : s.runs[i]? with
    | none =>
      obtain ⟨hcall, happly⟩ := apply_step_of_none rules hr step
      rw [happly, hcall]
      rfl
    | some r =>
      obtain ⟨c, r', q', hmove, hcall, happly⟩ := apply_step rules hr step
      rw [happly, hcall]
      exact hmove.store

/-- The call of an event is one that runs make, or a recovery. -/
theorem isOfRuns_of_call? {e : Event} {s : System σ} {c : StoreCall}
    (h : s.call? rules e = some c) : c.isOfRuns ∨ e.isRecovery ∧ c.isRecovery := by
  cases e with
  | recover =>
    obtain rfl := Option.some.inj h
    exact .inr ⟨rfl, rfl⟩
  | step i step =>
    cases hr : s.runs[i]? with
    | none =>
      rw [(apply_step_of_none rules hr step).1] at h
      cases h
    | some r =>
      obtain ⟨c', r', q', hmove, hcall, -⟩ := apply_step rules hr step
      obtain rfl := hcall.symm.trans h
      exact .inl hmove.isOfRuns

end System

/-! ## Behind disturbances -/

/-- **A journal grew** by calls that complete some attempts, the latest first; if it is quiet, they
are calls that runs make. -/
def Journaled.Gains {σ : Type} [JobStore σ] (quiet : Prop) (attempts : List (Domain × Decision))
    (s s' : Journaled σ) : Prop :=
  ∃ new, s'.journal = new ++ s.journal ∧ new.filterMap Exchange.persisted? = attempts ∧
    (quiet → ∀ e ∈ new, e.call.isOfRuns)

namespace Journaled

variable {σ : Type} [JobStore σ] {quiet quiet' : Prop} {x y : List (Domain × Decision)}
  {s s₁ s' : Journaled σ}

theorem Gains.refl (s : Journaled σ) : Gains quiet [] s s :=
  ⟨[], rfl, rfl, fun _ _ he => absurd he List.not_mem_nil⟩

theorem Gains.trans (h : Gains quiet x s s₁) (h' : Gains quiet y s₁ s') :
    Gains quiet (y ++ x) s s' := by
  obtain ⟨new, hnew, rfl, hcalls⟩ := h
  obtain ⟨new', hnew', rfl, hcalls'⟩ := h'
  refine ⟨new' ++ new, ?_, ?_, fun hquiet e he => ?_⟩
  · rw [hnew', hnew, List.append_assoc]
  · rw [List.filterMap_append]
  · exact (List.mem_append.mp he).elim (hcalls' hquiet e) (hcalls hquiet e)

theorem Gains.mono (h : Gains quiet x s s') (hquiet : quiet' → quiet) : Gains quiet' x s s' := by
  obtain ⟨new, hnew, hsum, hcalls⟩ := h
  exact ⟨new, hnew, hsum, fun h => hcalls (hquiet h)⟩

/-- A call is written down. -/
theorem gains_after (s : Journaled σ) {c : StoreCall} (hc : quiet → c.isOfRuns) :
    Gains quiet (Exchange.mk s.store c).persisted?.toList s (s.after c) := by
  refine ⟨[⟨s.store, c⟩], rfl, ?_, fun hquiet e he => ?_⟩
  · exact (filterMap_persisted?_cons _ _).trans (List.append_nil _)
  · rw [List.mem_singleton.mp he]
    exact hc hquiet

end Journaled

namespace Disturbed

variable {σ : Type} [JobStore σ] {d : Disturbed (Journaled σ)}

/-- **A call to a disturbed store** leaves the plan alone, and completes what the calls behind
complete. -/
theorem gains_run {c : StoreCall} (hc : c.isOfRuns ∨ c.isRecovery) :
    (c.run d).2.plan = d.plan ∧ (d.store.Gains (d.IsCalm ∧ ¬ c.isRecovery)
      (Exchange.mk d c).persisted?.toList (c.run d).2.store) := by
  cases c with
  | dueJobs now limit cap =>
    refine disturb_cases (P := fun (x : _ × Disturbed (Journaled σ)) => x.2.plan = d.plan ∧
      d.store.Gains _ [] x.2.store) ?_ ?_
    · exact fun _ => ⟨rfl, .refl _⟩
    · exact ⟨rfl, Journaled.gains_after d.store (c := .dueJobs now limit cap) fun _ => rfl⟩
  | claim i now =>
    have hclaim (s : Journaled σ) : s.Gains (d.IsCalm ∧ ¬ StoreCall.isRecovery (.claim i now)) []
        (s.after (.claim i now)) := Journaled.gains_after s fun _ => rfl
    refine disturb_cases (P := fun (x : _ × Disturbed (Journaled σ)) => x.2.plan = d.plan ∧
      d.store.Gains _ [] x.2.store) ?_ ?_
    · exact fun _ => ⟨rfl, .refl _⟩
    · cases d.planned? .claim with
      | none => exact ⟨rfl, hclaim d.store⟩
      | some p =>
        cases p with
        | lose => exact ⟨rfl, .refl _⟩
        | fail | reclaim => exact ⟨rfl, hclaim d.store⟩
        | steal => exact ⟨rfl, (hclaim d.store).trans (hclaim _)⟩
  | complete r decision now =>
    have hcomplete (s : Journaled σ) : s.Gains
        (d.IsCalm ∧ ¬ StoreCall.isRecovery (.complete r decision now))
        (Exchange.mk s.store (.complete r decision now)).persisted?.toList
        (s.after (.complete r decision now)) := Journaled.gains_after s fun _ => rfl
    refine disturb_cases (P := fun (x : _ × Disturbed (Journaled σ)) => x.2.plan = d.plan ∧
      d.store.Gains _ (decision.persisted? x.1).toList x.2.store) ?_ ?_
    · exact fun _ => ⟨rfl, .refl _⟩
    · cases hplanned : d.planned? .complete with
      | none => exact ⟨rfl, hcomplete d.store⟩
      | some p =>
        cases p with
        | fail | lose | steal => exact ⟨rfl, hcomplete d.store⟩
        | reclaim =>
          have hloud : ∀ {c : StoreCall} (s : Journaled σ), s.Gains
              (d.IsCalm ∧ ¬ StoreCall.isRecovery (.complete r decision now))
              (Exchange.mk s.store c).persisted?.toList (s.after c) := fun s =>
            Journaled.gains_after s fun ⟨hcalm, _⟩ => absurd hplanned (hcalm.planned_ne .complete)
          have hfirst := (hloud (c := .recoverStale (now.add hour) (now.add hour)) d.store).trans
            (hloud (c := .claim r.job (now.add hour)) _)
          have hall : d.store.Gains _ (_ ++ []) _ := hfirst.trans (hcomplete _)
          rw [List.append_nil] at hall
          exact ⟨rfl, hall⟩
  | recoverStale staleBefore now =>
    refine disturb_cases (P := fun (x : _ × Disturbed (Journaled σ)) => x.2.plan = d.plan ∧
      d.store.Gains _ [] x.2.store) ?_ ?_
    · exact fun _ => ⟨rfl, .refl _⟩
    · exact ⟨rfl, Journaled.gains_after d.store (c := .recoverStale staleBefore now)
        fun h => absurd rfl h.2⟩
  | enqueue | claimDue | get | counts | deadLetters | purgeSucceeded =>
    exact absurd hc (by simp [StoreCall.isOfRuns, StoreCall.isRecovery])

end Disturbed

namespace System

variable {σ : Type} [JobStore σ]

/-- **What the calls behind complete** is what the runs have completed; and without recoveries these
are calls that runs make. -/
theorem gains_applyAll (rules : RunRules) (events : List Event)
    (s : System (Disturbed (Journaled σ))) :
    (s.applyAll rules events).queue.store.plan = s.queue.store.plan ∧
      s.queue.store.store.Gains (s.queue.store.IsCalm ∧ ∀ e ∈ events, ¬ e.isRecovery)
        (s.persisted rules events).reverse (s.applyAll rules events).queue.store.store := by
  induction events generalizing s with
  | nil => exact ⟨rfl, .refl _⟩
  | cons e events ih =>
    have hstep : (s.apply rules e).queue.store.plan = s.queue.store.plan ∧
        s.queue.store.store.Gains (s.queue.store.IsCalm ∧ ¬ e.isRecovery)
          ((s.call? rules e).bind fun c => (Exchange.mk s.queue.store c).persisted?).toList
          (s.apply rules e).queue.store.store := by
      rw [store_apply]
      cases hcall : s.call? rules e with
      | none => exact ⟨rfl, .refl _⟩
      | some c =>
        have hc := isOfRuns_of_call? hcall
        obtain ⟨hplan, hgains⟩ := Disturbed.gains_run (d := s.queue.store) (hc.imp_right And.right)
        refine ⟨hplan, hgains.mono fun ⟨hcalm, hquiet⟩ => ⟨hcalm, fun hrecovery => ?_⟩⟩
        refine hc.elim (fun hruns => ?_) fun h => hquiet h.1
        rw [StoreCall.isRecovery_of_isOfRuns hruns] at hrecovery
        cases hrecovery
    obtain ⟨hplan, hgains⟩ := hstep
    obtain ⟨hplans, hgainss⟩ := ih (s.apply rules e)
    refine ⟨hplans.trans hplan, ?_⟩
    have hreverse : ∀ x : Option (Domain × Decision), x.toList.reverse = x.toList := by
      intro x
      cases x <;> rfl
    rw [persisted_cons, List.reverse_append, hreverse]
    refine (hgains.mono fun ⟨hcalm, hquiet⟩ => ⟨hcalm, hquiet e List.mem_cons_self⟩).trans
      (hgainss.mono fun ⟨hcalm, hquiet⟩ => ⟨fun p hp => hcalm p (hplan ▸ hp), fun e he =>
        hquiet e (List.mem_cons_of_mem _ he)⟩)

end System

end SyncJobs
