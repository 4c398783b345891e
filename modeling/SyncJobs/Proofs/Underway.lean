import SyncJobs.Proofs.AnyOrder
import SyncJobs.Proofs.Custody

/-!
# Attempts that are underway

The attempt of a receipt is underway as long as the store shows its job running, with as many
attempts as when it was handed out, and it is over when the job has ended or has made more
attempts. An attempt that is over stays so. One that is underway stays so until it is completed or
a recovery takes it back, and nothing else ends it (`Exchange.goes_on`).

This holds of every store that looks after its jobs, in any state, and whatever disturbs it.
-/

namespace SyncJobs

/-! ## Attempts that are counted -/

namespace Job

theorem le_nextAttempt (n : UInt32) : n ≤ nextAttempt n := by
  have hlt := n.toNat_lt
  rw [UInt32.le_iff_toNat_le, toNat_nextAttempt]
  omega

theorem lt_nextAttempt {n : UInt32} (h : n.toNat + 1 < 2 ^ 32) : n < nextAttempt n := by
  rw [UInt32.lt_iff_toNat_lt, toNat_nextAttempt]
  omega

/-- An interrupted attempt is counted, unless the job has ended: it has if the count has stopped. -/
theorem ended_or_lt_of_interrupt (j : Job) (now : Instant) :
    (j.interrupt now).status.isTerminal ∨ j.attempts < (j.interrupt now).attempts := by
  by_cases hlast : j.attempts.toNat + 1 < 2 ^ 32
  · exact .inr (lt_nextAttempt hlast)
  · have hmax := j.maxAttempts.toNat_lt
    have hexhausted : j.maxAttempts ≤ nextAttempt j.attempts := by
      rw [UInt32.le_iff_toNat_le, toNat_nextAttempt]
      omega
    simp only [interrupt, hexhausted, decide_true, if_true]
    exact .inl rfl

/-- A settled attempt is counted, unless the job has ended: it has if it does not wait again. -/
theorem ended_or_lt_of_settle (j : Job) {d : Decision} (now : Instant)
    (hd : d.nextStatus = .pending → j.attempts.toNat + 1 < 2 ^ 32) :
    (j.settle d now).status.isTerminal ∨ j.attempts < (j.settle d now).attempts := by
  cases d with
  | retry t e => exact .inr (lt_nextAttempt (hd rfl))
  | succeed | deadLetter => exact .inl rfl

end Job

/-! ## Where the attempt of a receipt stands -/

namespace JobStore

section Standing

variable {σ : Type} [JobStore σ] {s s' : σ} {r : Receipt}

/-- **The attempt of a receipt is underway:** its job runs, and the attempt is not counted yet. -/
def Underway (s : σ) (r : Receipt) : Prop :=
  ∃ j, peek s r.job = .ok (some j) ∧ j.status = .running ∧ j.attempts = r.attempts

/-- **The attempt of a receipt is over:** its job has ended, or has made more attempts. -/
def Over (s : σ) (r : Receipt) : Prop :=
  ∃ j, peek s r.job = .ok (some j) ∧ (j.status.isTerminal ∨ r.attempts < j.attempts)

/-- What a store shows of a job can be tested. -/
theorem exists_peek_iff {s : σ} {i : JobId} {p : Job → Prop} [DecidablePred p] :
    (peek s i).toOption.join.any p ↔ ∃ j, peek s i = .ok (some j) ∧ p j := by
  rcases peek s i with e | _ | j <;> simp [Except.toOption]

instance : Decidable (Underway s r) := decidable_of_iff _ exists_peek_iff

instance : Decidable (Over s r) := decidable_of_iff _ exists_peek_iff

/-- An attempt that is over is not underway. -/
theorem Over.not_underway (h : Over s r) : ¬ Underway s r := by
  rintro ⟨k, hk, running, current⟩
  obtain ⟨j, hj, hover⟩ := h
  obtain rfl := Option.some.inj (Except.ok.inj (hj.symm.trans hk))
  rcases hover with hended | hmore
  · rw [running] at hended
    cases hended
  · rw [current] at hmore
    exact UInt32.lt_irrefl _ hmore

/-- **An attempt stays as it is,** be it underway or over. -/
structure Stays (s s' : σ) (r : Receipt) : Prop where
  underway : Underway s r → Underway s' r
  ended : Over s r → Over s' r

theorem Stays.refl (s : σ) (r : Receipt) : Stays s s r := ⟨id, id⟩

theorem Stays.trans {s₁ : σ} (h : Stays s s₁ r) (h' : Stays s₁ s' r) : Stays s s' r :=
  ⟨h'.underway ∘ h.underway, h'.ended ∘ h.ended⟩

end Standing

/-! ## What calls do to attempts -/

section Calls

variable {σ : Type} [Custodian σ] {s : σ}

/-- A claim leaves attempts alone. -/
theorem stays_claim (s : σ) (i : JobId) (now : Instant) (r : Receipt) :
    Stays s (claim i now s).2 r where
  underway := by
    rintro ⟨j, hj, running, current⟩
    obtain hsame | ⟨hpending, -⟩ := Custodian.claim_shown i now hj
    · exact ⟨j, hsame, running, current⟩
    · rw [running] at hpending
      cases hpending
  ended := by
    rintro ⟨j, hj, hover⟩
    obtain hsame | ⟨hpending, t, hstarted⟩ := Custodian.claim_shown i now hj
    · exact ⟨j, hsame, hover⟩
    · -- a job that waits has not ended, so it has made more attempts
      refine ⟨_, hstarted, .inr (hover.resolve_left fun hended => ?_)⟩
      rw [hpending] at hended
      cases hended

/-- **A claim begins an attempt** that has not been underway before. -/
theorem begins_of_claimed {i : JobId} {now : Instant} {k : Job}
    (h : (claim i now s).1 = .ok (some k)) :
    Underway (claim i now s).2 k.receipt ∧ ¬ Underway s k.receipt ∧ ¬ Over s k.receipt := by
  obtain ⟨rfl, running, hshown, hwaited⟩ := Custodian.claimed h
  refine ⟨⟨k, hshown, running, rfl⟩, ?_, ?_⟩
  · rintro ⟨j, hj, hrunning, -⟩
    rw [(hwaited j hj).1] at hrunning
    cases hrunning
  · rintro ⟨j, hj, hended | hmore⟩
    · rw [(hwaited j hj).1] at hended
      cases hended
    · rw [(hwaited j hj).2] at hmore
      exact UInt32.lt_irrefl _ hmore

/-- A completion leaves the attempts of other receipts alone. -/
theorem stays_complete (s : σ) {receipt r : Receipt} (hr : r ≠ receipt) (d : Decision)
    (now : Instant) : Stays s (complete receipt d now s).2 r := by
  by_cases hjob : r.job = receipt.job
  · have hattempts : r.attempts ≠ receipt.attempts := fun hsame => hr (by
      cases r
      cases receipt
      simp only at hjob hsame
      rw [hjob, hsame])
    constructor
    · rintro ⟨j, hj, running, current⟩
      obtain ⟨e, hfails⟩ | ⟨-, -, hcurrent, -⟩ := Custodian.complete_shown receipt d now (hjob ▸ hj)
      · rw [hfails]
        exact ⟨j, hj, running, current⟩
      · exact absurd (current.symm.trans hcurrent) hattempts
    · rintro ⟨j, hj, hover⟩
      obtain ⟨e, hfails⟩ | ⟨-, running, -, d', t, -, hsettled⟩ :=
        Custodian.complete_shown receipt d now (hjob ▸ hj)
      · rw [hfails]
        exact ⟨j, hj, hover⟩
      · refine ⟨_, hjob ▸ hsettled, .inr ?_⟩
        have hmore := hover.resolve_left fun hended => by
          rw [running] at hended
          cases hended
        exact UInt32.lt_of_lt_of_le hmore (Job.le_nextAttempt _)
  · have hsame := Custodian.complete_others (s := s) receipt d now hjob
    refine ⟨fun ⟨j, hj, h⟩ => ⟨j, hsame.trans hj, h⟩, fun ⟨j, hj, h⟩ => ⟨j, hsame.trans hj, h⟩⟩

/-- An attempt that is over cannot be completed. -/
theorem complete_of_over {r : Receipt} (h : Over s r) (d : Decision) (now : Instant) :
    ∃ e, complete r d now s = (.error e, s) := by
  obtain ⟨j, hj, hover⟩ := h
  obtain hfails | ⟨-, running, current, -⟩ := Custodian.complete_shown r d now hj
  · exact hfails
  · exact absurd ⟨j, hj, running, current⟩ (Over.not_underway ⟨j, hj, hover⟩)

/-- **A completion ends the attempt,** or fails and changes nothing. -/
theorem complete_of_underway {r : Receipt} (h : Underway s r) {d : Decision} (now : Instant)
    (hd : d.nextStatus = .pending → r.attempts.toNat + 1 < 2 ^ 32) :
    (∃ e, complete r d now s = (.error e, s)) ∨
      (∃ k, (complete r d now s).1 = .ok k) ∧ Over (complete r d now s).2 r := by
  obtain ⟨j, hj, -, current⟩ := h
  obtain hfails | ⟨hok, -, -, d', t, hnext, hsettled⟩ := Custodian.complete_shown r d now hj
  · exact .inl hfails
  · refine .inr ⟨hok, _, hsettled, ?_⟩
    rw [← current] at hd ⊢
    exact j.ended_or_lt_of_settle t (hnext ▸ hd)

/-- A completion that is answered with a job has ended the attempt. -/
theorem over_of_completed {r : Receipt} {d : Decision} {now : Instant} {k : Job}
    (hok : (complete r d now s).1 = .ok k) (h : Underway s r ∨ Over s r)
    (hd : d.nextStatus = .pending → r.attempts.toNat + 1 < 2 ^ 32) :
    Over (complete r d now s).2 r := by
  rcases h with hunderway | hover
  · obtain ⟨e, hfails⟩ | ⟨-, hover⟩ := complete_of_underway hunderway now hd
    · rw [hfails] at hok
      cases hok
    · exact hover
  · obtain ⟨e, hfails⟩ := complete_of_over hover d now
    rw [hfails] at hok
    cases hok

/-- **What a completion does to any attempt:** it ends the one of its receipt, if it is answered
with a job, and no other. -/
theorem goes_on_complete (s : σ) {receipt : Receipt} {d : Decision} (now : Instant)
    (hd : d.nextStatus = .pending → receipt.attempts.toNat + 1 < 2 ^ 32) (r : Receipt) :
    (Over s r → Over (complete receipt d now s).2 r) ∧
    (Underway s r → Underway (complete receipt d now s).2 r ∨
      Over (complete receipt d now s).2 r ∧ r = receipt ∧
        ∃ k, (complete receipt d now s).1 = .ok k) := by
  by_cases hr : r = receipt
  · subst hr
    refine ⟨fun h => ?_, fun h => ?_⟩
    · obtain ⟨e, hfails⟩ := complete_of_over h d now
      rwa [hfails]
    · obtain ⟨e, hfails⟩ | ⟨hok, hover⟩ := complete_of_underway h now hd
      · rw [hfails]
        exact .inl h
      · exact .inr ⟨hover, rfl, hok⟩
  · have hstays := stays_complete s hr d now
    exact ⟨hstays.ended, .inl ∘ hstays.underway⟩

/-- A recovery leaves an attempt alone or ends it. -/
theorem underway_recoverStale {r : Receipt} (h : Underway s r) (staleBefore now : Instant) :
    Underway (recoverStale staleBefore now s).2 r ∨ Over (recoverStale staleBefore now s).2 r := by
  obtain ⟨j, hj, running, current⟩ := h
  obtain hsame | ⟨-, t, hinterrupted⟩ := Custodian.recoverStale_shown staleBefore now hj
  · exact .inl ⟨j, hsame, running, current⟩
  · refine .inr ⟨_, hinterrupted, ?_⟩
    rw [← current]
    exact j.ended_or_lt_of_interrupt t

theorem over_recoverStale {r : Receipt} (h : Over s r) (staleBefore now : Instant) :
    Over (recoverStale staleBefore now s).2 r := by
  obtain ⟨j, hj, hover⟩ := h
  obtain hsame | ⟨running, t, hinterrupted⟩ := Custodian.recoverStale_shown staleBefore now hj
  · exact ⟨j, hsame, hover⟩
  · have hmore := hover.resolve_left fun hended => by
      rw [running] at hended
      cases hended
    exact ⟨_, hinterrupted, .inr (UInt32.lt_of_lt_of_le hmore (Job.le_nextAttempt _))⟩

end Calls

end JobStore

/-! ## Behind disturbances -/

open JobStore

/-- Whether the attempt that a completion settles may still be counted, if its job waits again. -/
def StoreCall.Countable : StoreCall → Prop
  | .complete r d _ => d.nextStatus = .pending → r.attempts.toNat + 1 < 2 ^ 32
  | _ => True

namespace Exchange

section Ends

variable {σ : Type} [JobStore σ]

/-- The recovery that is a part of an exchange: it is one, or one is planned to come before a
completion. -/
def recovery? (e : Exchange (Disturbed σ)) : Option (Instant × Instant) :=
  match e.call with
  | .recoverStale staleBefore now => some (staleBefore, now)
  | .complete _ _ now =>
    if e.before.planned? .complete = some .reclaim then
      some (now.add Disturbed.hour, now.add Disturbed.hour)
    else none
  | _ => none

/-- **An exchange takes an attempt back:** it was underway, and a recovery has ended it. -/
def TakesBack (e : Exchange (Disturbed σ)) (r : Receipt) : Prop :=
  Underway e.before.store r ∧ ∃ staleBefore now, e.recovery? = some (staleBefore, now) ∧
    Over (recoverStale staleBefore now e.before.store).2 r

end Ends

variable {σ : Type} [Custodian σ] {e : Exchange (Disturbed σ)} {r : Receipt}

/-- **An attempt goes on** through an exchange: one that is over stays so, and one that is underway
stays so, or is completed or taken back. -/
structure GoesOn (e : Exchange (Disturbed σ)) (r : Receipt) : Prop where
  ended : Over e.before.store r → Over e.after.store r
  underway : Underway e.before.store r →
    Underway e.after.store r ∨ Over e.after.store r ∧ (e.Completes r ∨ e.TakesBack r)

/-- What stays as it is goes on. -/
theorem GoesOn.of_stays (h : Stays e.before.store e.after.store r) : e.GoesOn r :=
  ⟨h.ended, .inl ∘ h.underway⟩

end Exchange

namespace Disturbed

variable {σ : Type} [Custodian σ]

/-- The store behind when a completion reaches it. -/
theorem goes_on_overtaken (d : Disturbed σ) (receipt : Receipt) (decision : Decision)
    (now : Instant) (r : Receipt) :
    (Over d.store r → Over (d.overtaken receipt now) r) ∧
    (Underway d.store r → Underway (d.overtaken receipt now) r ∨
      Over (d.overtaken receipt now) r ∧
        (Exchange.mk d (.complete receipt decision now)).TakesBack r) := by
  rw [overtaken]
  split
  · rename_i hplanned
    have hclaim := stays_claim (recoverStale (now.add hour) (now.add hour) d.store).2 receipt.job
      (now.add hour) r
    refine ⟨fun h => hclaim.ended (over_recoverStale h _ _), fun h => ?_⟩
    obtain hstill | hover := underway_recoverStale h (now.add hour) (now.add hour)
    · exact .inl (hclaim.underway hstill)
    · exact .inr ⟨hclaim.ended hover, h, _, _, if_pos hplanned, hover⟩
  · exact ⟨id, .inl⟩

/-- A look leaves attempts alone. -/
theorem goes_on_dueJobs (d : Disturbed σ) (now : Instant) (limit : Nat) (cap : Option Nat)
    (r : Receipt) : (Exchange.mk d (.dueJobs now limit cap)).GoesOn r := by
  refine .of_stays ?_
  refine disturb_cases (P := fun (x : _ × Disturbed σ) => Stays d.store x.2.store r)
    (fun _ => .refl _ r) ?_
  have hsame : (JobStore.dueJobs now limit cap d.store).2 = d.store :=
    Custodian.dueJobs_same now limit cap d.store
  show Stays d.store (JobStore.dueJobs now limit cap d.store).2 r
  rw [hsame]
  exact .refl _ r

/-- A claim leaves attempts alone, also if somebody else claims the job first. -/
theorem goes_on_claim (d : Disturbed σ) (i : JobId) (now : Instant) (r : Receipt) :
    (Exchange.mk d (.claim i now)).GoesOn r := by
  refine .of_stays ?_
  refine disturb_cases (P := fun (x : _ × Disturbed σ) => Stays d.store x.2.store r)
    (fun _ => .refl _ r) ?_
  cases d.planned? .claim with
  | none => exact stays_claim d.store i now r
  | some p =>
    cases p with
    | lose => exact .refl _ r
    | fail | reclaim => exact stays_claim d.store i now r
    | steal => exact (stays_claim d.store i now r).trans (stays_claim _ i now r)

/-- **A completion** ends the attempt of its receipt, unless it fails or somebody has taken the
attempt back. -/
theorem goes_on_complete (d : Disturbed σ) {receipt : Receipt} {decision : Decision} {now : Instant}
    (hcountable : (StoreCall.complete receipt decision now).Countable) (r : Receipt) :
    (Exchange.mk d (.complete receipt decision now)).GoesOn r := by
  have hafter : (Exchange.mk d (.complete receipt decision now)).after =
    (JobStore.complete receipt decision now d).2 := rfl
  obtain ⟨-, e, hfails⟩ | hreaches := d.complete_eq receipt decision now
  · refine .of_stays ?_
    rw [hafter, hfails]
    exact .refl _ r
  · obtain ⟨hover, hunderway⟩ := d.goes_on_overtaken receipt decision now r
    obtain ⟨hover', hunderway'⟩ := JobStore.goes_on_complete (d.overtaken receipt now) now
      hcountable r
    have hstore : (JobStore.complete receipt decision now d).2.store =
        (JobStore.complete receipt decision now (d.overtaken receipt now)).2 :=
      congrArg (fun x => x.2.store) hreaches
    rw [← hstore] at hover' hunderway'
    refine ⟨hover' ∘ hover, fun h => ?_⟩
    obtain hstill | ⟨hended, htaken⟩ := hunderway h
    · refine (hunderway' hstill).imp_right fun ⟨hended, hr, k, hk⟩ => ⟨hended, .inl ?_⟩
      refine ⟨decision, now, k, by rw [hr], Exchange.answer_complete_eq_ok_iff.mpr ?_⟩
      rw [hreaches]
      exact hk
    · exact .inr ⟨hover' hended, .inr htaken⟩

/-- A recovery leaves an attempt alone or takes it back. -/
theorem goes_on_recoverStale (d : Disturbed σ) (staleBefore now : Instant) (r : Receipt) :
    (Exchange.mk d (.recoverStale staleBefore now)).GoesOn r := by
  have hstore : (Exchange.mk d (.recoverStale staleBefore now)).after.store = d.store ∨
      (Exchange.mk d (.recoverStale staleBefore now)).after.store =
        (JobStore.recoverStale staleBefore now d.store).2 :=
    disturb_cases (P := fun (x : _ × Disturbed σ) => x.2.store = d.store ∨
      x.2.store = (JobStore.recoverStale staleBefore now d.store).2) (fun _ => .inl rfl) (.inr rfl)
  rcases hstore with hsame | hrecovered
  · refine .of_stays ?_
    rw [hsame]
    exact .refl _ r
  · refine ⟨fun h => ?_, fun h => ?_⟩
    · rw [hrecovered]
      exact over_recoverStale h staleBefore now
    · rw [hrecovered]
      refine (underway_recoverStale h staleBefore now).imp_right fun hover => ⟨hover, .inr ?_⟩
      exact ⟨h, staleBefore, now, rfl, hover⟩

end Disturbed

namespace Exchange

variable {σ : Type} [Custodian σ] {e : Exchange (Disturbed σ)} {r : Receipt}

/-- **Every call of a run, and every recovery, lets attempts go on.** -/
theorem goes_on (hcall : e.call.isOfRuns ∨ e.call.isRecovery) (hcountable : e.call.Countable)
    (r : Receipt) : e.GoesOn r := by
  obtain ⟨d, c⟩ := e
  cases c with
  | dueJobs now limit cap => exact d.goes_on_dueJobs now limit cap r
  | claim i now => exact d.goes_on_claim i now r
  | complete receipt decision now => exact d.goes_on_complete hcountable r
  | recoverStale staleBefore now => exact d.goes_on_recoverStale staleBefore now r
  | enqueue | claimDue | get | counts | deadLetters | purgeSucceeded =>
    exact absurd hcall (by simp [StoreCall.isOfRuns, StoreCall.isRecovery])

/-- **A completion that is answered with a job** ends the attempt of its receipt. -/
theorem Completes.ended (h : e.Completes r) (hcountable : e.call.Countable)
    (hr : Underway e.before.store r ∨ Over e.before.store r) : Over e.after.store r := by
  obtain ⟨d, c⟩ := e
  obtain ⟨decision, now, k, rfl, hanswer⟩ := h
  have hok := answer_complete_eq_ok_iff.mp hanswer
  show Over (JobStore.complete r decision now d).2.store r
  obtain ⟨-, e, hfails⟩ | hreaches := d.complete_eq r decision now
  · rw [hfails] at hok
    cases hok
  · rw [hreaches] at hok ⊢
    obtain ⟨hover, hunderway⟩ := d.goes_on_overtaken r decision now r
    have hstands : Underway (d.overtaken r now) r ∨ Over (d.overtaken r now) r :=
      hr.elim (fun h => (hunderway h).imp_right And.left) fun h => .inr (hover h)
    exact over_of_completed hok hstands hcountable

end Exchange

namespace Disturbed

variable {σ : Type} [Custodian σ] {d : Disturbed σ} {i : JobId} {now : Instant} {k : Job}

/-- A job is handed out for a claim that is answered with it. -/
theorem claim_of_mem_handsOut (h : k ∈ StoreCall.handsOut d (some (.claim i now))) :
    (JobStore.claim i now d).1 = .ok (some k) := by
  rcases hclaim : JobStore.claim i now d with ⟨answer, d'⟩
  rw [Run.handsOut_claim hclaim] at h
  rcases answer with e | _ | k'
  · cases h
  · cases h
  · rw [List.mem_singleton.mp h]

/-- **A claim that hands a job out** begins an attempt that was not known before. -/
theorem begins_of_mem_handsOut (h : k ∈ StoreCall.handsOut d (some (.claim i now))) :
    Underway (JobStore.claim i now d).2.store k.receipt ∧
      ¬ Underway d.store k.receipt ∧ ¬ Over d.store k.receipt := by
  have hanswer := claim_of_mem_handsOut h
  have hclaim : ∀ {s : σ}, (JobStore.claim i now s).1 = .ok (some k) →
      Underway (JobStore.claim i now s).2 k.receipt ∧ ¬ Underway s k.receipt ∧
        ¬ Over s k.receipt := begins_of_claimed
  revert hanswer
  refine disturb_cases (P := fun (x : _ × Disturbed σ) => x.1 = .ok (some k) →
    Underway x.2.store k.receipt ∧ ¬ Underway d.store k.receipt ∧ ¬ Over d.store k.receipt) ?_ ?_
  · exact fun _ => nofun
  · cases d.planned? .claim with
    | none => exact hclaim (s := d.store)
    | some p =>
      cases p with
      | lose => exact nofun
      | fail | reclaim => exact hclaim (s := d.store)
      | steal =>
        intro hanswer
        obtain ⟨hbegins, hnew, hnew'⟩ := hclaim (s := (JobStore.claim i now d.store).2) hanswer
        have hstolen := stays_claim d.store i now k.receipt
        exact ⟨hbegins, hnew ∘ hstolen.underway, hnew' ∘ hstolen.ended⟩

end Disturbed

end SyncJobs
