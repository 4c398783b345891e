import Mathlib.Data.List.Nodup
import SyncJobs.Proofs.Shelf

/-!
# Every attempt is counted

A history tells how often a job was claimed, completed and recovered. The number of attempts that
the job shows is the number of its completions and recoveries, and it was claimed once more exactly
if it is running (`Counted`). Since a job that may still run has an attempt left, it is never
claimed more often than it has attempts: not by any mix of retries, late completions, recoveries
and workers that never come back.

Claims, completions and recoveries are told by what they did to the job: a job starts or stops
running under them. The answers tell the same (`Told`) as long as none of the claims and completions
ends in an error (`History.told_iff`). The table withholds what it did to a job whose payload it
cannot read: the job is claimed without a word (`a_deep_attempt_is_not_told`).
-/

namespace SyncJobs

/-! ## What an exchange did to a job -/

/-- Whether a job is running. -/
def Standing.isRunning (s : Standing) : Bool := s.status = .running

/-- Whether the job with an id is running. -/
def Shelf.isRunning {σ : Type} [Shelf σ] (s : σ) (i : JobId) : Bool :=
  (Shelf.standing s i).any Standing.isRunning

/-- The id of the job that a call completes. -/
def StoreCall.completedId? : StoreCall → Option JobId
  | complete r _ _ => some r.job
  | _ => none

/-- Whether a call recovers jobs. -/
def StoreCall.isRecovery : StoreCall → Bool
  | recoverStale _ _ => true
  | _ => false

namespace Exchange

variable {σ : Type} [Shelf σ]

/-- **The job was claimed:** it began to run. -/
def claimed (i : JobId) (e : Exchange σ) : Bool :=
  (e.call.claimTime? i).isSome && !Shelf.isRunning e.before i && Shelf.isRunning e.after i

/-- **The job was completed:** it runs no more. -/
def completed (i : JobId) (e : Exchange σ) : Bool :=
  e.call.completedId? = some i && Shelf.isRunning e.before i && !Shelf.isRunning e.after i

/-- **The job was recovered:** it runs no more. -/
def recovered (i : JobId) (e : Exchange σ) : Bool :=
  e.call.isRecovery && Shelf.isRunning e.before i && !Shelf.isRunning e.after i

/-- Whether the answer says that the job was completed. -/
def confirms (i : JobId) (e : Exchange σ) : Bool :=
  e.call.completedId? = some i && e.answer.isOk

end Exchange

/-! ## Counts -/

section Counts

variable {σ : Type} [Shelf σ]

/-- **The attempts of a job are counted** where it stands after a history. -/
structure Counted (past : List (Exchange σ)) (i : JobId) (s : Standing) : Prop where
  /-- each claim is one attempt, counted or under way -/
  claims : (past.countP (Exchange.claimed i) : Int) =
    s.attempts + if s.status = .running then 1 else 0
  /-- attempts are counted by completions and recoveries -/
  ends : (past.countP (Exchange.completed i) + past.countP (Exchange.recovered i) : Int) =
    s.attempts
  /-- no job is claimed more often than it has attempts -/
  bounded : (past.countP (Exchange.claimed i) : Int) ≤ s.maxAttempts
  /-- nor is it handed out more often -/
  handed : ((handedOut past).countP (·.id = i) : Int) ≤ s.maxAttempts

/-- **Attempts are counted** in a history. -/
structure AllCounted (start : σ) (past : List (Exchange σ)) : Prop where
  stored : ∀ i s, Shelf.standing (current start past) i = some s → Counted past i s
  /-- the number of attempts of a job never decreases -/
  grows : ∀ later earlier, past = later ++ earlier → ∀ i s t,
    Shelf.standing (current start earlier) i = some s →
    Shelf.standing (current start past) i = some t → s.attempts ≤ t.attempts

/-- **The answers tell of all attempts.** -/
structure Told (past : List (Exchange σ)) (i : JobId) : Prop where
  claims : past.countP (Exchange.claimed i) = (handedOut past).countP (·.id = i)
  completions : past.countP (Exchange.completed i) = past.countP (Exchange.confirms i)

end Counts

/-! ## One exchange -/

/-- Whether a job that may be there is running. -/
def Job.runs (b : Option Job) : Bool := b.any (·.status = .running)

theorem Job.runs_some (j : Job) : runs (some j) = decide (j.status = .running) := rfl

/-- A recovery never leaves a job running. -/
theorem Job.status_interrupt_ne_running (j : Job) (now : Instant) :
    (j.interrupt now).status ≠ .running := by
  rw [interrupt]
  split <;> intro h <;> cases h

section Changes

variable {round : Instant → Instant} {i : JobId} {c : StoreCall} {b b' : Option Job}

/-- Jobs begin to run by claims only. -/
theorem Change.isSome_claimTime? (h : Change round i c b b') (hb : Job.runs b = false)
    (hb' : Job.runs b' = true) : (c.claimTime? i).isSome := by
  cases h with
  | same =>
    rw [hb] at hb'
    cases hb'
  | stored n hn => cases hb'
  | started hn due =>
    rw [hn]
    rfl
  | settled d now running =>
    rw [Job.runs_some, decide_eq_false_iff_not] at hb
    exact absurd running hb
  | interrupted now stale =>
    rw [Job.runs_some, decide_eq_false_iff_not] at hb
    exact absurd (Job.status_of_isStale stale) hb
  | purged old => cases hb'

/-- What a stored job gains by a change: one claim more and it runs, or one end more and one more
attempt. -/
theorem Change.counted {k : Job} (h : Change round i c b (some k))
    (hb : ∀ j, b = some j → j.id = i ∧ j.standing.Sound) {claims completions recoveries : Nat}
    (hnew : b = none → claims = 0 ∧ completions = 0 ∧ recoveries = 0)
    (hold : ∀ j, b = some j → claims = j.attempts.toNat + (Job.runs b).toNat ∧
      completions + recoveries = j.attempts.toNat) :
    claims + ((c.claimTime? i).isSome && !Job.runs b && Job.runs (some k)).toNat =
        k.attempts.toNat + (Job.runs (some k)).toNat ∧
      completions +
        (decide (c.completedId? = some i) && Job.runs b && !Job.runs (some k)).toNat +
        (recoveries + (c.isRecovery && Job.runs b && !Job.runs (some k)).toNat) =
        k.attempts.toNat := by
  cases h with
  | same =>
    obtain ⟨hclaims, hends⟩ := hold k rfl
    cases hruns : Job.runs (some k) <;> simp [hruns] at hclaims ⊢ <;> omega
  | stored n hn =>
    obtain ⟨hclaims, hcompletions, hrecoveries⟩ := hnew rfl
    subst hclaims hcompletions hrecoveries
    simp [Job.runs, NewJob.toPending]
  | @started _ now j hn due =>
    obtain ⟨hclaims, hends⟩ := hold j rfl
    have hwaiting : Job.runs (some j) = false := by
      simp [Job.runs_some, Job.status_of_isDue due]
    have hruns : Job.runs (some (j.start (round now))) = true := rfl
    have hattempts : (j.start (round now)).attempts = j.attempts := rfl
    simp [hwaiting] at hclaims
    simp [hwaiting, hruns, hattempts, hn, hclaims, hends]
  | @settled j d now running =>
    obtain ⟨hclaims, hends⟩ := hold j rfl
    obtain ⟨hid, hsound⟩ := hb j rfl
    have hruns : Job.runs (some j) = true := decide_eq_true running
    have hstops : Job.runs (some (j.settle (d.round round) (round now))) = false :=
      decide_eq_false (Decision.nextStatus_ne_running _)
    have hattempts : (j.settle (d.round round) (round now)).attempts.toNat =
        j.attempts.toNat + 1 := hsound.toNat_nextAttempt running
    have hcompletes : (StoreCall.complete j.receipt d now).completedId? = some i :=
      congrArg some hid
    simp [hruns] at hclaims
    simp [hruns, hstops, hattempts, hcompletes, StoreCall.isRecovery, hclaims]
    omega
  | @interrupted _ j now stale =>
    obtain ⟨hclaims, hends⟩ := hold j rfl
    obtain ⟨hid, hsound⟩ := hb j rfl
    have running := Job.status_of_isStale stale
    have hruns : Job.runs (some j) = true := decide_eq_true running
    have hstops : Job.runs (some (j.interrupt (round now))) = false :=
      decide_eq_false (j.status_interrupt_ne_running _)
    have hattempts : (j.interrupt (round now)).attempts.toNat = j.attempts.toNat + 1 :=
      hsound.toNat_nextAttempt running
    simp [hruns] at hclaims
    simp [hruns, hstops, hattempts, StoreCall.completedId?, StoreCall.isRecovery, hclaims]
    omega

end Changes

namespace Ledger

variable {σ : Type} [Shelf σ] {e : Exchange σ} {m m' : Memory} {i : JobId}

/-- A shelf shows which of the jobs that it keeps are running. -/
theorem isRunning_eq {s : σ} (h : Keeps s m) (i : JobId) :
    Shelf.isRunning s i = Job.runs (m.jobs.get? i) := by
  rw [Shelf.isRunning, Shelf.standing_eq i h]
  cases m.jobs.get? i <;> rfl

/-- A job that is handed out was claimed. -/
theorem Step.claimed_of_mem_handedOut (h : Step e m m') (hs : Keeps e.before m) {j : Job}
    (hj : j ∈ e.handedOut) : e.claimed j.id = true := by
  obtain ⟨now, hands⟩ := h.hands
  obtain ⟨k, hk, due, hstarted, -⟩ := hands.started j hj
  have hbefore : Job.runs (m.jobs.get? j.id) = false := by
    rw [hk, Job.runs_some, Job.status_of_isDue due]
    rfl
  have hafter : Job.runs (m'.jobs.get? j.id) = true := by
    rw [hstarted]
    rfl
  have hcall := (h.change j.id).isSome_claimTime? hbefore hafter
  rw [Exchange.claimed, isRunning_eq hs, isRunning_eq h.keeps, hcall, hbefore, hafter]
  rfl

/-- An exchange hands a job out at most once, and only if it claimed it. -/
theorem Step.countP_handedOut_le (h : Step e m m') (hs : Keeps e.before m) (i : JobId) :
    e.handedOut.countP (·.id = i) ≤ (e.claimed i).toNat := by
  obtain ⟨now, hands⟩ := h.hands
  have honce : e.handedOut.countP (·.id = i) ≤ 1 := by
    have hcount := List.nodup_iff_count_le_one.mp hands.nodup i
    rw [List.count_eq_countP, List.countP_map] at hcount
    exact hcount
  cases hclaimed : e.claimed i with
  | true => exact honce
  | false =>
    refine Nat.le_of_eq (List.countP_eq_zero.mpr fun j hj hid => ?_)
    have hj := h.claimed_of_mem_handedOut hs hj
    rw [of_decide_eq_true hid, hclaimed] at hj
    cases hj

/-! ## Histories -/

/-- **The invariant of counting.** -/
structure Tallies (past : List (Exchange σ)) (m : Memory) : Prop extends Tracks past m where
  /-- nothing happened to a job before it was stored -/
  unborn : ∀ i, i ∉ newIds past → past.countP (Exchange.claimed i) = 0 ∧
    past.countP (Exchange.completed i) = 0 ∧ past.countP (Exchange.recovered i) = 0
  stored : ∀ i j, m.jobs.get? i = some j →
    past.countP (Exchange.claimed i) = j.attempts.toNat + (Job.runs (some j)).toNat ∧
      past.countP (Exchange.completed i) + past.countP (Exchange.recovered i) = j.attempts.toNat
  given : ∀ i, (handedOut past).countP (·.id = i) ≤ past.countP (Exchange.claimed i)

/-- One exchange more. -/
theorem countP_cons_toNat {α : Type} (p : α → Bool) (a : α) (l : List α) :
    (a :: l).countP p = l.countP p + (p a).toNat := by
  rw [List.countP_cons]
  cases p a <;> rfl

/-- **The step of counting.** -/
theorem Tallies.step {past : List (Exchange σ)} {c : StoreCall} (h : Tallies past m)
    (hc : c.Allowed past) (hs : Step ⟨current start past, c⟩ m m') :
    Tallies (⟨current start past, c⟩ :: past) m' := by
  have htracks := h.toTracks.step hc hs
  refine ⟨htracks, fun i hi => ?_, fun i k hk => ?_, fun i => ?_⟩
  -- a job that is not stored by the call either is not there to be claimed
  · have hnone : ∀ {past' : List (Exchange σ)} {m : Memory}, Tracks past' m → i ∉ newIds past' →
        Job.runs (m.jobs.get? i) = false := by
      intro past' m htracks hi
      cases hj : m.jobs.get? i with
      | none => rfl
      | some j => exact absurd (htracks.known i j hj) hi
    have hi' : i ∉ newIds past := fun hmem => hi (mem_newIds_cons.mpr (.inr hmem))
    have hbefore := hnone h.toTracks hi'
    have hafter := hnone htracks hi
    obtain ⟨hclaims, hcompletions, hrecoveries⟩ := h.unborn i hi'
    simp only [countP_cons_toNat, hclaims, hcompletions, hrecoveries, Exchange.claimed,
      Exchange.completed, Exchange.recovered, isRunning_eq h.keeps, isRunning_eq hs.keeps,
      hbefore, hafter, Bool.and_false, Bool.false_and]
    exact ⟨rfl, rfl, rfl⟩
  · have hch := hs.change i
    rw [hk] at hch
    have hcounted := hch.counted
      (fun j hj => ⟨Memory.id_of_get? hj, h.sound.of_get? hj⟩)
      (fun hj => h.unborn i fun hmem => ?_) (fun j hj => hj ▸ h.stored i j hj)
    · simpa only [countP_cons_toNat, Exchange.claimed, Exchange.completed, Exchange.recovered,
        isRunning_eq h.keeps, isRunning_eq hs.keeps, hk] using hcounted
    -- a job that comes out of nothing has a new id
    · rw [hj] at hch
      obtain ⟨n, rfl, hn, -⟩ := hch.of_none
      exact hc.1 (hn ▸ hmem)
  · have hhanded := hs.countP_handedOut_le h.keeps i
    have hpast := h.given i
    rw [handedOut, List.flatMap_cons, List.countP_append, countP_cons_toNat]
    rw [handedOut] at hpast
    omega

/-- At the start nothing is counted. -/
theorem tallies_nil : Tallies (σ := σ) [] .empty where
  toTracks := tracks_nil
  unborn _ _ := ⟨rfl, rfl, rfl⟩
  stored := by rintro _ _ ⟨⟩
  given _ := Nat.le_refl _

end Ledger

/-- **Every history of a shelf keeps count.** -/
theorem History.tallies {σ : Type} [Shelf σ] {past : List (Exchange σ)}
    (h : History Ledger.start past) : ∃ m, Ledger.Tallies past m := by
  induction h with
  | nil => exact ⟨.empty, Ledger.tallies_nil⟩
  | step _ c hc ih =>
    obtain ⟨m, hm⟩ := ih
    obtain ⟨m', hs⟩ := Ledger.step hm.keeps hm.sound c (hm.fitsIn hc)
    exact ⟨m', hm.step hc hs⟩

section Histories

variable {σ : Type} [Shelf σ] {past : List (Exchange σ)}

/-- What a history counts for a job that is stored at its end. -/
theorem History.counted (h : History Ledger.start past) {i : JobId} {s : Standing}
    (hs : Shelf.standing (current Ledger.start past) i = some s) : Counted past i s := by
  obtain ⟨m, hm⟩ := h.tallies
  rw [Shelf.standing_eq i hm.keeps] at hs
  obtain ⟨j, hj, rfl⟩ := Option.map_eq_some_iff.mp hs
  obtain ⟨hclaims, hends⟩ := hm.stored i j hj
  have hsound := hm.sound.of_get? hj
  have hmax : past.countP (Exchange.claimed i) ≤ j.maxAttempts.toNat := by
    have hwithin := hsound.within
    have hopen := hsound.open_
    simp only [Job.standing] at hwithin hopen
    rw [hclaims, Job.runs_some]
    by_cases running : j.status = .running
    -- the attempt that is under way is one that was left
    · have hlt := (hopen (.inr running)).1
      simp only [running, decide_true, Bool.toNat_true]
      omega
    · simp only [running, decide_false, Bool.toNat_false]
      omega
  refine ⟨?_, ?_, Int.ofNat_le.mpr hmax, Int.ofNat_le.mpr (Nat.le_trans (hm.given i) hmax)⟩
  · rw [hclaims, Job.runs_some]
    by_cases running : j.status = .running <;> simp [Job.standing, running]
  · exact congrArg Int.ofNat hends

/-- **In every history attempts are counted.** -/
theorem History.allCounted (h : History Ledger.start past) : AllCounted Ledger.start past := by
  refine ⟨fun i s hs => h.counted hs, ?_⟩
  rintro later earlier rfl i s t hs ht
  -- the number of attempts is a count of exchanges, and there are only more of them
  have hearlier := (h.of_append.counted hs).ends
  have hlater := (h.counted ht).ends
  rw [List.countP_append, List.countP_append] at hlater
  omega

end Histories

/-! ## What answers tell -/

/-- The job was claimed or completed, and the answer is an error. -/
def Exchange.withholds {σ : Type} [Shelf σ] (i : JobId) (e : Exchange σ) : Bool :=
  (e.claimed i || e.completed i) && !e.answer.isOk

namespace Ledger

variable {σ : Type} [Shelf σ] {m m' : Memory}

/-- **A claim that answers tells what it claims.** -/
theorem told_claim {i : JobId} {now : Instant} {s : σ} (hs : Keeps s m) (hm : m.Sound)
    {found : Option Job} (h : (JobStore.claim i now s).1 = .ok found) {k : JobId}
    (hbefore : Job.runs (m.jobs.get? k) = false)
    (hafter : Job.runs ((m.claim i (round σ now)).2.jobs.get? k) = true) :
    ∃ j ∈ found, j.id = k := by
  have hanswer := h.symm.trans (keeps_claim i now hs hm).1
  rw [Memory.claim_eq] at hanswer hafter
  cases hj : (m.jobs.get? i).filter (·.isDue (round σ now)) with
  | none =>
    simp only [hj, Option.isSome_none, Bool.false_eq_true, if_false] at hafter
    rw [hbefore] at hafter
    cases hafter
  | some j =>
    have hget : m.jobs.get? i = some j := (Option.filter_eq_some_iff.mp hj).1
    simp only [hj, Option.isSome_some, if_true, Memory.get?_modify] at hafter
    by_cases hk : k = i
    · obtain ⟨j', rfl, hread⟩ : ∃ j', found = some j' ∧
          (j.start (round σ now)).readWith (reread σ) = .ok j' := by
        rw [hj, Option.map_some, Job.readFound] at hanswer
        cases hread : (j.start (round σ now)).readWith (reread σ) with
        | error e => rw [hread] at hanswer; cases hanswer
        | ok j' => rw [hread] at hanswer; exact ⟨j', Except.ok.inj hanswer, rfl⟩
      obtain ⟨p, -, rfl⟩ := Job.readWith_eq_ok.mp hread
      have hid : j.id = i := Memory.id_of_get? hget
      exact ⟨_, rfl, hid.trans hk.symm⟩
    · rw [if_neg hk, hbefore] at hafter
      cases hafter

/-- Claims one after the other that answer tell what they claim. -/
theorem told_claimEach {now : Instant} {is : List JobId} {s : σ} (hs : Keeps s m) (hm : m.Sound)
    {js : List Job} (h : (JobStore.claimEach now is s).1 = .ok js) :
    ∃ m', Keeps (JobStore.claimEach now is s).2 m' ∧ ∀ k, Job.runs (m.jobs.get? k) = false →
      Job.runs (m'.jobs.get? k) = true → ∃ j ∈ js, j.id = k := by
  induction is generalizing s m js with
  | nil =>
    refine ⟨m, hs, fun k hbefore hafter => ?_⟩
    rw [hbefore] at hafter
    cases hafter
  | cons i is ih =>
    have hc := Memory.claims_claim i (round σ now) m
    have hk := (keeps_claim i now hs hm).2
    rw [JobStore.claimEach_cons] at h ⊢
    cases hcl : JobStore.claim i now s with
    | mk a s₁ =>
      rw [hcl] at h hk
      cases a with
      | error e => cases h
      | ok found =>
        cases hrest : (JobStore.claimEach now is s₁).1 with
        | error e => simp [hrest, Except.map] at h
        | ok js' =>
          simp only [hrest, Except.map, Except.ok.injEq] at h
          subst h
          obtain ⟨m', hk', htold⟩ := ih hk (sound_of_claims hm hc) hrest
          refine ⟨m', hk', fun k hbefore hafter => ?_⟩
          cases hmid : Job.runs ((m.claim i (round σ now)).2.jobs.get? k) with
          | true =>
            obtain ⟨j, hj, hid⟩ := told_claim hs hm (congrArg Prod.fst hcl) hbefore hmid
            exact ⟨j, List.mem_append_left _ (Option.mem_toList.mpr hj), hid⟩
          | false =>
            obtain ⟨j, hj, hid⟩ := htold k hmid hafter
            exact ⟨j, List.mem_append_right _ hj, hid⟩

variable {e : Exchange σ} {i : JobId}

/-- **A job that is claimed is handed out,** if the call answers. -/
theorem mem_handedOut_of_claimed (hs : Keeps e.before m) (hm : m.Sound)
    (hok : e.answer.isOk) (hclaimed : e.claimed i = true) : ∃ j ∈ e.handedOut, j.id = i := by
  obtain ⟨s, c⟩ := e
  simp only [Exchange.claimed, Bool.and_eq_true, Bool.not_eq_true'] at hclaimed
  obtain ⟨⟨hcall, hbefore⟩, hafter⟩ := hclaimed
  rw [isRunning_eq hs] at hbefore
  cases c with
  | claim k now =>
    rw [Exchange.answer, StoreCall.run, StoreCall.isOk_answering] at hok
    cases hfound : (JobStore.claim k now s).1 with
    | error err =>
      rw [hfound] at hok
      cases hok
    | ok found =>
      have hanswer : (Exchange.mk s (.claim k now)).answer = .ok (.found found) :=
        congrArg (Except.map StoreAnswer.found) hfound
      have hafter' : Job.runs ((m.claim k (round σ now)).2.jobs.get? i) = true :=
        (isRunning_eq (keeps_claim k now hs hm).2 i).symm.trans hafter
      obtain ⟨j, hj, hid⟩ := told_claim hs hm hfound hbefore hafter'
      simp only [Exchange.handedOut, hanswer]
      exact ⟨j, Option.mem_toList.mpr hj, hid⟩
  | claimDue now limit =>
    rw [Exchange.answer, StoreCall.run, StoreCall.isOk_answering] at hok
    have hrun : JobStore.claimDue now limit s = _ := JobStore.claimDue_eq now limit s
    have hsame := dueJobs_state s now limit none
    cases hlook : JobStore.dueJobs now limit none s with
    | mk a s₁ =>
      rw [hlook] at hrun hsame
      obtain rfl : s₁ = s := hsame
      rw [hrun] at hok
      cases a with
      | error err => cases hok
      | ok candidates =>
        cases hjs : (JobStore.claimEach now (candidates.map Job.id) s₁).1 with
        | error err =>
          simp only [hjs] at hok
          cases hok
        | ok js =>
          obtain ⟨m', hk, htold⟩ := told_claimEach hs hm hjs
          have hanswer : (Exchange.mk s₁ (.claimDue now limit)).answer = .ok (.jobs js) :=
            (congrArg (fun r => r.1.map StoreAnswer.jobs) hrun).trans
              (congrArg (Except.map StoreAnswer.jobs) hjs)
          have hafter' : (Exchange.mk s₁ (.claimDue now limit)).after =
              (JobStore.claimEach now (candidates.map Job.id) s₁).2 := congrArg Prod.snd hrun
          rw [hafter', isRunning_eq hk] at hafter
          simp only [Exchange.handedOut, hanswer]
          exact htold i hbefore hafter
  | enqueue | dueJobs | complete | get | counts | deadLetters | recoverStale | purgeSucceeded =>
    cases hcall

/-- **A job is handed out** exactly if it is claimed and the call answers. -/
theorem Step.countP_handedOut (h : Step e m m') (hs : Keeps e.before m) (hm : m.Sound)
    (i : JobId) :
    e.handedOut.countP (·.id = i) = (e.claimed i && e.answer.isOk).toNat := by
  have hle := h.countP_handedOut_le hs i
  cases hanswer : e.answer with
  | error err =>
    rw [Exchange.handedOut_of_error hanswer, Except.isOk, Except.toBool, Bool.and_false]
    rfl
  | ok a =>
    have hok : e.answer.isOk := congrArg Except.isOk hanswer
    rw [← hanswer, hok, Bool.and_true]
    cases hclaimed : e.claimed i with
    | false =>
      rw [hclaimed] at hle
      exact Nat.le_zero.mp hle
    | true =>
      rw [hclaimed] at hle
      obtain ⟨j, hj, hid⟩ := mem_handedOut_of_claimed hs hm hok hclaimed
      exact Nat.le_antisymm hle (List.countP_pos_iff.mpr ⟨j, hj, decide_eq_true hid⟩)

/-- **A completion is confirmed** exactly if it took place and the call answers. -/
theorem Step.confirms_eq (h : Step e m m') (hs : Keeps e.before m) (hm : m.Sound)
    (hc : e.call.FitsIn m) (i : JobId) : e.confirms i = (e.completed i && e.answer.isOk) := by
  obtain ⟨s, c⟩ := e
  rw [Exchange.completed, Exchange.confirms, Bool.and_assoc, Bool.and_assoc]
  cases c with
  | complete r d now =>
    by_cases hid : r.job = i
    · subst hid
      have hm' := h.completes r d now rfl
      congr 1
      rw [isRunning_eq hs, isRunning_eq h.keeps, hm']
      cases hmem : (m.complete r (d.round (round σ)) (round σ now)).1 with
      | ok k =>
        obtain ⟨j, hj, running, hatt, rfl⟩ := Memory.complete_eq_ok hmem
        have hstops : Job.runs ((m.complete r (d.round (round σ)) (round σ now)).2.jobs.get?
            r.job) = false := by
          simp only [Memory.complete, hj, running, hatt, ne_eq, not_true_eq_false, if_false,
            Memory.get?_modify, if_true, Option.map_some]
          exact decide_eq_false (Decision.nextStatus_ne_running _)
        rw [hj, hstops, Job.runs_some, running]
        simp
      | error err =>
        have hrefused := (refuses_complete r d now hs hm hmem).2
        have hnot : (Exchange.mk s (.complete r d now)).answer.isOk = false := by
          rw [Exchange.answer, StoreCall.run, StoreCall.isOk_answering, hrefused]
          cases Job.readFound (reread σ) (m.jobs.get? r.job) <;> rfl
        rw [hnot, Bool.and_false, Bool.and_false]
    · simp [StoreCall.completedId?, hid]
  | enqueue | dueJobs | claim | claimDue | get | counts | deadLetters | recoverStale
    | purgeSucceeded => rfl

end Ledger

section Told

variable {σ : Type} [Shelf σ] {past : List (Exchange σ)}

/-- **What the answers tell:** of the claims and completions of a job, those that answered. -/
theorem History.countP_told (h : History Ledger.start past) (i : JobId) :
    (handedOut past).countP (·.id = i) =
      past.countP (fun e => e.claimed i && e.answer.isOk) ∧
    past.countP (Exchange.confirms i) =
      past.countP (fun e => e.completed i && e.answer.isOk) := by
  induction h with
  | nil => exact ⟨rfl, rfl⟩
  | @step past h c hc ih =>
    obtain ⟨m, hm⟩ := h.tracks
    obtain ⟨m', hs⟩ := Ledger.step hm.keeps hm.sound c (hm.fitsIn hc)
    obtain ⟨hhanded, hconfirmed⟩ := ih
    have hone := hs.countP_handedOut hm.keeps hm.sound i
    have hcompleted := hs.confirms_eq hm.keeps hm.sound (hm.fitsIn hc) i
    rw [handedOut] at hhanded
    simp only [handedOut, List.flatMap_cons, List.countP_append, Ledger.countP_cons_toNat, hone,
      hhanded, hconfirmed, hcompleted]
    exact ⟨Nat.add_comm _ _, trivial⟩

/-- A narrower test counts as many items exactly if they all pass it. -/
theorem countP_eq_countP_and_iff {α : Type} {p q : α → Bool} {l : List α} :
    l.countP p = l.countP (fun a => p a && q a) ↔ ∀ a ∈ l, p a → q a := by
  rw [← List.countP_filter, List.countP_eq_countP_filter_add l p q, Nat.add_eq_left,
    List.countP_eq_zero]
  simp only [List.mem_filter, Bool.not_eq_true, and_imp]
  refine forall₂_congr fun a _ => ?_
  cases p a <;> cases q a <;> simp

/-- **The answers tell of all attempts of a job** exactly if none of its claims and completions
ended in an error. -/
theorem History.told_iff (h : History Ledger.start past) (i : JobId) :
    Told past i ↔ ∀ e ∈ past, e.withholds i = false := by
  obtain ⟨hhanded, hconfirmed⟩ := h.countP_told i
  have hsplit : (∀ e ∈ past, e.withholds i = false) ↔
      (∀ e ∈ past, e.claimed i → e.answer.isOk) ∧ ∀ e ∈ past, e.completed i → e.answer.isOk := by
    rw [← forall₂_and]
    refine forall₂_congr fun e _ => ?_
    rw [Exchange.withholds]
    cases e.claimed i <;> cases e.completed i <;> cases e.answer.isOk <;> simp
  rw [hsplit, ← countP_eq_countP_and_iff, ← countP_eq_countP_and_iff, ← hhanded, ← hconfirmed]
  exact ⟨fun htold => ⟨htold.claims, htold.completions⟩, fun ⟨h₁, h₂⟩ => ⟨h₁, h₂⟩⟩

end Told

/-! ### Payloads that can be read back -/

/-- All payloads of a store can be read back. -/
def Ledger.Readable (σ : Type) [Ledger σ] (m : Memory) : Prop :=
  ∀ i j, m.jobs.get? i = some j → ∃ p, reread σ j.payload = .ok p

/-- All payloads that were stored in a history can be read back. -/
def AllReadable {σ : Type} [Ledger σ] (past : List (Exchange σ)) : Prop :=
  ∀ e ∈ past, ∀ n, e.call = .enqueue n → ∃ p, Ledger.reread σ n.payload = .ok p

namespace Ledger

variable {σ : Type} [Shelf σ] {m m' : Memory}

/-- Claims start jobs, whose payloads stay as they were. -/
theorem Readable.of_claims {now : Instant} (h : Readable σ m) (hc : Memory.Claims now m m') :
    Readable σ m' := by
  intro i
  have hch : Change id i (.claimDue now 0) (m.jobs.get? i) (m'.jobs.get? i) :=
    hc.change fun _ => rfl
  exact hch.payload (P := fun p => ∃ q, reread σ p = .ok q) (h i) (by rintro _ ⟨⟩)

/-- A claim answers. -/
theorem Readable.claim (hr : Readable σ m) (hm : m.Sound) {s : σ} (hs : Keeps s m) (i : JobId)
    (now : Instant) : ∃ found, (JobStore.claim i now s).1 = .ok found := by
  have hanswer := (keeps_claim i now hs hm).1
  rw [Memory.claim_eq] at hanswer
  cases hj : (m.jobs.get? i).filter (·.isDue (round σ now)) with
  | none =>
    rw [hj] at hanswer
    exact ⟨none, hanswer⟩
  | some j =>
    rw [hj] at hanswer
    obtain ⟨p, hp⟩ := hr i j (Option.filter_eq_some_iff.mp hj).1
    exact ⟨_, hanswer.trans (Job.readFound_some hp)⟩

/-- Claims one after the other answer. -/
theorem Readable.claimEach (hr : Readable σ m) (hm : m.Sound) {s : σ} (hs : Keeps s m)
    (now : Instant) (is : List JobId) : ∃ js, (JobStore.claimEach now is s).1 = .ok js := by
  induction is generalizing s m with
  | nil => exact ⟨[], rfl⟩
  | cons i is ih =>
    have hc := Memory.claims_claim i (round σ now) m
    obtain ⟨found, hfound⟩ := hr.claim hm hs i now
    obtain ⟨js, hjs⟩ := ih (hr.of_claims hc) (sound_of_claims hm hc) (keeps_claim i now hs hm).2
    rw [JobStore.claimEach_cons]
    cases hclaim : JobStore.claim i now s with
    | mk answer s' =>
      rw [hclaim] at hfound hjs
      obtain rfl : answer = .ok found := hfound
      exact ⟨found.toList ++ js, congrArg (Except.map (found.toList ++ ·)) hjs⟩

variable {e : Exchange σ}

/-- **Nothing is withheld** as long as all payloads can be read back. -/
theorem Step.withholds_of_readable (h : Step e m m') (hs : Keeps e.before m) (hm : m.Sound)
    (hc : e.call.FitsIn m) (hr : Readable σ m) (i : JobId) : e.withholds i = false := by
  obtain ⟨s, c⟩ := e
  cases c with
  | claim k now =>
    obtain ⟨found, hfound⟩ := hr.claim hm hs k now
    have hok : (Exchange.mk s (.claim k now)).answer.isOk := by
      rw [Exchange.answer, StoreCall.run, StoreCall.isOk_answering, hfound]
      rfl
    rw [Exchange.withholds, hok, Bool.not_true, Bool.and_false]
  | claimDue now limit =>
    have hrun := JobStore.claimDue_eq now limit s
    have hsame := dueJobs_state s now limit none
    cases hlook : JobStore.dueJobs now limit none s with
    | mk a s₁ =>
      rw [hlook] at hrun hsame
      obtain rfl : s₁ = s := hsame
      cases a with
      -- without a list nothing is claimed
      | error err =>
        have hafter : (Exchange.mk s₁ (.claimDue now limit)).after = s₁ := congrArg Prod.snd hrun
        rw [Exchange.withholds, Exchange.claimed, Exchange.completed, hafter]
        simp [StoreCall.completedId?]
      | ok candidates =>
        obtain ⟨js, hjs⟩ := hr.claimEach hm hs now (candidates.map Job.id)
        have hok : (Exchange.mk s₁ (.claimDue now limit)).answer.isOk := by
          rw [Exchange.answer, StoreCall.run, StoreCall.isOk_answering, hrun, hjs]
          rfl
        rw [Exchange.withholds, hok, Bool.not_true, Bool.and_false]
  | complete r d now =>
    cases hmem : (m.complete r (d.round (round σ)) (round σ now)).1 with
    | ok k =>
      obtain ⟨j, hj, -, -, rfl⟩ := Memory.complete_eq_ok hmem
      obtain ⟨p, hp⟩ := hr r.job j hj
      have hread := (keeps_complete r d now hs hm (hc.fits r.job) hmem).1
      rw [Job.readWith, show reread σ (j.settle _ _).payload = .ok p from hp] at hread
      have hok : (Exchange.mk s (.complete r d now)).answer.isOk := by
        rw [Exchange.answer, StoreCall.run, StoreCall.isOk_answering, hread]
        rfl
      rw [Exchange.withholds, hok, Bool.not_true, Bool.and_false]
    | error err =>
      have hafter : (Exchange.mk s (.complete r d now)).after = s :=
        (refuses_complete r d now hs hm hmem).1
      rw [Exchange.withholds, Exchange.claimed, Exchange.completed, hafter]
      simp [StoreCall.claimTime?]
  | enqueue | dueJobs | get | counts | deadLetters | recoverStale | purgeSucceeded => rfl

end Ledger

/-- **The answers tell of all attempts,** if all payloads can be read back. -/
theorem History.told {σ : Type} [Shelf σ] {past : List (Exchange σ)}
    (h : History Ledger.start past) (hr : AllReadable past) (i : JobId) : Told past i := by
  have hall : ∃ m, Ledger.Tracks past m ∧ Ledger.Readable σ m ∧
      ∀ e ∈ past, e.withholds i = false := by
    induction h with
    | nil => exact ⟨.empty, Ledger.tracks_nil, by rintro _ _ ⟨⟩, by rintro _ ⟨⟩⟩
    | @step past _ c hc ih =>
      obtain ⟨m, hm, hreadable, hnone⟩ := ih fun e he => hr e (List.mem_cons_of_mem _ he)
      obtain ⟨m', hs⟩ := Ledger.step hm.keeps hm.sound c (hm.fitsIn hc)
      refine ⟨m', hm.step hc hs, fun k => ?_, List.forall_mem_cons.mpr ⟨?_, hnone⟩⟩
      · exact (hs.change k).payload (P := fun p => ∃ q, Ledger.reread σ p = .ok q) (hreadable k)
          (hr _ List.mem_cons_self)
      · exact hs.withholds_of_readable hm.keeps hm.sound (hm.fitsIn hc) hreadable _
  obtain ⟨-, -, -, hnone⟩ := hall
  exact (h.told_iff i).mpr hnone

/-! ## Both stores -/

/-- **Both stores count every attempt,** in every history: no job is claimed or handed out more
often than it has attempts. In memory the answers tell of all attempts. Those of the table tell of
all attempts of a job exactly if no claim and no completion of it ended in an error; there is none
if the table can read back the payloads that it was given. -/
theorem attempts_are_counted (inMemory : List (Exchange Memory))
    (inTable : List (Exchange Table)) :
    (History Memory.empty inMemory → AllCounted .empty inMemory ∧ ∀ i, Told inMemory i) ∧
    (History Table.empty inTable →
      AllCounted .empty inTable ∧
      (∀ i, Told inTable i ↔ ∀ e ∈ inTable, e.withholds i = false) ∧
      (AllReadable inTable → ∀ i, Told inTable i)) :=
  ⟨fun h => ⟨h.allCounted, h.told fun _ _ n _ => ⟨n.payload, rfl⟩⟩,
    fun h => ⟨h.allCounted, h.told_iff, h.told⟩⟩

/-- The attempt of a plain job is counted in both stores, and their answers tell of it. -/
theorem plain_attempt_is_counted :
    (AllCounted .empty (replay Memory.empty (firstAttempt .plain .epoch 1)) ∧
      ∀ i, Told (replay Memory.empty (firstAttempt .plain .epoch 1)) i) ∧
    (AllCounted .empty (replay Table.empty (firstAttempt .plain .epoch 1)) ∧
      ∀ i, Told (replay Table.empty (firstAttempt .plain .epoch 1)) i) := by
  have hmemory : History Memory.empty (replay Memory.empty (firstAttempt .plain .epoch 1)) :=
    History.firstAttempt 1 (by decide) (by decide) rfl
  have htable : History Table.empty (replay Table.empty (firstAttempt .plain .epoch 1)) :=
    History.firstAttempt 1 (by decide) (by decide) rfl
  have hreadable : AllReadable (replay Table.empty (firstAttempt .plain .epoch 1)) := by
    intro e he n hn
    simp only [firstAttempt, replay, List.mem_cons, List.not_mem_nil, or_false] at he
    rcases he with rfl | rfl | rfl
    · cases hn
    · cases hn
    · cases hn
      exact ⟨.null, rfl⟩
  obtain ⟨inMemory, inTable⟩ := attempts_are_counted
    (replay Memory.empty (firstAttempt .plain .epoch 1))
    (replay Table.empty (firstAttempt .plain .epoch 1))
  exact ⟨inMemory hmemory, (inTable htable).1, (inTable htable).2.2 hreadable⟩

/-- A table with a single job that is due and has nested arrays as its payload. -/
def nestedTable (n : Nat) : Table := current .empty (replay .empty [.enqueue (.nested n)])

/-- The job is queued, and then claimed. -/
def nestedAttempt (n : Nat) : List StoreCall := [.claim ⟨1⟩ .epoch, .enqueue (.nested n)]

/-- If the arrays are nested deeper than the reader goes, the claim fails and hands nothing out. -/
theorem handedOut_nestedAttempt {n : Nat} (h : Json.maxDepth < n) :
    (∃ e, (JobStore.claim ⟨1⟩ .epoch (nestedTable n)).1 = .error e) ∧
      handedOut (replay Table.empty (nestedAttempt n)) = [] := by
  obtain ⟨e, he⟩ := NewJob.reread_nested_fails_iff.mpr h
  have hmax : 1 ≤ (NewJob.nested n).maxAttempts := by
    show (1 : UInt32) ≤ 1
    decide
  have hdue : Ledger.round Table (NewJob.nested n).runAfter ≤ Ledger.round Table .epoch := by
    show Instant.epoch.floor ≤ Instant.epoch.floor
    decide
  have hclaim : (JobStore.claim ⟨1⟩ .epoch (nestedTable n)).1 = .error e := by
    have hfirst := Ledger.claim_first hmax hdue
    rw [Job.readFound_of_error he] at hfirst
    exact hfirst
  have hanswer : (Exchange.mk (nestedTable n) (.claim ⟨1⟩ .epoch)).answer = .error e := by
    simp only [Exchange.answer, StoreCall.run, StoreCall.answering, hclaim, Except.map]
  refine ⟨⟨e, hclaim⟩, List.flatMap_eq_nil_iff.mpr fun x hx => ?_⟩
  obtain rfl | rfl := List.mem_pair.mp hx
  · exact Exchange.handedOut_of_error hanswer
  · rfl

/-- **A deep attempt is not told:** the claim starts the job and answers with an error. So the job
runs, with no attempt counted, and was never handed out. The store in memory hands it out. -/
theorem a_deep_attempt_is_not_told :
    let past := replay Table.empty (nestedAttempt 128)
    History Table.empty past ∧
    ((Shelf.standing (current .empty past) ⟨1⟩).map fun s => (s.status, s.attempts)) =
      some (.running, 0) ∧
    (∃ e, (JobStore.claim ⟨1⟩ .epoch (nestedTable 128)).1 = .error e) ∧
    handedOut past = [] ∧ ¬ Told past ⟨1⟩ ∧
    (handedOut (replay Memory.empty (nestedAttempt 128))).map Job.id = [⟨1⟩] := by
  intro past
  have hpast : History Table.empty past :=
    (History.nil.step (.enqueue (.nested 128)) ⟨List.not_mem_nil, by decide⟩).step
      (.claim ⟨1⟩ .epoch) trivial
  obtain ⟨hclaim, hhanded⟩ := handedOut_nestedAttempt (n := 128) (by decide)
  refine ⟨hpast, by decide +kernel, hclaim, hhanded, fun htold => ?_, by decide +kernel⟩
  have hclaimed := htold.claims
  rw [hhanded] at hclaimed
  revert hclaimed
  decide +kernel

end SyncJobs
