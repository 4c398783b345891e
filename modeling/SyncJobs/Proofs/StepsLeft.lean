import Mathlib.Data.List.Flatten
import SyncJobs.Proofs.Moves

/-!
# Steps that are left to runs

The claims of a run pay for its steps. `Run.stepsLeft` tells how many steps a run has left without a
further claim, and a claim buys at most so many more as a whole pass takes (`Run.Move.stepsLeft`).
Each pass claims a job too (`Run.Move.passes`). So the claims of a run bound its steps and its
passes (`System.stepsLeft_applyAll`), and a run that is not over always has a step to make.
-/

namespace SyncJobs

/-! ## Steps of one run -/

/-- A pool grants no more permits than it has left. -/
theorem Pool.length_grant_le (p : Pool) (jobs : List Job) :
    (p.grant jobs).1.length ≤ p.available := by
  induction jobs generalizing p with
  | nil => exact Nat.zero_le _
  | cons j jobs ih =>
    rw [grant]
    split
    · exact Nat.zero_le _
    · rename_i havailable
      split
      · have hrest := ih (p.acquire (permitFor j))
        have hleft : (p.acquire (permitFor j)).available = p.available - 1 := by
          rw [available, available]
          exact (Nat.sub_sub p.limits.total p.usage.total 1).symm
        rw [List.length_cons]
        omega
      · exact ih p

theorem Pool.length_allocate_le (p : Pool) (jobs : List Job) :
    (p.allocate jobs).1.length ≤ p.limits.total :=
  Nat.le_trans (p.length_grant_le _) (Nat.sub_le _ _)

namespace Run

/-- How many jobs a run has claimed in its pass, before it ends its claims. -/
def started (r : Run) : Nat :=
  match r.phase with
  | .claiming _ _ n => n
  | _ => 0

/-- **How many steps are left to a run** that claims no further job, if a pool grants at most so
many permits at once: those of the pass, and two for each attempt in progress. -/
def stepsLeft (total : Nat) (r : Run) : Nat :=
  (match r.phase with
    | .idle => total + 3
    | .looked _ _ => total + 2
    | .claiming _ granted started => granted.length + 1 + if started = 0 then 0 else total + 4
    | .waiting => total + 4
    | .finished _ => 0) + 2 * r.batch.length + r.leaving.length

/-- **A run that is not over has a step to make.** -/
theorem exists_accepts {r : Run} (h : r.isFinished = false) : ∃ step, r.accepts step = true := by
  cases hphase : r.phase with
  | idle => exact ⟨.look 0 default, by simp only [accepts, hphase]⟩
  | looked now candidates => exact ⟨.allocate, by simp only [accepts, hphase]⟩
  | claiming now granted started =>
    cases granted with
    | nil => exact ⟨.launch, by simp only [accepts, hphase]⟩
    | cons g rest => exact ⟨.claim 0, by simp only [accepts, hphase]⟩
  | waiting =>
    cases hbatch : r.batch with
    | cons a batch =>
      refine ⟨.settle a.job.receipt (.success 0) default default, ?_⟩
      simp only [accepts, hbatch, List.find?_cons, decide_true, Option.isSome_some]
    | nil =>
      cases hleaving : r.leaving with
      | cons permit leaving => exact ⟨.release, by simp only [accepts, hleaving]; rfl⟩
      | nil => exact ⟨.join, by simp only [accepts, hphase, hbatch, hleaving]; rfl⟩
  | finished failure =>
    rw [isFinished, hphase] at h
    cases h

/-- An attempt that was found is in the batch, and leaves it. -/
theorem length_retire_lt {r : Run} {receipt : Receipt} {a : Attempt}
    (hfound : r.batch.find? (fun a => a.job.receipt = receipt) = some a) :
    (r.retire a).batch.length < r.batch.length := by
  refine List.length_filter_lt_length_iff_exists.mpr ⟨a, List.mem_of_find?_eq_some hfound, ?_⟩
  simp

end Run

/-- The jobs that a call hands out, if one is made. -/
def StoreCall.handsOut {σ : Type} [JobStore σ] (s : σ) (c : Option StoreCall) : List Job :=
  handedOut (c.map fun c => (⟨s, c⟩ : Exchange σ)).toList

namespace Run

variable {σ : Type} [JobStore σ] {rules : RunRules} {r r' : Run} {q q' : Queue σ} {step : Step}
  {c : Option StoreCall}

/-- A claim hands out the job that it is answered with. -/
theorem handsOut_claim {s s' : σ} {i : JobId} {now : Instant}
    {answer : Except StoreError (Option Job)} (h : JobStore.claim i now s = (answer, s')) :
    StoreCall.handsOut s (some (.claim i now)) = answer.toOption.join.toList := by
  have hanswer : (Exchange.mk s (.claim i now)).answer = answer.map .found :=
    congrArg (fun x => x.1.map StoreAnswer.found) h
  show handedOut [_] = _
  rw [handedOut, List.flatMap_singleton, Exchange.handedOut]
  simp only [hanswer]
  rcases answer with e | _ | j <;> rfl

theorem handsOut_claimed {s s' : σ} {i : JobId} {now : Instant} {j : Job}
    (h : JobStore.claim i now s = (.ok (some j), s')) :
    StoreCall.handsOut s (some (.claim i now)) = [j] :=
  handsOut_claim h

/-- **What a step costs.** A step that a run can make takes one from the steps that are left to it,
except that a claim buys the steps of a whole pass. -/
theorem Move.stepsLeft {total : Nat} (h : r.Move rules q step c r' q')
    (htotal : q.pool.limits.total = total) :
    r'.stepsLeft total + (if r.accepts step then 1 else 0) ≤
      r.stepsLeft total + (total + 6) * (StoreCall.handsOut q.store c).length := by
  have hone : (if r.accepts step then 1 else 0) ≤ 1 := by split <;> omega
  cases h with
  | ignored hignored =>
    rw [hignored]
    exact Nat.le_add_right _ _
  | closed hphase | unreadable hphase | nothingDue hphase =>
    simp only [Run.stepsLeft, hphase, finish]
    omega
  | looked hphase =>
    simp only [Run.stepsLeft, hphase]
    omega
  | granted hphase =>
    have hlength := q.pool.length_allocate_le ‹_›
    simp only [Run.stepsLeft, hphase, if_true]
    omega
  | gaveUp hphase =>
    simp only [Run.stepsLeft, hphase, List.length_nil, List.length_cons]
    omega
  | claimed hphase htime hclaim =>
    rw [handsOut_claimed hclaim]
    simp only [Run.stepsLeft, hphase, List.length_cons, List.length_append, List.length_nil]
    split <;> omega
  | missed hphase =>
    simp only [Run.stepsLeft, hphase, List.length_cons]
    omega
  | ended hphase =>
    simp only [Run.stepsLeft, hphase, finish]
    omega
  | launched hphase hsome =>
    simp only [Run.stepsLeft, hphase, if_neg hsome]
    omega
  | lost hfound | brokeDown hfound | refused hfound | completed hfound =>
    have hlength := length_retire_lt hfound
    simp only [Run.stepsLeft, retire, List.length_append, List.length_singleton] at hlength ⊢
    omega
  | released hleaving =>
    simp only [Run.stepsLeft, hleaving, List.length_cons]
    omega
  | joined hphase =>
    simp only [Run.stepsLeft, hphase]
    omega

/-- **Each pass claims a job.** -/
theorem Move.passes (h : r.Move rules q step c r' q') :
    r'.passes + r'.started ≤ r.passes + r.started + (StoreCall.handsOut q.store c).length := by
  cases h with
  | ignored => exact Nat.le_add_right _ _
  | closed hphase | unreadable hphase | nothingDue hphase | looked hphase | granted hphase
    | ended hphase | joined hphase =>
    simp only [Run.started, hphase, finish]
    omega
  | gaveUp hphase | missed hphase =>
    simp only [Run.started, hphase]
    omega
  | claimed hphase htime hclaim =>
    rw [handsOut_claimed hclaim]
    simp only [Run.started, hphase, List.length_singleton]
    omega
  | launched hphase hsome =>
    simp only [Run.started, hphase]
    omega
  | lost | brokeDown | refused | completed | released => exact Nat.le_add_right _ _

/-- Steps leave the limits of a pool alone. -/
theorem Move.limits (h : r.Move rules q step c r' q') : q'.pool.limits = q.pool.limits := by
  have hgrant : ∀ (p : Pool) (jobs : List Job), (p.grant jobs).2.limits = p.limits := by
    intro p jobs
    induction jobs generalizing p with
    | nil => rfl
    | cons j jobs ih =>
      rw [Pool.grant]
      split
      · rfl
      · split
        · exact ih _
        · exact ih p
  have hrelease : ∀ (ps : List Permit) (p : Pool), (p.releaseAll ps).limits = p.limits := by
    intro ps
    induction ps with
    | nil => exact fun _ => rfl
    | cons permit ps ih => exact fun p => ih (p.release permit)
  cases h with
  | ignored | closed | unreadable | nothingDue | looked | claimed | missed | ended | launched | lost
    | brokeDown | completed | refused | released | joined => rfl
  | granted => exact hgrant _ _
  | gaveUp => exact hrelease _ _

end Run

/-! ## Steps and claims of the runs of a system -/

/-- Whether an event is a step of the run with a number. -/
def Event.isOf (i : Nat) : Event → Bool
  | .step k _ => k = i
  | .recover _ _ => false

/-- Whether an event is a recovery. -/
def Event.isRecovery : Event → Bool
  | .step _ _ => false
  | .recover _ _ => true

namespace System

variable {σ : Type} [JobStore σ] {rules : RunRules}

/-- Whether an event is a step that the run with a number can make now. -/
def accepts (i : Nat) (e : Event) (s : System σ) : Bool :=
  match e with
  | .step k step => k = i && s.runs[i]?.any fun r => r.accepts step
  | .recover _ _ => false

/-- How many of the events are steps that the run with a number could make at the time. -/
def stepsOf (rules : RunRules) (i : Nat) : List Event → System σ → Nat
  | [], _ => 0
  | e :: events, s => (if s.accepts i e then 1 else 0) + stepsOf rules i events (s.apply rules e)

/-- **The jobs that were claimed** with success by the runs. -/
def claims (rules : RunRules) (events : List Event) (s : System σ) : List Job :=
  handedOut ((s.log rules events).map Prod.snd)

/-- The jobs that were claimed with success by the run with a number. -/
def claimsBy (rules : RunRules) (i : Nat) (events : List Event) (s : System σ) : List Job :=
  handedOut (((s.log rules events).filter fun x => x.1.isOf i).map Prod.snd)

theorem claims_cons (e : Event) (events : List Event) (s : System σ) :
    s.claims rules (e :: events) =
      StoreCall.handsOut s.queue.store (s.call? rules e) ++
        (s.apply rules e).claims rules events := by
  rw [claims, log, List.map_append, handedOut, List.flatMap_append]
  cases s.call? rules e <;> rfl

theorem claimsBy_cons (i : Nat) (e : Event) (events : List Event) (s : System σ) :
    s.claimsBy rules i (e :: events) =
      (if e.isOf i then StoreCall.handsOut s.queue.store (s.call? rules e) else []) ++
        (s.apply rules e).claimsBy rules i events := by
  rw [claimsBy, log, List.filter_append, List.map_append, handedOut, List.flatMap_append]
  congr 1
  cases s.call? rules e with
  | none =>
    split <;> rfl
  | some c =>
    by_cases hi : e.isOf i <;> simp [hi, StoreCall.handsOut, handedOut]

/-- The claims of one run are claims. -/
theorem length_claimsBy_le (i : Nat) (events : List Event) (s : System σ) :
    (s.claimsBy rules i events).length ≤ (s.claims rules events).length := by
  rw [claimsBy, claims, handedOut, handedOut, List.flatMap_map, List.flatMap_map]
  exact (List.filter_sublist.flatMap _).length_le

/-- **What the claims of a run pay for:** its steps and its passes. -/
theorem stepsLeft_applyAll (rules : RunRules) {total i : Nat} {r : Run} (events : List Event)
    {s : System σ} (htotal : s.queue.pool.limits.total = total) (hr : s.runs[i]? = some r) :
    ∃ r', (s.applyAll rules events).runs[i]? = some r' ∧
      r'.stepsLeft total + s.stepsOf rules i events ≤
        r.stepsLeft total + (total + 6) * (s.claimsBy rules i events).length ∧
      r'.passes + r'.started ≤ r.passes + r.started + (s.claimsBy rules i events).length := by
  induction events generalizing s r with
  | nil => exact ⟨r, hr, Nat.le_add_right _ _, Nat.le_add_right _ _⟩
  | cons e events ih =>
    have hstep : ∃ r₁, (s.apply rules e).runs[i]? = some r₁ ∧
        (s.apply rules e).queue.pool.limits.total = total ∧
        r₁.stepsLeft total + (if s.accepts i e then 1 else 0) ≤ r.stepsLeft total + (total + 6) *
          (if e.isOf i then StoreCall.handsOut s.queue.store (s.call? rules e) else []).length ∧
        r₁.passes + r₁.started ≤ r.passes + r.started +
          (if e.isOf i then StoreCall.handsOut s.queue.store (s.call? rules e) else []).length := by
      cases e with
      | recover staleBefore now =>
        exact ⟨r, hr, htotal, Nat.le_add_right _ _, Nat.le_add_right _ _⟩
      | step k step =>
        cases hk : s.runs[k]? with
        | none =>
          obtain ⟨hcall, happly⟩ := apply_step_of_none rules hk step
          have hki : ¬ k = i := by
            rintro rfl
            rw [hk] at hr
            cases hr
          rw [happly]
          exact ⟨r, hr, htotal, by simp [accepts, Event.isOf, hki], by simp [Event.isOf, hki]⟩
        | some r₂ =>
          obtain ⟨c, r', q', hmove, hcall, happly⟩ := apply_step rules hk step
          rw [happly, hcall]
          by_cases hki : k = i
          · subst hki
            obtain rfl := Option.some.inj (hk.symm.trans hr)
            refine ⟨r', ?_, hmove.limits ▸ htotal, ?_, ?_⟩
            · rw [List.getElem?_set_self (List.getElem?_eq_some_iff.mp hk).1]
            · simpa [accepts, Event.isOf, hk] using hmove.stepsLeft htotal
            · simpa [Event.isOf] using hmove.passes
          · refine ⟨r, ?_, hmove.limits ▸ htotal, ?_, ?_⟩
            · rw [List.getElem?_set_ne hki]
              exact hr
            · simp [accepts, Event.isOf, hki]
            · simp [Event.isOf, hki]
    obtain ⟨r₁, hr₁, htotal₁, hsteps₁, hpasses₁⟩ := hstep
    obtain ⟨r', hr', hsteps, hpasses⟩ := ih htotal₁ hr₁
    refine ⟨r', hr', ?_, ?_⟩
    · rw [claimsBy_cons, List.length_append, Nat.mul_add, stepsOf]
      omega
    · rw [claimsBy_cons, List.length_append]
      omega

end System

end SyncJobs
