import SyncJobs.Attempt
import SyncJobs.Verdict

/-!
# One deadline for an attempt

An attempt looks an account up and calls a collaborator, and both share one deadline. `Course` lists
the seven ways in which this can go, and an attempt takes one of them (`Course.execute_watched`).
Which one, is told by what the world would answer and when (`MeetsDeadline`): an attempt never takes
longer than it may, the collaborator is called only for an account that was found in time, and an
outcome is permanent only if the job cannot be done. What merely took too long, could not be looked up
or was called and broke down may be tried again. There is an outcome unless the look-up breaks down in
time.

To tell which calls were made, an attempt is watched (`Watched`).
-/

namespace SyncJobs

/-! ## Watching an attempt -/

/-- A call of the collaborator of a domain. -/
structure Called where
  domain : Domain
  account : Account
  payload : Payload

/-- **A world that is watched:** it does as the world would, and the calls are noted down. -/
structure Watched (ω : Type) where
  world : ω
  calls : List Called

instance {ω : Type} [World ω] : World (Watched ω) where
  now time w := World.now time w.world
  lag time w := World.lag time w.world
  lookup i w := World.lookup i w.world
  call d a p w :=
    let (call, world) := World.call d a p w.world
    (call, ⟨world, w.calls ++ [⟨d, a, p⟩]⟩)
  finish call w :=
    let (ending, world) := World.finish call w.world
    (ending, ⟨world, w.calls⟩)

section Attempts

variable {ω : Type} [World ω] {registry : Registry} {timeout : Duration} {job : Job} {w : ω}

/-! ## Doing all that is left -/

namespace Stage

variable {left : Nat} {stage : Stage}

/-- Nothing is left to do. -/
theorem follow_of_ended {outcome : Outcome} {w' : ω}
    (h : stage.advance registry timeout job left w = (.ended outcome, w')) :
    stage.follow registry timeout job left w = ((some outcome, 0), w') := by
  rw [follow]
  split
  · rename_i h'
    rw [h] at h'
    cases h'
    rfl
  · rename_i h'
    rw [h] at h'
    cases h'
  · rename_i h'
    rw [h] at h'
    cases h'

/-- The attempt breaks down. -/
theorem follow_of_brokeDown {w' : ω}
    (h : stage.advance registry timeout job left w = (.brokeDown, w')) :
    stage.follow registry timeout job left w = ((none, 0), w') := by
  rw [follow]
  split
  · rename_i h'
    rw [h] at h'
    cases h'
  · rename_i h'
    rw [h] at h'
    cases h'
    rfl
  · rename_i h'
    rw [h] at h'
    cases h'

variable {outcome : Option Outcome} {spent : Nat}

/-- The attempt goes on. -/
theorem follow_of_later {delay : Nat} {next : Stage} {w' w'' : ω}
    (h : stage.advance registry timeout job left w = (.later delay next, w'))
    (hnext : next.follow registry timeout job (left - delay) w' = ((outcome, spent), w'')) :
    stage.follow registry timeout job left w = ((outcome, delay + spent), w'') := by
  rw [follow]
  split
  · rename_i h'
    rw [h] at h'
    cases h'
  · rename_i h'
    rw [h] at h'
    cases h'
  · rename_i h'
    rw [h] at h'
    cases h'
    rw [hnext]

theorem follow_closing (outcome : Outcome) :
    (closing outcome).follow registry timeout job left w = ((some outcome, 0), w) :=
  follow_of_ended rfl

theorem follow_answering {call : Call} {ending : Reply} {w' : ω}
    (hfinish : World.finish call w = (ending, w')) :
    (answering call).follow registry timeout job left w =
      ((some (.ofEnding ending), 0), w') := by
  have hadvance : (answering call).advance registry timeout job left w =
      (.later 0 (closing (.ofEnding ending)), w') := by
    rw [advance, hfinish]
  exact follow_of_later hadvance (follow_closing _)

/-- A call that is not over in time takes all the time that is left. -/
theorem follow_calling_late (registry : Registry) (timeout : Duration) {account : Account}
    {call : Call} {w' : ω} (hcall : World.call job.domain account job.payload w = (call, w'))
    (h : left < call.delay) :
    (calling account).follow registry timeout job left w =
      ((some (.timedOut timeout), left), w') := by
  have hadvance : (calling account).advance registry timeout job left w =
      (.later left (closing (.timedOut timeout)), w') := by
    rw [advance, hcall]
    exact if_pos h
  exact follow_of_later hadvance (follow_closing _)

/-- A call that is over in time. -/
theorem follow_calling {account : Account} {call : Call} {ending : Reply} {w' w'' : ω}
    (hcall : World.call job.domain account job.payload w = (call, w'))
    (hfinish : World.finish call w' = (ending, w'')) (h : call.delay ≤ left) :
    (calling account).follow registry timeout job left w =
      ((some (.ofEnding ending), call.delay), w'') := by
  have hintime : ¬ left < call.delay := Nat.not_lt.mpr h
  by_cases hnow : call.delay = 0
  · have hadvance : (calling account).advance registry timeout job left w =
        (.later 0 (closing (.ofEnding ending)), w'') := by
      simp only [advance, hcall, if_neg hintime, if_pos hnow, hfinish]
    rw [hnow]
    exact follow_of_later hadvance (follow_closing _)
  · have hadvance : (calling account).advance registry timeout job left w =
        (.later call.delay (answering call), w') := by
      simp only [advance, hcall, if_neg hintime, if_neg hnow]
    exact follow_of_later hadvance (follow_answering hfinish)

/-- A look-up that is not over in time takes all the time. -/
theorem follow_begin_late (hregistered : registry.has job.domain)
    (h : left < (World.lookup job.account w).delay) :
    begin.follow registry timeout job left w = ((some .lookupTimedOut, left), w) := by
  have hadvance : begin.advance registry timeout job left w =
      (.later left (closing .lookupTimedOut), w) := by
    simp only [advance, if_pos hregistered, if_pos h]
  exact follow_of_later hadvance (follow_closing _)

/-- A look-up that is over in time, and with it the attempt. -/
theorem follow_begin_over {finding : Finding} {delay : Nat} (hregistered : registry.has job.domain)
    (hlookup : World.lookup job.account w = ⟨delay, finding⟩) (h : delay ≤ left)
    (hover : ∀ {stage : Stage} {left : Nat},
      stage.advance registry timeout job left w = (afterLookup job finding, w) →
        stage.follow registry timeout job left w = ((outcome, 0), w)) :
    begin.follow registry timeout job left w = ((outcome, delay), w) := by
  have hintime : ¬ left < delay := Nat.not_lt.mpr h
  by_cases hnow : delay = 0
  · rw [hnow]
    refine hover ?_
    simp only [advance, if_pos hregistered, hlookup, if_neg hintime, if_pos hnow]
  · have hadvance : begin.advance registry timeout job left w =
        (.later delay (lookedUp finding), w) := by
      simp only [advance, if_pos hregistered, hlookup, if_neg hintime, if_neg hnow]
    exact follow_of_later hadvance (hover rfl)

/-- A look-up that is over in time and has found the account. -/
theorem follow_begin_found {account : Account} {delay : Nat} {w' : ω}
    (hregistered : registry.has job.domain)
    (hlookup : World.lookup job.account w = ⟨delay, .answered (.ok (some account))⟩)
    (h : delay ≤ left)
    (hrest : (calling account).follow registry timeout job (left - delay) w =
      ((outcome, spent), w')) :
    begin.follow registry timeout job left w = ((outcome, delay + spent), w') := by
  have hintime : ¬ left < delay := Nat.not_lt.mpr h
  by_cases hnow : delay = 0
  · obtain rfl := hnow
    have hadvance : begin.advance registry timeout job left w =
        (.later 0 (calling account), w) := by
      simp only [advance, if_pos hregistered, hlookup, if_neg hintime, if_true, afterLookup]
    exact follow_of_later hadvance hrest
  · have hadvance : begin.advance registry timeout job left w =
        (.later delay (lookedUp (.answered (.ok (some account)))), w) := by
      simp only [advance, if_pos hregistered, hlookup, if_neg hintime, if_neg hnow]
    refine follow_of_later hadvance ?_
    have hnext : (lookedUp (.answered (.ok (some account)))).follow registry timeout job
        (left - delay) w = ((outcome, 0 + spent), w') := follow_of_later rfl hrest
    rwa [Nat.zero_add] at hnext

end Stage

/-! ## Watching changes nothing -/

namespace Stage

/-- The calls that are made at a stage. -/
def calls (job : Job) : Stage → List Called
  | calling account => [⟨job.domain, account, job.payload⟩]
  | _ => []

/-- **The next thing is done** as if nobody watched. -/
theorem advance_watched (stage : Stage) (left : Nat) (w : Watched ω) :
    stage.advance registry timeout job left w =
      ((stage.advance registry timeout job left w.world).1,
        ⟨(stage.advance registry timeout job left w.world).2, w.calls ++ stage.calls job⟩) := by
  cases stage with
  | begin =>
    have hlookup : World.lookup job.account w = World.lookup job.account w.world := rfl
    simp only [advance, calls, List.append_nil, hlookup]
    by_cases hregistered : registry.has job.domain
    · by_cases hlate : left < (World.lookup job.account w.world).delay
      · simp only [if_pos hregistered, if_pos hlate]
      · by_cases hnow : (World.lookup job.account w.world).delay = 0
        · simp only [if_pos hregistered, if_neg hlate, if_pos hnow]
        · simp only [if_pos hregistered, if_neg hlate, if_neg hnow]
    · simp only [if_neg hregistered]
  | calling account =>
    have hcall : World.call job.domain account job.payload w =
        ((World.call job.domain account job.payload w.world).1,
          ⟨(World.call job.domain account job.payload w.world).2,
            w.calls ++ (calling account).calls job⟩) := rfl
    simp only [advance, hcall]
    split
    · rfl
    · split
      · rfl
      · rfl
  | answering call => simp only [advance, calls, List.append_nil]; rfl
  | lookedUp | closing => simp only [advance, calls, List.append_nil]

/-- **All that is left is done** as if nobody watched. -/
theorem follow_watched (stage : Stage) (left : Nat) (w : Watched ω) :
    stage.follow registry timeout job left w.world =
      ((stage.follow registry timeout job left w).1,
        (stage.follow registry timeout job left w).2.world) := by
  fun_induction follow registry timeout job left stage w with
  | case1 left stage w outcome w' h =>
    rw [advance_watched] at h
    obtain ⟨hended, rfl⟩ := Prod.mk.inj h
    exact follow_of_ended (Prod.ext hended rfl)
  | case2 left stage w w' h =>
    rw [advance_watched] at h
    obtain ⟨hbrokeDown, rfl⟩ := Prod.mk.inj h
    exact follow_of_brokeDown (Prod.ext hbrokeDown rfl)
  | case3 left stage w delay next w' h outcome spent w'' hnext ih =>
    rw [advance_watched] at h
    obtain ⟨hlater, rfl⟩ := Prod.mk.inj h
    rw [hnext] at ih
    exact follow_of_later (Prod.ext hlater rfl) ih

end Stage

/-! ## The courses of an attempt -/

/-- **The ways in which an attempt may go:** its outcome if there is one, the time it takes, and the
calls that are made. -/
inductive Course (registry : Registry) (timeout : Duration) (job : Job) (w : ω) :
    Option Outcome → Nat → List Called → Prop where
  | noCollaborator (h : ¬ registry.has job.domain) :
      Course registry timeout job w (some (.noCollaborator job.domain)) 0 []
  | lookupTimedOut (h : registry.has job.domain)
      (late : timeout.millis < (World.lookup job.account w).delay) :
      Course registry timeout job w (some .lookupTimedOut) timeout.millis []
  | lookupBrokeDown {delay : Nat} {message : Option String} (h : registry.has job.domain)
      (lookup : World.lookup job.account w = ⟨delay, .brokeDown message⟩)
      (done : delay ≤ timeout.millis) :
      Course registry timeout job w none delay []
  | lookupFailed {delay : Nat} {f : Failure} (h : registry.has job.domain)
      (lookup : World.lookup job.account w = ⟨delay, .answered (.error f)⟩)
      (done : delay ≤ timeout.millis) :
      Course registry timeout job w (some (.lookupFailed f)) delay []
  | noAccount {delay : Nat} (h : registry.has job.domain)
      (lookup : World.lookup job.account w = ⟨delay, .answered (.ok none)⟩)
      (done : delay ≤ timeout.millis) :
      Course registry timeout job w (some (.noAccount job.account)) delay []
  | timedOut {delay : Nat} {account : Account} (h : registry.has job.domain)
      (lookup : World.lookup job.account w = ⟨delay, .answered (.ok (some account))⟩)
      (done : delay ≤ timeout.millis)
      (late : timeout.millis < delay + (World.call job.domain account job.payload w).1.delay) :
      Course registry timeout job w (some (.timedOut timeout)) timeout.millis
        [⟨job.domain, account, job.payload⟩]
  | ended {delay : Nat} {account : Account} {call : Call} {w' : ω} (h : registry.has job.domain)
      (lookup : World.lookup job.account w = ⟨delay, .answered (.ok (some account))⟩)
      (call_eq : World.call job.domain account job.payload w = (call, w'))
      (done : delay + call.delay ≤ timeout.millis) :
      Course registry timeout job w (some (.ofEnding (World.finish call w').1))
        (delay + call.delay) [⟨job.domain, account, job.payload⟩]

/-- There always is one. -/
theorem exists_course (registry : Registry) (timeout : Duration) (job : Job) (w : ω) :
    ∃ outcome spent calls, Course registry timeout job w outcome spent calls := by
  by_cases hregistered : registry.has job.domain
  case neg => exact ⟨_, _, _, .noCollaborator hregistered⟩
  rcases hlookup : World.lookup job.account w with ⟨delay, finding⟩
  by_cases hlate : timeout.millis < delay
  · exact ⟨_, _, _, .lookupTimedOut hregistered (hlookup ▸ hlate)⟩
  have hover : delay ≤ timeout.millis := Nat.le_of_not_lt hlate
  match finding with
  | .brokeDown message => exact ⟨_, _, _, .lookupBrokeDown hregistered hlookup hover⟩
  | .answered (.error f) => exact ⟨_, _, _, .lookupFailed hregistered hlookup hover⟩
  | .answered (.ok none) => exact ⟨_, _, _, .noAccount hregistered hlookup hover⟩
  | .answered (.ok (some account)) =>
    rcases hcall : World.call job.domain account job.payload w with ⟨call, w'⟩
    by_cases hlate' : timeout.millis < delay + call.delay
    · exact ⟨_, _, _, .timedOut hregistered hlookup hover (hcall ▸ hlate')⟩
    · exact ⟨_, _, _, .ended hregistered hlookup hcall (Nat.le_of_not_lt hlate')⟩

section Course

variable {outcome outcome' : Option Outcome} {spent spent' : Nat} {calls calls' : List Called}

/-- **An attempt that is watched takes its course.** -/
theorem Course.execute_watched (h : Course registry timeout job w outcome spent calls) :
    ∃ w', execute registry timeout job (⟨w, []⟩ : Watched ω) =
      ((outcome, spent), ⟨w', calls⟩) := by
  have hcalled {account : Account} {call : Call} {w' : ω}
      (hcall : World.call job.domain account job.payload w = (call, w')) :
      World.call job.domain account job.payload (⟨w, []⟩ : Watched ω) =
        (call, ⟨w', [⟨job.domain, account, job.payload⟩]⟩) := by
    show ((World.call job.domain account job.payload w).1,
      Watched.mk (World.call job.domain account job.payload w).2 _) = _
    rw [hcall]
    rfl
  cases h with
  | noCollaborator h => exact ⟨_, Stage.follow_of_ended (if_neg h)⟩
  | lookupTimedOut h late => exact ⟨_, Stage.follow_begin_late h late⟩
  | lookupBrokeDown h lookup done =>
    exact ⟨_, Stage.follow_begin_over h lookup done Stage.follow_of_brokeDown⟩
  | lookupFailed h lookup done | noAccount h lookup done =>
    exact ⟨_, Stage.follow_begin_over h lookup done Stage.follow_of_ended⟩
  | timedOut h lookup done late =>
    have hlate := Stage.follow_calling_late registry timeout (hcalled rfl)
      (Nat.sub_lt_left_of_lt_add done late)
    have hrest := Stage.follow_begin_found (w := (⟨w, []⟩ : Watched ω)) h lookup done hlate
    rw [Nat.add_sub_cancel' done] at hrest
    exact ⟨_, hrest⟩
  | ended h lookup call_eq done =>
    exact ⟨_, Stage.follow_begin_found (w := (⟨w, []⟩ : Watched ω)) h lookup (by omega)
      (Stage.follow_calling (hcalled call_eq) rfl (by omega))⟩

/-- There is only one course. -/
theorem Course.unique (h : Course registry timeout job w outcome spent calls)
    (h' : Course registry timeout job w outcome' spent' calls') :
    outcome = outcome' ∧ spent = spent' ∧ calls = calls' := by
  obtain ⟨w₁, h₁⟩ := h.execute_watched
  obtain ⟨w₂, h₂⟩ := h'.execute_watched
  have hsame := h₁.symm.trans h₂
  simp only [Prod.mk.injEq, Watched.mk.injEq] at hsame
  exact ⟨hsame.1.1, hsame.1.2, hsame.2.2⟩

end Course

/-! ## What decides the outcome -/

/-- An account is found before the deadline. -/
def FindsInTime (timeout : Duration) (job : Job) (w : ω) (account : Account) : Prop :=
  (World.lookup job.account w).delay < timeout.millis ∧
    (World.lookup job.account w).value = .answered (.ok (some account))

/-- How long the call of a collaborator takes. -/
def callDelay (job : Job) (w : ω) (account : Account) : Nat :=
  (World.call job.domain account job.payload w).1.delay

/-- The account is found, and the collaborator is over before the deadline, in one way or another. -/
def EndsInTime (timeout : Duration) (job : Job) (w : ω) (ending : Reply) : Prop :=
  ∃ account, FindsInTime timeout job w account ∧
    (World.lookup job.account w).delay + callDelay job w account < timeout.millis ∧
    (World.finish (World.call job.domain account job.payload w).1
      (World.call job.domain account job.payload w).2).1 = ending

/-- The collaborator succeeds before the deadline. -/
def Succeeds (registry : Registry) (timeout : Duration) (job : Job) (w : ω) (items : UInt64) :
    Prop :=
  registry.has job.domain ∧ EndsInTime timeout job w (.answered (.ok ⟨items⟩))

/-- **The job cannot be done:** nobody does such jobs, the account does not exist, or the
collaborator says so before the deadline. -/
inductive Impossible (registry : Registry) (timeout : Duration) (job : Job) (w : ω) : Prop where
  | noCollaborator (h : ¬ registry.has job.domain)
  | noAccount (done : (World.lookup job.account w).delay < timeout.millis)
      (missing : (World.lookup job.account w).value = .answered (.ok none))
  | refused {f : Failure} (kind : f.kind = .permanent)
      (h : EndsInTime timeout job w (.answered (.error f)))

/-- **The attempt fails, and another one may not:** the deadline is reached first, the look-up fails
for whatever reason, the collaborator breaks down, or says that the failure may pass. -/
inductive MayPass (registry : Registry) (timeout : Duration) (job : Job) (w : ω) : Prop where
  | lookupLate (h : registry.has job.domain)
      (late : timeout.millis < (World.lookup job.account w).delay)
  | lookupFailed {f : Failure} (h : registry.has job.domain)
      (done : (World.lookup job.account w).delay < timeout.millis)
      (failed : (World.lookup job.account w).value = .answered (.error f))
  | callLate {account : Account} (h : registry.has job.domain)
      (found : FindsInTime timeout job w account)
      (late : timeout.millis < (World.lookup job.account w).delay + callDelay job w account)
  | brokeDown {message : Option String} (h : registry.has job.domain)
      (ends : EndsInTime timeout job w (.brokeDown message))
  | failed {f : Failure} (kind : f.kind = .transient) (h : registry.has job.domain)
      (ends : EndsInTime timeout job w (.answered (.error f)))

/-- The look-up breaks down before the deadline. -/
def BreaksDown (registry : Registry) (timeout : Duration) (job : Job) (w : ω) : Prop :=
  registry.has job.domain ∧ (World.lookup job.account w).delay < timeout.millis ∧
    ∃ message, (World.lookup job.account w).value = .brokeDown message

/-- What an outcome tells about its attempt, and what it tells if there is none. -/
def Tells (registry : Registry) (timeout : Duration) (job : Job) (w : ω) : Option Outcome → Prop
  | some (.success items) => Succeeds registry timeout job w items
  | some (.permanent _) => Impossible registry timeout job w
  | some (.transient _) => MayPass registry timeout job w
  | none => BreaksDown registry timeout job w

/-- An account that is found in time leads to a call. -/
theorem FindsInTime.course {account : Account} (h : registry.has job.domain)
    (hfinds : FindsInTime timeout job w account) : ∃ outcome spent,
      Course registry timeout job w outcome spent [⟨job.domain, account, job.payload⟩] := by
  obtain ⟨hover, hfound⟩ := hfinds
  have hlookup := congrArg (Delayed.mk (World.lookup job.account w).delay) hfound
  by_cases hlate : timeout.millis < (World.lookup job.account w).delay + callDelay job w account
  · exact ⟨_, _, .timedOut h hlookup (Nat.le_of_lt hover) hlate⟩
  · exact ⟨_, _, .ended h hlookup rfl (Nat.le_of_not_lt hlate)⟩

theorem EndsInTime.course {ending : Reply} (h : registry.has job.domain)
    (hends : EndsInTime timeout job w ending) :
    ∃ spent calls, Course registry timeout job w (some (.ofEnding ending)) spent calls := by
  obtain ⟨account, ⟨-, hfound⟩, hover, rfl⟩ := hends
  exact ⟨_, _, .ended h (congrArg (Delayed.mk _) hfound) rfl (Nat.le_of_lt hover)⟩

theorem Impossible.course (h : Impossible registry timeout job w) :
    ∃ e spent calls, Course registry timeout job w (some (.permanent e)) spent calls := by
  by_cases hregistered : registry.has job.domain
  case neg => exact ⟨_, _, _, .noCollaborator hregistered⟩
  cases h with
  | noCollaborator h => exact absurd hregistered h
  | noAccount done missing =>
    exact ⟨_, _, _, .noAccount hregistered (congrArg (Delayed.mk _) missing) (Nat.le_of_lt done)⟩
  | @refused f kind h =>
    have houtcome : Outcome.ofEnding (.answered (.error f)) = .permanent f.reason := by
      simp only [Outcome.ofEnding, Outcome.ofAnswer, Outcome.ofFailure, kind]
    obtain ⟨spent, calls, hcourse⟩ := h.course hregistered
    exact ⟨_, spent, calls, houtcome ▸ hcourse⟩

theorem MayPass.course (h : MayPass registry timeout job w) :
    ∃ e spent calls, Course registry timeout job w (some (.transient e)) spent calls := by
  cases h with
  | lookupLate h late => exact ⟨_, _, _, .lookupTimedOut h late⟩
  | lookupFailed h done failed =>
    exact ⟨_, _, _, .lookupFailed h (congrArg (Delayed.mk _) failed) (Nat.le_of_lt done)⟩
  | callLate h found late =>
    exact ⟨_, _, _, .timedOut h (congrArg (Delayed.mk _) found.2) (Nat.le_of_lt found.1) late⟩
  | brokeDown h ends =>
    obtain ⟨spent, calls, hcourse⟩ := ends.course h
    exact ⟨_, spent, calls, hcourse⟩
  | @failed f kind h ends =>
    have houtcome : Outcome.ofEnding (.answered (.error f)) = .transient f.reason := by
      simp only [Outcome.ofEnding, Outcome.ofAnswer, Outcome.ofFailure, kind]
    obtain ⟨spent, calls, hcourse⟩ := ends.course h
    exact ⟨_, spent, calls, houtcome ▸ hcourse⟩

theorem BreaksDown.course (h : BreaksDown registry timeout job w) :
    ∃ spent calls, Course registry timeout job w none spent calls := by
  obtain ⟨hregistered, hover, message, hbrokeDown⟩ := h
  exact ⟨_, _, .lookupBrokeDown hregistered (congrArg (Delayed.mk _) hbrokeDown)
    (Nat.le_of_lt hover)⟩

/-- How long an attempt takes if it may take as long as it needs. -/
def timeNeeded (registry : Registry) (job : Job) (w : ω) : Nat :=
  if registry.has job.domain then
    (World.lookup job.account w).delay +
      match (World.lookup job.account w).value with
      | .answered (.ok (some account)) => callDelay job w account
      | _ => 0
  else 0

/-- **An attempt meets its deadline:** how long it takes, which calls are made, and what its outcome
is, if it has one. -/
structure MeetsDeadline (registry : Registry) (timeout : Duration) (job : Job) (w : ω)
    (outcome : Option Outcome) (spent : Nat) (calls : List Called) : Prop where
  /-- it takes the time that it needs, and no more than it may -/
  spent_eq : spent = min (timeNeeded registry job w) timeout.millis
  /-- the collaborator is called for an account that is found in time -/
  called : registry.has job.domain → ∀ account, FindsInTime timeout job w account →
    calls = [⟨job.domain, account, job.payload⟩]
  notCalled : ¬ (registry.has job.domain ∧ ∃ account, FindsInTime timeout job w account) →
    calls = []
  success_iff (items : UInt64) : outcome = some (.success items) ↔
    Succeeds registry timeout job w items
  permanent_iff : (∃ e, outcome = some (.permanent e)) ↔ Impossible registry timeout job w
  transient_iff : (∃ e, outcome = some (.transient e)) ↔ MayPass registry timeout job w
  /-- there is an outcome, unless the look-up breaks down in time -/
  none_iff : outcome = none ↔ BreaksDown registry timeout job w
  /-- as long as attempts are left, only a job that cannot be done is given up -/
  gives_up (policy : Backoff) (now : Instant) (sample : Binary64) (e : String) :
    (∃ o ∈ outcome, job.decide? policy o now sample = some (.deadLetter e)) → job.mayRetry →
      Impossible registry timeout job w

/-! ## Meeting the deadline -/

/-- Nothing is over at the very deadline. -/
structure OffDeadline (timeout : Duration) (job : Job) (w : ω) : Prop where
  lookup : (World.lookup job.account w).delay ≠ timeout.millis
  call : ∀ account, (World.lookup job.account w).value = .answered (.ok (some account)) →
    (World.lookup job.account w).delay + callDelay job w account ≠ timeout.millis

namespace Course

variable {outcome : Option Outcome} {spent : Nat} {calls : List Called}

theorem spent_eq (h : Course registry timeout job w outcome spent calls) :
    spent = min (timeNeeded registry job w) timeout.millis := by
  cases h with
  | noCollaborator h => simp only [timeNeeded, if_neg h, Nat.zero_min]
  | lookupTimedOut h late =>
    simp only [timeNeeded, if_pos h]
    omega
  | lookupBrokeDown h lookup done | lookupFailed h lookup done | noAccount h lookup done =>
    simp only [timeNeeded, if_pos h, lookup]
    omega
  | timedOut h lookup done late =>
    simp only [timeNeeded, if_pos h, lookup, callDelay]
    omega
  | ended h lookup call_eq done =>
    simp only [timeNeeded, if_pos h, lookup, callDelay, call_eq]
    omega

/-- A look-up that was over by the deadline was over before it. -/
theorem findsInTime {delay : Nat} {account : Account} (hoff : OffDeadline timeout job w)
    (lookup : World.lookup job.account w = ⟨delay, .answered (.ok (some account))⟩)
    (done : delay ≤ timeout.millis) : FindsInTime timeout job w account :=
  ⟨Nat.lt_of_le_of_ne (lookup ▸ done) hoff.lookup, congrArg Delayed.value lookup⟩

/-- So was a call. -/
theorem endsInTime {delay : Nat} {account : Account} {call : Call} {w' : ω}
    (hoff : OffDeadline timeout job w)
    (lookup : World.lookup job.account w = ⟨delay, .answered (.ok (some account))⟩)
    (call_eq : World.call job.domain account job.payload w = (call, w'))
    (done : delay + call.delay ≤ timeout.millis) :
    EndsInTime timeout job w (World.finish call w').1 := by
  have hover := hoff.call account (congrArg Delayed.value lookup)
  rw [lookup, callDelay, call_eq] at hover
  refine ⟨account, findsInTime hoff lookup (by omega), ?_, by rw [call_eq]⟩
  rw [lookup, callDelay, call_eq]
  exact Nat.lt_of_le_of_ne done hover

/-- Without an account that is found in time, nobody is called. -/
theorem calls_eq_nil (h : Course registry timeout job w outcome spent calls)
    (hoff : OffDeadline timeout job w)
    (hnone : ¬ (registry.has job.domain ∧ ∃ account, FindsInTime timeout job w account)) :
    calls = [] := by
  cases h with
  | noCollaborator | lookupTimedOut | lookupBrokeDown | lookupFailed | noAccount => rfl
  | timedOut h lookup done late =>
    exact absurd ⟨h, _, findsInTime hoff lookup done⟩ hnone
  | ended h lookup call_eq done =>
    exact absurd ⟨h, _, findsInTime hoff lookup (by omega)⟩ hnone

/-- **The outcome says what happened.** -/
theorem tells (h : Course registry timeout job w outcome spent calls)
    (hoff : OffDeadline timeout job w) : Tells registry timeout job w outcome := by
  cases h with
  | noCollaborator h => exact .noCollaborator h
  | lookupTimedOut h late => exact .lookupLate h late
  | lookupBrokeDown h lookup done =>
    have hover := Nat.lt_of_le_of_ne (lookup ▸ done) hoff.lookup
    exact ⟨h, hover, _, congrArg Delayed.value lookup⟩
  | lookupFailed h lookup done =>
    have hover := Nat.lt_of_le_of_ne (lookup ▸ done) hoff.lookup
    exact .lookupFailed h hover (congrArg Delayed.value lookup)
  | noAccount h lookup done =>
    have hover := Nat.lt_of_le_of_ne (lookup ▸ done) hoff.lookup
    exact .noAccount hover (congrArg Delayed.value lookup)
  | timedOut h lookup done late => exact .callLate h (findsInTime hoff lookup done) (lookup ▸ late)
  | @ended _ _ call w' h lookup call_eq done =>
    have hends := endsInTime hoff lookup call_eq done
    generalize (World.finish call w').1 = ending at hends ⊢
    match ending with
    | .brokeDown message => exact .brokeDown h hends
    | .answered (.ok ⟨items⟩) => exact ⟨h, hends⟩
    | .answered (.error ⟨.transient, reason⟩) => exact .failed rfl h hends
    | .answered (.error ⟨.permanent, reason⟩) => exact .refused rfl hends

/-- **Every course meets the deadline.** -/
theorem meetsDeadline (h : Course registry timeout job w outcome spent calls)
    (hoff : OffDeadline timeout job w) :
    MeetsDeadline registry timeout job w outcome spent calls := by
  have htells := h.tells hoff
  have himpossible : ∀ e, outcome = some (.permanent e) → Impossible registry timeout job w := by
    rintro e rfl
    exact htells
  refine ⟨h.spent_eq, fun hregistered account hfinds => ?_, h.calls_eq_nil hoff, fun items => ?_,
    ⟨fun ⟨e, he⟩ => himpossible e he, fun himp => ?_⟩, ⟨?_, fun hmay => ?_⟩, ⟨?_, fun hdown => ?_⟩,
    ?_⟩
  · obtain ⟨_, _, hcourse⟩ := hfinds.course hregistered
    exact (h.unique hcourse).2.2
  · refine ⟨?_, fun ⟨hregistered, hends⟩ => ?_⟩
    · rintro rfl
      exact htells
    · obtain ⟨_, _, hcourse⟩ := hends.course hregistered
      exact (h.unique hcourse).1
  · obtain ⟨e, _, _, hcourse⟩ := himp.course
    exact ⟨e, (h.unique hcourse).1⟩
  · rintro ⟨e, rfl⟩
    exact htells
  · obtain ⟨e, _, _, hcourse⟩ := hmay.course
    exact ⟨e, (h.unique hcourse).1⟩
  · rintro rfl
    exact htells
  · obtain ⟨_, _, hcourse⟩ := hdown.course
    exact (h.unique hcourse).1
  · rintro policy now sample e ⟨o, rfl, hdecide⟩ hretry
    cases o with
    | permanent e' => exact himpossible e' rfl
    | success items =>
      rw [Job.decide?] at hdecide
      cases hdecide
    | transient e' =>
      -- another try is due, so the job is not given up
      rw [Job.decide?, if_pos hretry, Option.map_eq_some_iff] at hdecide
      obtain ⟨_, -, hdecide⟩ := hdecide
      cases hdecide

end Course

end Attempts

/-! ## Two slow phases -/

/-- A world in which all accounts are the same one, looking it up takes a while, and so do calls,
which all end alike. -/
structure Tardy where
  account : Account
  lookup : Nat
  call : Nat
  ending : Reply

instance : World Tardy where
  now _ _ := .epoch
  lag _ _ := 0
  lookup _ w := ⟨w.lookup, .answered (.ok (some w.account))⟩
  call _ _ _ w := (⟨w.call, 0, w.ending⟩, w)
  finish call w := (call.ending, w)

/-- A look-up of 600 ms and a call of 600 ms. -/
def Tardy.twice : Tardy := ⟨⟨⟨1⟩, "imap", "A", "a@example.com"⟩, 600, 600, .answered (.ok ⟨1⟩)⟩

end SyncJobs
