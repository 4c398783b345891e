import SyncJobs.Proofs.History
import SyncJobs.Store.Memory

/-!
# The life of a job

`Standing` is what tells where a job is in its life, and `Standing.Sound` is the invariant of all
jobs that are stored: *a job that may still run has an attempt left*. The ceiling itself
(`attempts ≤ maxAttempts`) would not be preserved, since a decision to retry and a recovery both
give the job back to the queue.

`Change` lists once what a call can do to one job. That changes keep the invariant
(`Change.sound`) and follow the edges of `Status.canBecome` (`Change.evolves`) is read off it, case
by case. The list leaves open how precisely a store keeps times: `round` is the time that it makes
of a given one.
-/

namespace SyncJobs

/-! ## Where a job stands -/

/-- **Where a job stands** in its life. -/
structure Standing where
  status : Status
  attempts : Int
  maxAttempts : Int
  lastError : Option String

namespace Standing

/-- **The invariant of a job's life.** -/
structure Sound (s : Standing) : Prop where
  /-- no more attempts than allowed -/
  within : s.attempts ≤ s.maxAttempts
  /-- a job that may still run has an attempt left, and an error exactly if one was made -/
  open_ : s.status = .pending ∨ s.status = .running →
    s.attempts < s.maxAttempts ∧ (s.lastError = none ↔ s.attempts = 0)
  /-- success needs an attempt and clears the error -/
  succeeded : s.status = .succeeded → 1 ≤ s.attempts ∧ s.lastError = none
  /-- failure for good needs an attempt and leaves an error -/
  deadLetter : s.status = .deadLetter → 1 ≤ s.attempts ∧ s.lastError ≠ none

/-- **One step of a job's life:** an edge between statuses, and one attempt more exactly if the
job was running. -/
structure Moves (s t : Standing) : Prop where
  edge : s.status.canBecome t.status
  counted : t.attempts = s.attempts + if s.status = .running then 1 else 0

end Standing

/-- Kinds of things that are stored for a job: jobs themselves, or rows of a table. -/
class Entry (ρ : Type) where
  /-- where the job of an entry stands -/
  Stands : ρ → Standing → Prop
  /-- two entries agree on all that was fixed when the job was stored -/
  SameOrigin : ρ → ρ → Prop

/-- An entry is unchanged, or the job made one step and kept its origin. -/
def Evolves {ρ : Type} [Entry ρ] (a b : ρ) : Prop :=
  b = a ∨ (∃ s t, Entry.Stands a s ∧ Entry.Stands b t ∧ s.Moves t) ∧ Entry.SameOrigin a b

namespace Job

/-- Where a job stands. -/
def standing (j : Job) : Standing := ⟨j.status, j.attempts.toNat, j.maxAttempts.toNat, j.lastError⟩

/-- Two jobs agree on all that was fixed when they were stored. -/
structure SameOrigin (j k : Job) : Prop where
  id : j.id = k.id
  account : j.account = k.account
  domain : j.domain = k.domain
  payload : j.payload = k.payload
  maxAttempts : j.maxAttempts = k.maxAttempts
  createdAt : j.createdAt = k.createdAt

theorem SameOrigin.trans {j k l : Job} (h : j.SameOrigin k) (h' : k.SameOrigin l) :
    j.SameOrigin l :=
  ⟨h.id.trans h'.id, h.account.trans h'.account, h.domain.trans h'.domain,
    h.payload.trans h'.payload, h.maxAttempts.trans h'.maxAttempts,
    h.createdAt.trans h'.createdAt⟩

/-- A claim changes nothing that was fixed. -/
theorem sameOrigin_start (j : Job) (now : Instant) : j.SameOrigin (j.start now) :=
  ⟨rfl, rfl, rfl, rfl, rfl, rfl⟩

/-- No more does a completion. -/
theorem sameOrigin_settle (j : Job) (d : Decision) (now : Instant) :
    j.SameOrigin (j.settle d now) := ⟨rfl, rfl, rfl, rfl, rfl, rfl⟩

instance : Entry Job := ⟨fun j s => j.standing = s, SameOrigin⟩

/-- Whether a decision keeps the ceiling of a job: one more try needs one more attempt after this
one. -/
def Permits (j : Job) (d : Decision) : Prop :=
  d.nextStatus = .pending → j.attempts.toNat + 1 < j.maxAttempts.toNat

/-- **Decisions keep the ceiling.** -/
theorem MayDecide.permits {j : Job} {d : Decision} (h : j.MayDecide d) : j.Permits d := by
  obtain ⟨policy, outcome, now, sample, h⟩ := h
  intro hd
  cases outcome with
  | success n =>
    obtain rfl := Option.some.inj h
    cases hd
  | permanent e =>
    obtain rfl := Option.some.inj h
    cases hd
  | transient e =>
    simp only [decide?] at h
    split at h
    · rename_i hr
      have hlt : (nextAttempt j.attempts).toNat < j.maxAttempts.toNat :=
        UInt32.lt_iff_toNat_lt.mp (of_decide_eq_true hr)
      have hmax := j.maxAttempts.toNat_lt
      rw [toNat_nextAttempt] at hlt
      omega
    · obtain rfl := Option.some.inj h
      cases hd

end Job

/-! ## Rounded times -/

/-- A decision with its time rounded. -/
def Decision.round (round : Instant → Instant) : Decision → Decision
  | retry t e => retry (round t) e
  | d => d

@[simp] theorem Decision.nextStatus_round (round : Instant → Instant) (d : Decision) :
    (d.round round).nextStatus = d.nextStatus := by cases d <;> rfl

@[simp] theorem Decision.error?_round (round : Instant → Instant) (d : Decision) :
    (d.round round).error? = d.error? := by cases d <;> rfl

/-- A new job with its times rounded. -/
def NewJob.round (round : Instant → Instant) (n : NewJob) : NewJob :=
  { n with runAfter := round n.runAfter, createdAt := round n.createdAt }

/-! ## What a call can do to a job -/

/-- **What a call does to the job with an id,** if there is one: before the call and after it. -/
inductive Change (round : Instant → Instant) (id : JobId) :
    StoreCall → Option Job → Option Job → Prop where
  | same (c : StoreCall) (b : Option Job) : Change round id c b b
  | stored (n : NewJob) (h : n.id = id) :
      Change round id (.enqueue n) none (some (n.round round).toPending)
  | started {c : StoreCall} {now : Instant} {j : Job} (h : c.claimTime? id = some now)
      (due : j.isDue (round now)) : Change round id c (some j) (some (j.start (round now)))
  | settled {j : Job} (d : Decision) (now : Instant) (running : j.status = .running) :
      Change round id (.complete j.receipt d now) (some j)
        (some (j.settle (d.round round) (round now)))
  | interrupted {staleBefore : Instant} {j : Job} (now : Instant)
      (stale : Memory.isStale (round staleBefore) j) :
      Change round id (.recoverStale staleBefore now) (some j) (some (j.interrupt (round now)))
  | purged {olderThan : Instant} {j : Job} (old : Memory.isPurgeable (round olderThan) j) :
      Change round id (.purgeSucceeded olderThan) (some j) none

/-- What a call must respect for a job to stay sound: a new job has an attempt, and the attempt of
a job is completed with a decision that keeps its ceiling. -/
def StoreCall.Fits (b : Option Job) : StoreCall → Prop
  | .enqueue n => 1 ≤ n.maxAttempts
  | .complete r d _ => ∀ j, b = some j → j.status = .running → j.receipt = r → j.Permits d
  | _ => True

/-- A job below its ceiling is counted one attempt more. -/
theorem Job.toNat_nextAttempt_of_lt {j : Job} (h : j.attempts.toNat < j.maxAttempts.toNat) :
    (nextAttempt j.attempts).toNat = j.attempts.toNat + 1 := by
  have hmax := j.maxAttempts.toNat_lt
  rw [SyncJobs.toNat_nextAttempt]
  omega

/-- A running job is below its ceiling. -/
theorem Standing.Sound.attempts_lt {j : Job} (h : j.standing.Sound) (hr : j.status = .running) :
    j.attempts.toNat < j.maxAttempts.toNat :=
  Int.ofNat_lt.mp (h.open_ (.inr hr)).1

/-- A running job is counted one attempt more, without passing its ceiling. -/
theorem Standing.Sound.toNat_nextAttempt {j : Job} (h : j.standing.Sound)
    (hr : j.status = .running) : (nextAttempt j.attempts).toNat = j.attempts.toNat + 1 :=
  Job.toNat_nextAttempt_of_lt (h.attempts_lt hr)

/-- A running job that has an attempt left after this one may wait again. -/
theorem Standing.Sound.settle {j : Job} {d : Decision} (now : Instant) (h : j.standing.Sound)
    (hr : j.status = .running) (hd : j.Permits d) : (j.settle d now).standing.Sound := by
  have hnext := h.toNat_nextAttempt hr
  have hlt := (h.open_ (.inr hr)).1
  simp only [Job.standing] at hlt
  cases d with
  | succeed n =>
    constructor <;> simp [Job.standing, Job.settle, Decision.nextStatus, Decision.error?, hnext]
    all_goals omega
  -- the one decision after which the job may run again
  | retry t e =>
    have hlt := hd rfl
    constructor <;> simp [Job.standing, Job.settle, Decision.nextStatus, Decision.error?, hnext]
    all_goals omega
  | deadLetter e =>
    constructor <;> simp [Job.standing, Job.settle, Decision.nextStatus, Decision.error?, hnext]
    all_goals omega

/-- An interrupted job waits again if it has an attempt left, and has failed for good if not. -/
theorem Standing.Sound.interrupt {j : Job} (now : Instant) (h : j.standing.Sound)
    (hr : j.status = .running) : (j.interrupt now).standing.Sound := by
  have hnext := h.toNat_nextAttempt hr
  have hlt := (h.open_ (.inr hr)).1
  simp only [Job.standing] at hlt
  by_cases hx : j.maxAttempts ≤ nextAttempt j.attempts
  -- this was the last attempt
  · constructor <;> simp [Job.standing, Job.interrupt, hx, hnext]
    all_goals omega
  · have hx' := hx
    rw [UInt32.le_iff_toNat_le, hnext] at hx'
    constructor <;> simp [Job.standing, Job.interrupt, hx, hnext]
    all_goals omega

/-- Only waiting jobs are due. -/
theorem Job.status_of_isDue {j : Job} {now : Instant} (h : j.isDue now) : j.status = .pending := by
  simp only [isDue, Bool.and_eq_true, decide_eq_true_eq] at h
  exact h.1

/-- Only running jobs are stale. -/
theorem Job.status_of_isStale {j : Job} {t : Instant} (h : Memory.isStale t j) :
    j.status = .running := by
  simp only [Memory.isStale, Bool.and_eq_true, decide_eq_true_eq] at h
  exact h.1

/-- Only jobs that succeeded are removed. -/
theorem Job.status_of_isPurgeable {j : Job} {t : Instant} (h : Memory.isPurgeable t j) :
    j.status = .succeeded := by
  simp only [Memory.isPurgeable, Bool.and_eq_true, decide_eq_true_eq] at h
  exact h.1

/-- A decision never leaves a job running. -/
theorem Decision.nextStatus_ne_running (d : Decision) : d.nextStatus ≠ .running := by
  cases d with
  | succeed | retry | deadLetter => exact nofun

/-- A step counts an attempt exactly if the job was running. -/
theorem Standing.Moves.toNat_attempts {j k : Job} (h : j.standing.Moves k.standing) :
    k.attempts.toNat = j.attempts.toNat + if j.status = .running then 1 else 0 := by
  have hcount : (k.attempts.toNat : Int) =
      j.attempts.toNat + if j.status = .running then 1 else 0 := h.counted
  by_cases hr : j.status = .running
  · rw [if_pos hr] at hcount ⊢
    omega
  · rw [if_neg hr] at hcount ⊢
    omega

variable {round : Instant → Instant} {id : JobId} {c : StoreCall} {b b' : Option Job}

/-- **Changes keep jobs sound.** -/
theorem Change.sound (h : Change round id c b b') (hc : c.Fits b)
    (hb : ∀ j, b = some j → j.standing.Sound) : ∀ j, b' = some j → j.standing.Sound := by
  cases h with
  | same => exact hb
  | stored n hn =>
    rintro _ ⟨⟩
    have hmax : 1 ≤ n.maxAttempts.toNat := UInt32.le_iff_toNat_le.mp hc
    constructor <;> simp [Job.standing, NewJob.toPending, NewJob.round]
    omega
  | @started _ now j hn due =>
    rintro _ ⟨⟩
    have hj := hb j rfl
    have hp := Job.status_of_isDue due
    -- a claim counts no attempt, so what holds of the waiting job holds of the running one
    have hopen := hj.open_ (.inl hp)
    exact ⟨hj.within, fun _ => hopen, by rintro ⟨⟩, by rintro ⟨⟩⟩
  | settled d now running =>
    rintro _ ⟨⟩
    refine (hb _ rfl).settle _ running ?_
    rw [Job.Permits, Decision.nextStatus_round]
    exact hc _ rfl running rfl
  | interrupted now stale =>
    rintro _ ⟨⟩
    exact (hb _ rfl).interrupt _ (Job.status_of_isStale stale)
  | purged old => rintro _ ⟨⟩

/-- **A job that is stored before and after a call made at most one step.** -/
theorem Change.evolves {j k : Job} (h : Change round id c (some j) (some k))
    (hj : j.standing.Sound) : Evolves j k := by
  cases h with
  | same => exact .inl rfl
  | started hn due =>
    have hp := Job.status_of_isDue due
    refine .inr ⟨⟨_, _, rfl, rfl, ?_, ?_⟩, j.sameOrigin_start _⟩
    · simp [Job.standing, Job.start, hp, Status.canBecome]
    · simp [Job.standing, Job.start, hp]
  | settled d now running =>
    have hnext := hj.toNat_nextAttempt running
    refine .inr ⟨⟨_, _, rfl, rfl, ?_, ?_⟩, j.sameOrigin_settle _ _⟩
    · simpa [Job.standing, Job.settle, running] using d.canBecome_nextStatus
    · simp [Job.standing, Job.settle, running, hnext]
  | interrupted now stale =>
    have running := Job.status_of_isStale stale
    have hnext := hj.toNat_nextAttempt running
    refine .inr ⟨⟨_, _, rfl, rfl, ?_, ?_⟩, ⟨rfl, rfl, rfl, rfl, rfl, rfl⟩⟩
    · simp only [Job.standing, Job.interrupt, running]
      split <;> rfl
    · simp [Job.standing, Job.interrupt, running, hnext]

/-- **Payloads stay as they were stored,** so that what holds of all new payloads holds of all. -/
theorem Change.payload {P : Payload → Prop} (h : Change round id c b b')
    (hb : ∀ j, b = some j → P j.payload) (hc : ∀ n, c = .enqueue n → P n.payload) :
    ∀ j, b' = some j → P j.payload := by
  cases h with
  | same => exact hb
  | stored n hn =>
    rintro _ ⟨⟩
    exact hc n rfl
  | @started _ now j hn due =>
    rintro _ ⟨⟩
    exact hb j rfl
  | @settled j d now running =>
    rintro _ ⟨⟩
    exact hb j rfl
  | @interrupted _ j now stale =>
    rintro _ ⟨⟩
    exact hb j rfl
  | purged old => rintro _ ⟨⟩

/-- Only a new job comes out of nothing. -/
theorem Change.of_none {k : Job} (h : Change round id c none (some k)) :
    ∃ n, c = .enqueue n ∧ n.id = id ∧ k = (n.round round).toPending := by
  cases h with
  | stored n hn => exact ⟨n, rfl, hn, rfl⟩

/-- Only a job that succeeded long enough ago is removed, and only by a purge. -/
theorem Change.of_removed {j : Job} (h : Change round id c (some j) none) :
    ∃ t, c = .purgeSucceeded t ∧ Memory.isPurgeable (round t) j := by
  cases h with
  | purged old => exact ⟨_, rfl, old⟩

end SyncJobs
