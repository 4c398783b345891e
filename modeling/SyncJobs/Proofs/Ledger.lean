import Mathlib.Logic.Basic
import SyncJobs.Proofs.Lifecycle

/-!
# Stores that keep their jobs as the store in memory does

A `Ledger` is a store whose every operation does what the same operation does to jobs in memory,
up to three differences: how precisely times are kept (`round`), whether a payload can be read
back (`reread`), and what the state looks like (`Keeps`). Its laws say so, one operation at a time.

`Ledger.step` sums the laws up for all calls, the compound `claimDue` included: what a call does is
a `Change` for every job, and what it hands out are jobs that it started.
-/

namespace SyncJobs

/-- A started job is not due. -/
theorem Job.not_isDue_start (j : Job) (now t : Instant) : ¬ (j.start now).isDue t := by
  simp [isDue, start]

/-! ## Reading -/

/-- A job as it is read, if its payload can be read back. -/
def Job.readWith (reread : Payload → Except StoreError Payload) (j : Job) : Except StoreError Job :=
  (reread j.payload).map fun p => { j with payload := p }

/-- What is found, as it is read. -/
def Job.readFound (reread : Payload → Except StoreError Payload) :
    Option Job → Except StoreError (Option Job)
  | none => .ok none
  | some j => (j.readWith reread).map some

theorem Job.readWith_eq_ok {reread : Payload → Except StoreError Payload} {j k : Job} :
    j.readWith reread = .ok k ↔ ∃ p, reread j.payload = .ok p ∧ { j with payload := p } = k := by
  rw [readWith]
  cases reread j.payload <;> simp [Except.map]

/-- A job whose payload can be read is read. -/
theorem Job.readFound_some {reread : Payload → Except StoreError Payload} {j : Job} {p : Payload}
    (h : reread j.payload = .ok p) :
    Job.readFound reread (some j) = .ok (some { j with payload := p }) := by
  simp [readFound, readWith, h, Except.map]

theorem Job.readFound_of_error {reread : Payload → Except StoreError Payload} {j : Job}
    {e : StoreError} (h : reread j.payload = .error e) :
    Job.readFound reread (some j) = .error e := by
  rw [readFound, readWith, h]
  rfl

/-! ## The store in memory, job by job -/

namespace Memory

variable {round : Instant → Instant}

/-- All jobs of the store are sound. -/
def Sound (m : Memory) : Prop := ∀ j ∈ m.jobs.toList, j.standing.Sound

theorem Sound.of_get? {m : Memory} (h : m.Sound) {i : JobId} {j : Job}
    (hj : m.jobs.get? i = some j) : j.standing.Sound :=
  h j (Keyed.get?_eq_some_iff.mp hj).1

/-- Soundness may be shown id by id. -/
theorem sound_of_get? {m : Memory} (h : ∀ i j, m.jobs.get? i = some j → j.standing.Sound) :
    m.Sound :=
  fun j hj => h j.id j (Keyed.get?_key hj)

theorem id_of_get? {m : Memory} {i : JobId} {j : Job} (h : m.jobs.get? i = some j) : j.id = i :=
  (Keyed.get?_eq_some_iff.mp h).2

/-- Changing the job with one id leaves the others alone. -/
theorem get?_modify (m : Memory) (k i : JobId) (f : Job → Job) (hf : ∀ j, (f j).id = j.id) :
    (m.modify k f hf).jobs.get? i = if i = k then (m.jobs.get? i).map f else m.jobs.get? i := by
  rw [modify, Keyed.get?_update]
  cases h : m.jobs.get? i with
  | none => simp
  | some j => by_cases hk : i = k <;> simp [id_of_get? h, hk]

/-- Between two states, some due jobs were started and nothing else was done. -/
def Claims (now : Instant) (m m' : Memory) : Prop :=
  ∀ i, m'.jobs.get? i = m.jobs.get? i ∨
    ∃ j, m.jobs.get? i = some j ∧ j.isDue now ∧ m'.jobs.get? i = some (j.start now)

theorem Claims.trans {now : Instant} {m₁ m₂ m₃ : Memory} (h₁ : Claims now m₁ m₂)
    (h₂ : Claims now m₂ m₃) : Claims now m₁ m₃ := by
  intro i
  rcases h₂ i with he | ⟨j, hj, due, hs⟩
  · rw [he]
    exact h₁ i
  · rcases h₁ i with he | ⟨k, hk, -, hs'⟩
    · exact .inr ⟨j, he ▸ hj, due, hs⟩
    · obtain rfl := Option.some.inj (hj.symm.trans hs')
      exact absurd due (Job.not_isDue_start k now now)

/-- What a claim does and answers: it starts the job with the id if it is due. -/
theorem claim_eq (i : JobId) (now : Instant) (m : Memory) :
    m.claim i now = (((m.jobs.get? i).filter (·.isDue now)).map (Job.start now),
      if ((m.jobs.get? i).filter (·.isDue now)).isSome then
        m.modify i (Job.start now) (Job.id_start now) else m) := by
  rw [claim]
  cases m.jobs.get? i with
  | none => rfl
  | some j => by_cases h : j.isDue now <;> simp [Option.filter, h]

theorem claims_claim (k : JobId) (now : Instant) (m : Memory) : Claims now m (m.claim k now).2 := by
  intro i
  rw [claim]
  cases h : m.jobs.get? k with
  | none => exact .inl rfl
  | some j =>
    by_cases due : j.isDue now
    · simp only [due, if_true, get?_modify]
      by_cases hi : i = k
      · subst hi
        exact .inr ⟨j, h, due, by simp [h]⟩
      · exact .inl (if_neg hi)
    · simp [due]

/-- A completion that is not refused settles the attempt of its receipt. -/
theorem complete_eq_ok {m : Memory} {r : Receipt} {d : Decision} {now : Instant} {k : Job}
    (h : (m.complete r d now).1 = .ok k) : ∃ j, m.jobs.get? r.job = some j ∧
      j.status = .running ∧ j.attempts = r.attempts ∧ j.settle d now = k := by
  rw [complete] at h
  cases hj : m.jobs.get? r.job with
  | none => rw [hj] at h; cases h
  | some j =>
    rw [hj] at h
    simp only at h
    split at h
    · cases h
    · rename_i running
      split at h
      · cases h
      · rename_i current
        exact ⟨j, rfl, not_not.mp running, not_not.mp current, Except.ok.inj h⟩

/-- A refused completion changes nothing. -/
theorem complete_state_of_error (m : Memory) {r : Receipt} {d : Decision} {now : Instant}
    {e : StoreError} (h : (m.complete r d now).1 = .error e) : (m.complete r d now).2 = m := by
  rw [complete] at h ⊢
  cases hj : m.jobs.get? r.job with
  | none => rfl
  | some j =>
    rw [hj] at h
    simp only at h ⊢
    split
    · rfl
    · split
      · rfl
      · simp_all

/-! ### Changes -/

theorem Claims.change {now : Instant} {m m' : Memory} (h : Claims (round now) m m') {i : JobId}
    {c : StoreCall} (hc : m'.jobs.get? i ≠ m.jobs.get? i → c.claimTime? i = some now) :
    Change round i c (m.jobs.get? i) (m'.jobs.get? i) := by
  rcases h i with he | ⟨j, hj, due, hs⟩
  · rw [he]
    exact .same _ _
  · have hne : m'.jobs.get? i ≠ m.jobs.get? i := by
      rw [hs, hj]
      intro he
      have hsj := Option.some.inj he
      exact Job.not_isDue_start j (round now) (round now) (hsj ▸ due)
    rw [hj, hs]
    exact .started (hc hne) due

theorem change_enqueue {m : Memory} {n : NewJob} (h : m.jobs.get? n.id = none) (i : JobId) :
    Change round i (.enqueue n) (m.jobs.get? i) ((m.enqueue (n.round round)).jobs.get? i) := by
  rw [enqueue, Keyed.get?_insert]
  split
  · rename_i hi
    have hi : n.id = i := hi
    rw [← hi, h]
    exact .stored n rfl
  · exact .same _ _

theorem change_claim (k : JobId) (now : Instant) (m : Memory) (i : JobId) :
    Change round i (.claim k now) (m.jobs.get? i) ((m.claim k (round now)).2.jobs.get? i) := by
  refine (claims_claim k (round now) m).change fun hne => ?_
  refine if_pos (Decidable.byContradiction fun hki => hne ?_)
  rw [claim_eq]
  simp only
  split
  · rw [get?_modify, if_neg (Ne.symm hki)]
  · rfl

theorem change_complete (r : Receipt) (d : Decision) (now : Instant) (m : Memory) (i : JobId) :
    Change round i (.complete r d now) (m.jobs.get? i)
      ((m.complete r (d.round round) (round now)).2.jobs.get? i) := by
  rw [complete]
  cases h : m.jobs.get? r.job with
  | none => exact .same _ _
  | some j =>
    simp only
    split
    · exact .same _ _
    · rename_i running
      split
      · exact .same _ _
      · rename_i current
        rw [get?_modify]
        split
        · rename_i hi
          subst hi
          have hr : r = j.receipt := by
            rw [Job.receipt, id_of_get? h, not_not.mp current]
          rw [h, Option.map_some, hr]
          exact .settled d now (not_not.mp running)
        · exact .same _ _

theorem change_recoverStale (staleBefore now : Instant) (m : Memory) (i : JobId) :
    Change round i (.recoverStale staleBefore now) (m.jobs.get? i)
      ((m.recoverStale (round staleBefore) (round now)).2.jobs.get? i) := by
  rw [recoverStale, Keyed.get?_update]
  cases m.jobs.get? i with
  | none => exact .same _ _
  | some j =>
    rw [Option.map_some]
    split
    · rename_i stale
      exact .interrupted now stale
    · exact .same _ _

theorem change_purgeSucceeded (olderThan : Instant) (m : Memory) (i : JobId) :
    Change round i (.purgeSucceeded olderThan) (m.jobs.get? i)
      ((m.purgeSucceeded (round olderThan)).2.jobs.get? i) := by
  rw [purgeSucceeded, Keyed.get?_filter]
  cases m.jobs.get? i with
  | none => exact .same _ _
  | some j =>
    rw [Option.filter_some]
    split
    · exact .same _ _
    · rename_i old
      exact .purged (by simpa using old)

/-! ### Jobs that are handed out -/

/-- Jobs were handed out between two states: each of them once, as it is read after its start. -/
structure Hands (reread : Payload → Except StoreError Payload) (now : Instant) (m m' : Memory)
    (js : List Job) : Prop where
  nodup : (js.map Job.id).Nodup
  started : ∀ j ∈ js, ∃ k, m.jobs.get? j.id = some k ∧ k.isDue now ∧
    m'.jobs.get? j.id = some (k.start now) ∧ (k.start now).readWith reread = .ok j

variable {reread : Payload → Except StoreError Payload} {now : Instant} {m m' m₁ m₂ m₃ : Memory}

theorem hands_nil : Hands reread now m m' [] :=
  ⟨List.nodup_nil, fun _ hj => absurd hj List.not_mem_nil⟩

/-- What a single claim hands out. -/
theorem hands_claim {i : JobId} {found : Option Job}
    (h : Job.readFound reread (m.claim i now).1 = .ok found) :
    Hands reread now m (m.claim i now).2 found.toList := by
  rw [claim] at h ⊢
  cases hj : m.jobs.get? i with
  | none =>
    rw [hj] at h
    obtain rfl : none = found := by simpa [Job.readFound] using h
    exact hands_nil
  | some j =>
    rw [hj] at h
    by_cases due : j.isDue now
    · simp only [due, if_true, Job.readFound] at h ⊢
      cases hr : (j.start now).readWith reread with
      | error e => simp [hr, Except.map] at h
      | ok k =>
        obtain rfl : some k = found := by simpa [hr, Except.map] using h
        have hk : k.id = i := by
          obtain ⟨p, -, rfl⟩ := Job.readWith_eq_ok.mp hr
          have hid : j.id = i := id_of_get? hj
          exact hid
        refine ⟨by simp, fun k' hk' => ?_⟩
        obtain rfl := List.mem_singleton.mp hk'
        rw [hk, get?_modify, if_pos rfl, hj]
        exact ⟨j, rfl, due, rfl, hr⟩
    · simp only [due, Bool.false_eq_true, if_false] at h ⊢
      obtain rfl : none = found := by simpa [Job.readFound] using h
      exact hands_nil

/-- What is handed out by claims one after the other. -/
theorem Hands.append {js₁ js₂ : List Job} (h₁ : Hands reread now m₁ m₂ js₁)
    (h₂ : Hands reread now m₂ m₃ js₂) (c₁ : Claims now m₁ m₂) (c₂ : Claims now m₂ m₃) :
    Hands reread now m₁ m₃ (js₁ ++ js₂) := by
  constructor
  · rw [List.map_append, List.nodup_append]
    refine ⟨h₁.nodup, h₂.nodup, ?_⟩
    rintro _ hi₁ _ hi₂ rfl
    obtain ⟨j₁, hj₁, rfl⟩ := List.mem_map.mp hi₁
    obtain ⟨j₂, hj₂, he⟩ := List.mem_map.mp hi₂
    obtain ⟨k₁, -, -, hs, -⟩ := h₁.started j₁ hj₁
    obtain ⟨k₂, hk₂, due, -⟩ := h₂.started j₂ hj₂
    -- a job that was handed out by both would be due when it was already started
    rw [he, hs] at hk₂
    obtain rfl := Option.some.inj hk₂
    exact Job.not_isDue_start _ _ _ due
  · intro j hj
    rcases List.mem_append.mp hj with hj | hj
    · obtain ⟨k, hk, due, hs, hr⟩ := h₁.started j hj
      refine ⟨k, hk, due, ?_, hr⟩
      rcases c₂ j.id with he | ⟨k', hk', due', -⟩
      · exact he.trans hs
      · obtain rfl := Option.some.inj (hs.symm.trans hk')
        exact absurd due' (Job.not_isDue_start _ _ _)
    -- the first part left the job alone, since the second found it due
    · obtain ⟨k, hk, due, hs, hr⟩ := h₂.started j hj
      refine ⟨k, ?_, due, hs, hr⟩
      rcases c₁ j.id with he | ⟨k', -, -, hs'⟩
      · exact he.symm.trans hk
      · obtain rfl := Option.some.inj (hs'.symm.trans hk)
        exact absurd due (Job.not_isDue_start _ _ _)

end Memory

/-! ## Ledgers -/

/-- **A store that keeps its jobs as the store in memory does.** -/
class Ledger (σ : Type) extends JobStore σ where
  /-- the store with no jobs -/
  start : σ
  /-- what the store makes of a time -/
  round : Instant → Instant
  /-- what the store makes of a payload when it is read -/
  reread : Payload → Except StoreError Payload
  /-- the store keeps the jobs of a store in memory -/
  Keeps : σ → Memory → Prop
  keeps_start : Keeps start .empty
  keeps_enqueue {s : σ} {m : Memory} (n : NewJob) : Keeps s m → m.Sound →
    m.jobs.get? n.id = none → 1 ≤ n.maxAttempts →
    (enqueue n s).1 = .ok n.toPending ∧ Keeps (enqueue n s).2 (m.enqueue (n.round round))
  dueJobs_state (s : σ) (now : Instant) (limit : Nat) (cap : Option Nat) :
    (dueJobs now limit cap s).2 = s
  keeps_claim {s : σ} {m : Memory} (i : JobId) (now : Instant) : Keeps s m → m.Sound →
    (claim i now s).1 = Job.readFound reread (m.claim i (round now)).1 ∧
      Keeps (claim i now s).2 (m.claim i (round now)).2
  keeps_complete {s : σ} {m : Memory} (r : Receipt) (d : Decision) (now : Instant) {j : Job} :
    Keeps s m → m.Sound → (StoreCall.complete r d now).Fits (m.jobs.get? r.job) →
    (m.complete r (d.round round) (round now)).1 = .ok j →
    (complete r d now s).1 = j.readWith reread ∧
      Keeps (complete r d now s).2 (m.complete r (d.round round) (round now)).2
  refuses_complete {s : σ} {m : Memory} (r : Receipt) (d : Decision) (now : Instant)
    {e : StoreError} : Keeps s m → m.Sound →
    (m.complete r (d.round round) (round now)).1 = .error e →
    (complete r d now s).2 = s ∧
      (complete r d now s).1 = (Job.readFound reread (m.jobs.get? r.job)).bind fun _ => .error e
  get_eq {s : σ} {m : Memory} (i : JobId) : Keeps s m → m.Sound →
    get i s = (Job.readFound reread (m.jobs.get? i), s)
  counts_state (s : σ) : (counts s).2 = s
  deadLetters_state (s : σ) (limit : Nat) : (deadLetters limit s).2 = s
  keeps_recoverStale {s : σ} {m : Memory} (staleBefore now : Instant) : Keeps s m → m.Sound →
    Keeps (recoverStale staleBefore now s).2 (m.recoverStale (round staleBefore) (round now)).2
  keeps_purgeSucceeded {s : σ} {m : Memory} (olderThan : Instant) : Keeps s m → m.Sound →
    Keeps (purgeSucceeded olderThan s).2 (m.purgeSucceeded (round olderThan)).2

/-- A decision whose time is kept as it is. -/
theorem Decision.round_eq_self {round : Instant → Instant} (h : ∀ t, round t = t) (d : Decision) :
    d.round round = d := by
  cases d with
  | retry t e => rw [Decision.round, h]
  | succeed n => rfl
  | deadLetter e => rfl

/-- What is found and read as it is. -/
theorem Job.readFound_ok (found : Option Job) : Job.readFound .ok found = .ok found := by
  cases found <;> rfl

/-- The store in memory keeps what it keeps. -/
instance : Ledger Memory where
  start := .empty
  round t := t
  reread := .ok
  Keeps := Eq
  keeps_start := rfl
  keeps_enqueue := by
    rintro m _ n rfl - - -
    exact ⟨rfl, rfl⟩
  dueJobs_state _ _ _ _ := rfl
  keeps_claim := by
    rintro m _ i now rfl -
    exact ⟨(Job.readFound_ok _).symm, rfl⟩
  keeps_complete := by
    rintro m _ r d now j rfl - - h
    rw [Decision.round_eq_self (fun _ => rfl)] at h ⊢
    exact ⟨h, rfl⟩
  refuses_complete := by
    rintro m _ r d now e rfl - h
    rw [Decision.round_eq_self (fun _ => rfl)] at h
    rw [Job.readFound_ok]
    exact ⟨m.complete_state_of_error h, h⟩
  get_eq := by
    rintro m _ i rfl -
    rw [Job.readFound_ok]
    rfl
  counts_state _ := rfl
  deadLetters_state _ _ := rfl
  keeps_recoverStale := by
    rintro m _ staleBefore now rfl -
    rfl
  keeps_purgeSucceeded := by
    rintro m _ olderThan rfl -
    rfl

/-! ## Claims one after the other -/

namespace JobStore

variable {σ : Type} [JobStore σ]

/-- Claiming some jobs is claiming the first one and then the others, unless that fails. -/
theorem claimEach_cons (now : Instant) (i : JobId) (is : List JobId) (s : σ) :
    claimEach now (i :: is) s =
      match claim i now s with
      | (.error e, s) => (.error e, s)
      | (.ok found, s) =>
        ((claimEach now is s).1.map (found.toList ++ ·), (claimEach now is s).2) := by
  simp only [claimEach, bind, ExceptT.bind, ExceptT.mk, StateT.bind, ExceptT.bindCont]
  rcases claim i now s with ⟨_ | found, s⟩
  · rfl
  · simp only [StateT.bind, bind]
    rcases claimEach now is s with ⟨_ | js, s⟩ <;> rfl

/-- Claiming the due jobs is listing them and then claiming them, unless that fails. -/
theorem claimDue_eq (now : Instant) (limit : Nat) (s : σ) :
    claimDue now limit s =
      match dueJobs now limit none s with
      | (.error e, s) => (.error e, s)
      | (.ok js, s) => claimEach now (js.map Job.id) s := by
  simp only [claimDue, bind, ExceptT.bind, ExceptT.mk, StateT.bind, ExceptT.bindCont]
  rcases dueJobs now limit none s with ⟨_ | js, s⟩ <;> rfl

end JobStore

/-! ## Steps -/

/-- What a call must respect for all jobs to stay sound. -/
structure StoreCall.FitsIn (m : Memory) (c : StoreCall) : Prop where
  fresh : ∀ i, c.newId? = some i → m.jobs.get? i = none
  fits : ∀ i, c.Fits (m.jobs.get? i)

/-- A call that gives no id needs none to be free. -/
theorem StoreCall.fresh_of_none {m : Memory} {c : StoreCall} (h : c.newId? = none) :
    ∀ i, c.newId? = some i → m.jobs.get? i = none := by
  intro i hi
  rw [h] at hi
  cases hi

namespace Ledger

variable {σ : Type} [Ledger σ]

/-- **What an exchange did** to the jobs that a store keeps. -/
structure Step (e : Exchange σ) (m m' : Memory) : Prop where
  keeps : Keeps e.after m'
  change : ∀ i, Change (round σ) i e.call (m.jobs.get? i) (m'.jobs.get? i)
  hands : ∃ now, Memory.Hands (reread σ) now m m' e.handedOut
  /-- a completion does what it does in memory -/
  completes : ∀ r d now, e.call = .complete r d now →
    m' = (m.complete r (d.round (round σ)) (round σ now)).2

theorem Step.sound {e : Exchange σ} {m m' : Memory} (h : Step e m m') (hm : m.Sound)
    (hc : e.call.FitsIn m) : m'.Sound := by
  refine Memory.sound_of_get? fun i j hj => ?_
  exact (h.change i).sound (hc.fits i) (fun _ => hm.of_get?) j hj

/-- A state in which some due jobs were started is sound too. -/
theorem sound_of_claims {now : Instant} {m m' : Memory} (hm : m.Sound)
    (h : Memory.Claims now m m') : m'.Sound := by
  refine Memory.sound_of_get? fun i j hj => ?_
  have hch : Change id i (.claimDue now 0) (m.jobs.get? i) (m'.jobs.get? i) :=
    Memory.Claims.change h fun _ => rfl
  exact hch.sound trivial (fun _ => hm.of_get?) j hj

/-- Claims one after the other start due jobs and hand out what they started. -/
theorem keeps_claimEach (now : Instant) (is : List JobId) {s : σ} {m : Memory} (hs : Keeps s m)
    (hm : m.Sound) : ∃ m', Keeps (JobStore.claimEach now is s).2 m' ∧
      Memory.Claims (round σ now) m m' ∧
      ∀ js, (JobStore.claimEach now is s).1 = .ok js →
        Memory.Hands (reread σ) (round σ now) m m' js := by
  induction is generalizing s m with
  | nil =>
    refine ⟨m, hs, fun i => .inl rfl, fun js hjs => ?_⟩
    obtain rfl : [] = js := Except.ok.inj hjs
    exact Memory.hands_nil
  | cons i is ih =>
    obtain ⟨ha, hk⟩ := keeps_claim i now hs hm
    have hc := Memory.claims_claim i (round σ now) m
    rw [JobStore.claimEach_cons]
    cases hcl : JobStore.claim i now s with
    | mk a s₁ =>
      rw [hcl] at ha hk
      cases a with
      -- an answer that cannot be read ends the claims, but the job was started
      | error e => exact ⟨_, hk, hc, by rintro _ ⟨⟩⟩
      | ok found =>
        obtain ⟨m', hk', hc', hh'⟩ := ih hk (sound_of_claims hm hc)
        refine ⟨m', hk', hc.trans hc', fun js hjs => ?_⟩
        simp only at hjs
        cases hcs : (JobStore.claimEach now is s₁).1 with
        | error e => rw [hcs] at hjs; cases hjs
        | ok more =>
          rw [hcs] at hjs
          obtain rfl := Except.ok.inj hjs
          exact (Memory.hands_claim ha.symm).append (hh' more hcs) hc hc'

/-- An exchange that leaves the store alone and hands out nothing. -/
theorem Step.of_same {e : Exchange σ} {m : Memory} (hs : Keeps e.before m)
    (he : e.after = e.before) (hh : e.handedOut = [])
    (hc : ∀ r d now, e.call = .complete r d now →
      m = (m.complete r (d.round (round σ)) (round σ now)).2) : Step e m m where
  keeps := he ▸ hs
  change _ := .same _ _
  hands := ⟨default, hh ▸ Memory.hands_nil⟩
  completes := hc

/-- What a single claim does. -/
theorem step_claim {s : σ} {m : Memory} (hs : Keeps s m) (hm : m.Sound) (i : JobId)
    (now : Instant) : Step ⟨s, .claim i now⟩ m (m.claim i (round σ now)).2 := by
  obtain ⟨ha, hk⟩ := keeps_claim i now hs hm
  refine ⟨hk, Memory.change_claim i now m, ⟨round σ now, ?_⟩, by rintro _ _ _ ⟨⟩⟩
  have hans : (Exchange.mk s (.claim i now)).answer =
      (Job.readFound (reread σ) (m.claim i (round σ now)).1).map .found :=
    congrArg (Except.map StoreAnswer.found) ha
  simp only [Exchange.handedOut]
  cases hr : Job.readFound (reread σ) (m.claim i (round σ now)).1 with
  | error e => rw [hans, hr]; exact Memory.hands_nil
  | ok found => rw [hans, hr]; exact Memory.hands_claim hr

/-- **What every call does.** -/
theorem step {s : σ} {m : Memory} (hs : Keeps s m) (hm : m.Sound) (c : StoreCall)
    (hc : c.FitsIn m) : ∃ m', Step ⟨s, c⟩ m m' := by
  cases c with
  | enqueue n =>
    have hn := hc.fresh n.id rfl
    obtain ⟨-, hk⟩ := keeps_enqueue n hs hm hn (hc.fits n.id)
    exact ⟨_, hk, Memory.change_enqueue hn, ⟨default, Memory.hands_nil⟩, by rintro _ _ _ ⟨⟩⟩
  | dueJobs now limit cap =>
    exact ⟨m, .of_same hs (dueJobs_state s now limit cap) rfl (by rintro _ _ _ ⟨⟩)⟩
  | claim i now => exact ⟨_, step_claim hs hm i now⟩
  | claimDue now limit =>
    -- listing leaves the store alone, so the claims begin with the jobs that are kept
    have hd := dueJobs_state s now limit none
    have hrun : JobStore.claimDue now limit s = _ := JobStore.claimDue_eq now limit s
    cases hl : JobStore.dueJobs now limit none s with
    | mk a s₁ =>
      obtain rfl : s₁ = s := by rw [hl] at hd; exact hd
      rw [hl] at hrun
      cases a with
      | error e =>
        refine ⟨m, .of_same hs (congrArg Prod.snd hrun) ?_ (by rintro _ _ _ ⟨⟩)⟩
        have hans : (Exchange.mk s₁ (.claimDue now limit)).answer = .error e :=
          congrArg (fun r => r.1.map StoreAnswer.jobs) hrun
        simp only [Exchange.handedOut, hans]
      | ok js =>
        obtain ⟨m', hk, hcl, hh⟩ := keeps_claimEach now (js.map Job.id) hs hm
        have hafter : (Exchange.mk s₁ (.claimDue now limit)).after =
            (JobStore.claimEach now (js.map Job.id) s₁).2 := congrArg Prod.snd hrun
        refine ⟨m', hafter ▸ hk, fun i => hcl.change fun _ => rfl, ⟨round σ now, ?_⟩,
          by rintro _ _ _ ⟨⟩⟩
        have hans : (Exchange.mk s₁ (.claimDue now limit)).answer =
            (JobStore.claimEach now (js.map Job.id) s₁).1.map .jobs :=
          congrArg (fun r => r.1.map StoreAnswer.jobs) hrun
        simp only [Exchange.handedOut]
        cases hr : (JobStore.claimEach now (js.map Job.id) s₁).1 with
        | error e => rw [hans, hr]; exact Memory.hands_nil
        | ok claimed => rw [hans, hr]; exact hh claimed hr
  | complete r d now =>
    refine ⟨_, ?_, Memory.change_complete r d now m, ⟨default, Memory.hands_nil⟩, ?_⟩
    · cases hr : (m.complete r (d.round (round σ)) (round σ now)).1 with
      | ok j => exact (keeps_complete r d now hs hm (hc.fits r.job) hr).2
      | error e =>
        have hafter : (Exchange.mk s (.complete r d now)).after = s :=
          (refuses_complete r d now hs hm hr).1
        rw [m.complete_state_of_error hr, hafter]
        exact hs
    · rintro _ _ _ ⟨⟩
      rfl
  | get i =>
    refine ⟨m, .of_same hs ?_ rfl (by rintro _ _ _ ⟨⟩)⟩
    exact congrArg Prod.snd (get_eq i hs hm)
  | counts => exact ⟨m, .of_same hs (counts_state s) rfl (by rintro _ _ _ ⟨⟩)⟩
  | deadLetters limit =>
    exact ⟨m, .of_same hs (deadLetters_state s limit) rfl (by rintro _ _ _ ⟨⟩)⟩
  | recoverStale staleBefore now =>
    exact ⟨_, keeps_recoverStale staleBefore now hs hm,
      Memory.change_recoverStale staleBefore now m, ⟨default, Memory.hands_nil⟩,
      by rintro _ _ _ ⟨⟩⟩
  | purgeSucceeded olderThan =>
    exact ⟨_, keeps_purgeSucceeded olderThan hs hm,
      Memory.change_purgeSucceeded olderThan m, ⟨default, Memory.hands_nil⟩,
      by rintro _ _ _ ⟨⟩⟩

end Ledger

end SyncJobs
