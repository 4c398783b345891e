import SyncJobs.Proofs.Ledger

/-!
# What a history tells of the jobs that are kept

`Tracks` ties a history of a ledger to the jobs that the ledger keeps at its end: they are sound,
they have ids that were given to new jobs, and a job that was handed out has since gained attempts
or is running still (`Follows`). By `History.tracks` every history does so.

The number of attempts is a fencing token: it grows on every way out of `running`, and the job
comes to no other end of its attempt.
-/

namespace SyncJobs

namespace Ledger

variable {σ : Type} [Ledger σ]

/-- **What became of a job** `j` that was handed out: it stands as `k`. -/
structure Follows (σ : Type) [Ledger σ] (j k : Job) : Prop where
  maxAttempts : k.maxAttempts = j.maxAttempts
  /-- the payload is still read as it was -/
  payload : reread σ k.payload = .ok j.payload
  /-- the attempt was counted, or is under way -/
  attempts : j.attempts.toNat < k.attempts.toNat ∨ k.attempts = j.attempts ∧ k.status = .running

/-- A job that was handed out is followed by every step of the stored job. -/
theorem Follows.evolves {j k l : Job} (h : Follows σ j k) (hkl : Evolves k l) :
    Follows σ j l := by
  rcases hkl with rfl | ⟨⟨_, _, rfl, rfl, move⟩, origin⟩
  · exact h
  · refine ⟨origin.maxAttempts ▸ h.maxAttempts, origin.payload ▸ h.payload, ?_⟩
    have hcount := move.toNat_attempts
    left
    rcases h.attempts with hlt | ⟨heq, running⟩
    · split at hcount <;> omega
    -- the attempt is under way no more, so it was counted
    · rw [if_pos running, heq] at hcount
      omega

/-- A job that is handed out is followed by the job that was started. -/
theorem follows_of_hands {now : Instant} {m m' : Memory} {js : List Job}
    (h : Memory.Hands (reread σ) now m m' js) {j k : Job} (hj : j ∈ js)
    (hk : m'.jobs.get? j.id = some k) : Follows σ j k := by
  obtain ⟨l, -, -, hs, hr⟩ := h.started j hj
  obtain rfl := Option.some.inj (hs.symm.trans hk)
  obtain ⟨p, hp, rfl⟩ := Job.readWith_eq_ok.mp hr
  exact ⟨rfl, hp, .inr ⟨rfl, rfl⟩⟩

/-- **A history and the jobs that are kept at its end.** -/
structure Tracks (past : List (Exchange σ)) (m : Memory) : Prop where
  keeps : Keeps (current start past) m
  sound : m.Sound
  /-- stored jobs have ids that were given -/
  known : ∀ i j, m.jobs.get? i = some j → i ∈ newIds past
  handed : ∀ j ∈ handedOut past, j.id ∈ newIds past ∧
    ∀ k, m.jobs.get? j.id = some k → Follows σ j k

/-- At the start nothing is kept. -/
theorem tracks_nil : Tracks (σ := σ) [] .empty where
  keeps := keeps_start
  sound := by rintro _ ⟨⟩
  known := by rintro _ _ ⟨⟩
  handed := by rintro _ ⟨⟩

/-- A call that is allowed respects what all jobs need to stay sound. -/
theorem Tracks.fitsIn {past : List (Exchange σ)} {m : Memory} (h : Tracks past m)
    {c : StoreCall} (hc : c.Allowed past) : c.FitsIn m := by
  cases c with
  | enqueue n =>
    refine ⟨fun i hi => ?_, fun _ => hc.2⟩
    obtain rfl := Option.some.inj hi
    cases hj : m.jobs.get? n.id with
    | none => rfl
    | some j => exact absurd (h.known _ j hj) hc.1
  | complete r d now =>
    refine ⟨StoreCall.fresh_of_none rfl, fun i k hk running hr hd => ?_⟩
    -- the receipt tells job and attempt, so the decision was made for what is stored
    obtain ⟨j, hj, hjr, decided⟩ := hc
    have hid : j.id = k.id := congrArg Receipt.job (hjr.trans hr.symm)
    have hatt : j.attempts = k.attempts := congrArg Receipt.attempts (hjr.trans hr.symm)
    have hki : m.jobs.get? j.id = some k := by
      rw [hid, Memory.id_of_get? hk]
      exact hk
    have hmax := ((h.handed j hj).2 k hki).maxAttempts
    have hlt := decided.permits hd
    rwa [← hatt, hmax]
  | dueJobs | claim | claimDue | get | counts | deadLetters | recoverStale | purgeSucceeded =>
    exact ⟨StoreCall.fresh_of_none rfl, fun _ => trivial⟩

/-- A job whose id was given before a call, and that is stored after it, was stored before it and
made at most one step. -/
theorem Tracks.evolves {past : List (Exchange σ)} {m m' : Memory} (h : Tracks past m)
    {c : StoreCall} (hc : c.Allowed past) (hs : Step ⟨current start past, c⟩ m m') {i : JobId}
    (hi : i ∈ newIds past) {l : Job} (hl : m'.jobs.get? i = some l) :
    ∃ k, m.jobs.get? i = some k ∧ Evolves k l := by
  have hch := hs.change i
  rw [hl] at hch
  cases hk : m.jobs.get? i with
  | none =>
    -- only a new job comes out of nothing, and no id is given twice
    rw [hk] at hch
    obtain ⟨n, rfl, hn, -⟩ := hch.of_none
    exact absurd (hn ▸ hi) hc.1
  | some k =>
    rw [hk] at hch
    exact ⟨k, rfl, hch.evolves (h.sound.of_get? hk)⟩

/-- **The step of tracking.** -/
theorem Tracks.step {past : List (Exchange σ)} {m m' : Memory} (h : Tracks past m)
    {c : StoreCall} (hc : c.Allowed past) (hs : Step ⟨current start past, c⟩ m m') :
    Tracks (⟨current start past, c⟩ :: past) m' := by
  obtain ⟨now, hands⟩ := hs.hands
  refine ⟨hs.keeps, hs.sound h.sound (h.fitsIn hc), fun i k hk => ?_, fun j hj => ?_⟩
  · rw [mem_newIds_cons]
    have hch := hs.change i
    rw [hk] at hch
    cases hj : m.jobs.get? i with
    | none =>
      rw [hj] at hch
      obtain ⟨n, rfl, hn, -⟩ := hch.of_none
      exact .inl (congrArg some hn)
    | some j => exact .inr (h.known i j hj)
  · rw [mem_newIds_cons]
    rcases mem_handedOut_cons.mp hj with hj | hj
    · obtain ⟨k, hk, -⟩ := hands.started j hj
      exact ⟨.inr (h.known _ k hk), fun l hl => follows_of_hands hands hj hl⟩
    · obtain ⟨hknown, hfollows⟩ := h.handed j hj
      refine ⟨.inr hknown, fun l hl => ?_⟩
      obtain ⟨k, hk, hkl⟩ := h.evolves hc hs hknown hl
      exact (hfollows k hk).evolves hkl

end Ledger

/-- **Every history of a ledger tracks the jobs that are kept.** -/
theorem History.tracks {σ : Type} [Ledger σ] {past : List (Exchange σ)}
    (h : History Ledger.start past) : ∃ m, Ledger.Tracks past m := by
  induction h with
  | nil => exact ⟨.empty, Ledger.tracks_nil⟩
  | step _ c hc ih =>
    obtain ⟨m, hm⟩ := ih
    obtain ⟨m', hs⟩ := Ledger.step hm.keeps hm.sound c (hm.fitsIn hc)
    exact ⟨m', hm.step hc hs⟩

/-! ## One attempt -/

/-- The calls for one job up to the end of its first attempt, latest first. -/
def firstAttempt (n : NewJob) (now : Instant) (items : UInt64) : List StoreCall :=
  [.complete ⟨n.id, 0⟩ (.succeed items) now, .claim n.id now, .enqueue n]

/-- A new job that is due at once and has one attempt. -/
def NewJob.plain : NewJob := ⟨⟨1⟩, ⟨1⟩, .email, .null, 1, .epoch, .epoch⟩

/-- Every attempt may succeed. -/
theorem Job.mayDecide_succeed (j : Job) (items : UInt64) : j.MayDecide (.succeed items) :=
  ⟨.usual, .success items, default, .zero false, rfl⟩

/-- **The first claim of the only job** that a store was given reads the job as it was started. -/
theorem Ledger.claim_first {σ : Type} [Ledger σ] {n : NewJob} {now : Instant}
    (hmax : 1 ≤ n.maxAttempts) (due : round σ n.runAfter ≤ round σ now) :
    (JobStore.claim n.id now (current (start (σ := σ)) (replay start [.enqueue n]))).1 =
      Job.readFound (reread σ) (some ((n.round (round σ)).toPending.start (round σ now))) := by
  have hnone : Memory.empty.jobs.get? n.id = none := rfl
  obtain ⟨-, hkeeps⟩ := keeps_enqueue (σ := σ) n keeps_start (by rintro _ ⟨⟩) hnone hmax
  have hsound : (Memory.empty.enqueue (n.round (round σ))).Sound := by
    refine Memory.sound_of_get? fun i k hk => ?_
    exact (Memory.change_enqueue hnone i).sound hmax (by rintro _ ⟨⟩) k hk
  have hget : (Memory.empty.enqueue (n.round (round σ))).jobs.get? n.id =
      some (n.round (round σ)).toPending := by
    rw [Memory.enqueue, Keyed.get?_insert]
    exact if_pos rfl
  have hdue : (n.round (round σ)).toPending.isDue (round σ now) = true :=
    Bool.and_eq_true_iff.mpr ⟨decide_eq_true rfl, decide_eq_true due⟩
  refine (keeps_claim n.id now hkeeps hsound).1.trans (congrArg (Job.readFound (reread σ)) ?_)
  simp only [Memory.claim, hget, hdue, if_true]

/-- **Histories in which an attempt is made:** a job that can be read is stored, claimed when it
is due, and done. -/
theorem History.firstAttempt {σ : Type} [Ledger σ] {n : NewJob} {now : Instant} {p : Payload}
    (items : UInt64) (hmax : 1 ≤ n.maxAttempts)
    (due : Ledger.round σ n.runAfter ≤ Ledger.round σ now)
    (hp : Ledger.reread σ n.payload = .ok p) :
    History (Ledger.start (σ := σ)) (replay Ledger.start (firstAttempt n now items)) := by
  let pending := (n.round (Ledger.round σ)).toPending
  let j : Job := { pending.start (Ledger.round σ now) with payload := p }
  have hstored : History (Ledger.start (σ := σ)) (replay Ledger.start [.enqueue n]) :=
    .step .nil (.enqueue n) ⟨List.not_mem_nil, hmax⟩
  have hclaimed := hstored.step (.claim n.id now) trivial
  have hanswer : (JobStore.claim n.id now (current (Ledger.start (σ := σ))
      (replay Ledger.start [.enqueue n]))).1 = .ok (some j) :=
    (Ledger.claim_first hmax due).trans (Job.readFound_some hp)
  have hhanded : j ∈ handedOut (replay (Ledger.start (σ := σ))
      [.claim n.id now, .enqueue n]) := by
    have hans : (Exchange.mk (current (Ledger.start (σ := σ)) (replay Ledger.start [.enqueue n]))
        (.claim n.id now)).answer = .ok (.found (some j)) :=
      congrArg (Except.map StoreAnswer.found) hanswer
    refine mem_handedOut_cons.mpr (.inl ?_)
    simp only [Exchange.handedOut, hans]
    exact List.mem_singleton.mpr rfl
  exact hclaimed.step _ ⟨j, hhanded, rfl, j.mayDecide_succeed items⟩

end SyncJobs
