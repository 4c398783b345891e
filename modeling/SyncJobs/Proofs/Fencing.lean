import SyncJobs.Proofs.Shadow
import SyncJobs.Proofs.Tracking

/-!
# Every claim is settled at most once

A claim hands out a job, and its receipt names the attempt by the number of attempts before it.
The attempt is *settled* by a completion under that receipt or by a recovery (`Exchange.Settles`).
`SettledOnce` says what a history owes to its workers, whatever they do and in whichever order:
receipts are distinct, an attempt is settled before the next one begins, it is settled once, and a
completion that comes late is refused and changes nothing.

The proof carries two facts along a history (`Fences`): a settled receipt lies below the number of
attempts of its job, and the job of a receipt that is not settled is running under it.
-/

namespace SyncJobs

/-! ## Settling -/

section Settling

variable {σ : Type} [JobStore σ]

/-- What a store shows under an id. -/
def JobStore.peek (s : σ) (i : JobId) : Except StoreError (Option Job) := (JobStore.get i s).1

namespace Exchange

/-- The exchange completed the attempt of a receipt. -/
def Completes (e : Exchange σ) (r : Receipt) : Prop :=
  ∃ d now j, e.call = .complete r d now ∧ e.answer = .ok (.job j)

/-- The exchange recovered the attempt of a receipt: the job was running under it, and is not
running any more. -/
def Recovers (e : Exchange σ) (r : Receipt) : Prop :=
  (∃ staleBefore now, e.call = .recoverStale staleBefore now) ∧
    ∃ j k, JobStore.peek e.before r.job = .ok (some j) ∧ j.status = .running ∧
      j.attempts = r.attempts ∧ JobStore.peek e.after r.job = .ok (some k) ∧ k.status ≠ .running

/-- The exchange settled the attempt of a receipt. -/
def Settles (e : Exchange σ) (r : Receipt) : Prop := e.Completes r ∨ e.Recovers r

/-- A claim settles nothing. -/
theorem not_settles_of_mem_handedOut {e : Exchange σ} {j : Job} (h : j ∈ e.handedOut)
    (r : Receipt) : ¬ e.Settles r := by
  rcases claims_of_mem_handedOut h with ⟨i, now, hc⟩ | ⟨now, limit, hc⟩
  · rintro (⟨d, t, k, hd, -⟩ | ⟨⟨s, t, hr⟩, -⟩)
    · rw [hc] at hd
      cases hd
    · rw [hc] at hr
      cases hr
  · rintro (⟨d, t, k, hd, -⟩ | ⟨⟨s, t, hr⟩, -⟩)
    · rw [hc] at hd
      cases hd
    · rw [hc] at hr
      cases hr

end Exchange

/-- **Why a completion comes too late,** by what is found under the id of the receipt. -/
inductive Late (r : Receipt) : Option Job → StoreError → Prop where
  /-- the job was purged -/
  | purged : Late r none (.notFound r.job)
  /-- the job waits again or has ended -/
  | ended {k : Job} (h : k.status ≠ .running) : Late r (some k) (.notRunning r.job k.status)
  /-- the job was claimed again -/
  | reclaimed {k : Job} (h : k.status = .running) (later : r.attempts < k.attempts) :
      Late r (some k) (.staleClaim r.job r.attempts k.attempts)

/-- **Every claim is settled at most once** in a history that ends with the store `s`. -/
structure SettledOnce (past : List (Exchange σ)) (s : σ) : Prop where
  /-- no receipt is handed out twice -/
  distinct : ((handedOut past).map Job.receipt).Nodup
  /-- between two claims of one job, the first one is settled -/
  separated : ∀ later between earlier e₁ e₂ j₁ j₂,
    past = later ++ e₂ :: (between ++ e₁ :: earlier) →
    j₁ ∈ e₁.handedOut → j₂ ∈ e₂.handedOut → j₁.id = j₂.id → ∃ e ∈ between, e.Settles j₁.receipt
  /-- of two exchanges at most one settles a receipt -/
  once : ∀ r, past.Pairwise fun e e' => ¬ (e.Settles r ∧ e'.Settles r)
  /-- once a job that was handed out is settled, completing it is refused and changes nothing -/
  late : ∀ j ∈ handedOut past, (∃ e ∈ past, e.Settles j.receipt) → ∀ d now,
    ∃ found err, JobStore.complete j.receipt d now s = (.error err, s) ∧
      JobStore.peek s j.id = .ok found ∧ Late j.receipt found err

end Settling

/-! ## Fences -/

namespace Ledger

variable {σ : Type} [Ledger σ]

/-- What is read under an id is kept under it, but for the payload. -/
theorem of_peek {s : σ} {m : Memory} (hs : Keeps s m) (hm : m.Sound) {i : JobId} {j : Job}
    (h : JobStore.peek s i = .ok (some j)) :
    ∃ k p, m.jobs.get? i = some k ∧ j = { k with payload := p } := by
  rw [JobStore.peek, get_eq i hs hm] at h
  cases hk : m.jobs.get? i with
  | none => rw [hk] at h; cases h
  | some k =>
    rw [hk] at h
    cases hr : k.readWith (reread σ) with
    | error e => simp [Job.readFound, hr, Except.map] at h
    | ok k' =>
      obtain ⟨p, -, rfl⟩ := Job.readWith_eq_ok.mp hr
      obtain rfl : { k with payload := p } = j := by
        simpa [Job.readFound, hr, Except.map] using h
      exact ⟨k, p, rfl, rfl⟩

/-- A job that is handed out was waiting, and is running under its receipt now. -/
theorem Step.of_mem_handedOut {e : Exchange σ} {m m' : Memory} (h : Step e m m') {j : Job}
    (hj : j ∈ e.handedOut) :
    (∃ k, m.jobs.get? j.id = some k ∧ k.status = .pending ∧ k.attempts = j.attempts) ∧
      ∃ k, m'.jobs.get? j.id = some k ∧ k.status = .running ∧ k.attempts = j.attempts := by
  obtain ⟨now, hands⟩ := h.hands
  obtain ⟨k, hk, due, hs, hr⟩ := hands.started j hj
  have hatt : k.attempts = j.attempts := by
    obtain ⟨p, -, rfl⟩ := Job.readWith_eq_ok.mp hr
    rfl
  exact ⟨⟨k, hk, Job.status_of_isDue due, hatt⟩, ⟨_, hs, rfl, hatt⟩⟩

/-- A completion that is answered with a job found the job running under the receipt. -/
theorem running_of_completes {e : Exchange σ} {m : Memory} (hs : Keeps e.before m) (hm : m.Sound)
    {r : Receipt} (h : e.Completes r) :
    ∃ k, m.jobs.get? r.job = some k ∧ k.status = .running ∧ k.attempts = r.attempts := by
  obtain ⟨d, now, j, hc, ha⟩ := h
  cases hr : (m.complete r (d.round (round σ)) (round σ now)).1 with
  | error err =>
    have hans := (refuses_complete r d now hs hm hr).2
    have ha' : (JobStore.complete r d now e.before).1.map StoreAnswer.job = .ok (.job j) := by
      rw [← ha, Exchange.answer, hc]
      rfl
    rw [hans] at ha'
    cases hf : Job.readFound (reread σ) (m.jobs.get? r.job) <;> rw [hf] at ha' <;> cases ha'
  | ok k' =>
    obtain ⟨k, hk, running, current, -⟩ := Memory.complete_eq_ok hr
    exact ⟨k, hk, running, current⟩

/-- **What settles a receipt** finds the job running under it and counts the attempt. -/
theorem Step.of_settles {e : Exchange σ} {m m' : Memory} (h : Step e m m')
    (hs : Keeps e.before m) (hm : m.Sound) (hc : e.call.FitsIn m) {r : Receipt}
    (hr : e.Settles r) :
    ∃ k, m.jobs.get? r.job = some k ∧ k.attempts = r.attempts ∧
      ∀ k', m'.jobs.get? r.job = some k' → r.attempts.toNat < k'.attempts.toNat := by
  rcases hr with hr | ⟨-, j, j', hj, running, hatt, hj', stopped⟩
  -- completed
  · obtain ⟨k, hk, running, hatt⟩ := running_of_completes hs hm hr
    refine ⟨k, hk, hatt, fun k' hk' => ?_⟩
    obtain ⟨d, now, -, hcall, -⟩ := hr
    have hfit := (hm.of_get? hk).toNat_nextAttempt running
    rw [h.completes r d now hcall, Memory.complete, hk] at hk'
    simp only [running, hatt, ne_eq, not_true_eq_false, if_false] at hk'
    rw [Memory.get?_modify, if_pos rfl, hk] at hk'
    obtain rfl := Option.some.inj hk'
    have hlt : r.attempts.toNat < (nextAttempt k.attempts).toNat := by rw [hfit, hatt]; omega
    exact hlt
  -- recovered: the job stopped running, which counts the attempt
  · obtain ⟨k, p, hk, rfl⟩ := of_peek hs hm hj
    refine ⟨k, hk, hatt, fun l hl => ?_⟩
    obtain ⟨l', p', hl', rfl⟩ := of_peek h.keeps (h.sound hm hc) hj'
    obtain rfl := Option.some.inj (hl.symm.trans hl')
    have hch := h.change r.job
    rw [hk, hl] at hch
    rcases hch.evolves (hm.of_get? hk) with rfl | ⟨⟨_, _, rfl, rfl, move⟩, -⟩
    · exact absurd running stopped
    · have hcount := move.toNat_attempts
      rw [if_pos running] at hcount
      have hatt' : k.attempts.toNat = r.attempts.toNat := congrArg UInt32.toNat hatt
      omega

/-- **A running job is let go by nothing else.** If the payload can be read, and the exchange does
not settle the receipt, then the job is running under it still. -/
theorem Step.of_not_settles {e : Exchange σ} {m m' : Memory} (h : Step e m m')
    (hs : Keeps e.before m) (hm : m.Sound) (hc : e.call.FitsIn m) {k : Job} {p : Payload}
    (hk : m.jobs.get? k.id = some k) (running : k.status = .running)
    (hp : reread σ k.payload = .ok p) (hn : ¬ e.Settles k.receipt) :
    m'.jobs.get? k.id = some k := by
  have hm' := h.sound hm hc
  have hch := h.change k.id
  rw [hk] at hch
  generalize hb : m'.jobs.get? k.id = b at hch
  generalize hcall : e.call = c at hch
  cases hch with
  | same => rfl
  | started _ due =>
    rw [Job.status_of_isDue due] at running
    cases running
  | purged old =>
    rw [Job.status_of_isPurgeable old] at running
    cases running
  | settled d now _ =>
    refine absurd (.inl ⟨d, now, { k.settle (d.round (round σ)) (round σ now) with payload := p },
      hcall, ?_⟩) hn
    have hmem : (m.complete k.receipt (d.round (round σ)) (round σ now)).1 =
        .ok (k.settle (d.round (round σ)) (round σ now)) := by
      simp [Memory.complete, Job.receipt, hk, running]
    have hfits := hc.fits k.receipt.job
    rw [hcall] at hfits
    have hans := (keeps_complete k.receipt d now hs hm hfits hmem).1
    have hread : (k.settle (d.round (round σ)) (round σ now)).readWith (reread σ) =
        .ok { k.settle (d.round (round σ)) (round σ now) with payload := p } :=
      Job.readWith_eq_ok.mpr ⟨p, hp, rfl⟩
    rw [Exchange.answer, hcall]
    exact congrArg (Except.map StoreAnswer.job) (hans.trans hread)
  | interrupted now stale =>
    refine absurd (.inr ⟨⟨_, now, hcall⟩, { k with payload := p },
      { k.interrupt (round σ now) with payload := p }, ?_, running, rfl, ?_, ?_⟩) hn
    · rw [JobStore.peek, get_eq _ hs hm]
      exact (congrArg _ hk).trans (Job.readFound_some hp)
    · rw [JobStore.peek, get_eq _ h.keeps hm']
      exact (congrArg _ hb).trans (Job.readFound_some hp)
    · simp only [Job.interrupt]
      split <;> decide

/-- **The invariant of fencing.** -/
structure Fences (past : List (Exchange σ)) (m : Memory) : Prop extends Tracks past m where
  /-- settled receipts lie below the number of attempts -/
  settled : ∀ r, (∃ e ∈ past, e.Settles r) → r.job ∈ newIds past ∧
    ∀ k, m.jobs.get? r.job = some k → r.attempts.toNat < k.attempts.toNat
  /-- under the other receipts jobs are running -/
  live : ∀ j ∈ handedOut past, (∀ e ∈ past, ¬ e.Settles j.receipt) →
    ∃ k, m.jobs.get? j.id = some k ∧ k.attempts = j.attempts ∧ k.status = .running
  distinct : ((handedOut past).map Job.receipt).Nodup
  once : ∀ r, past.Pairwise fun e e' => ¬ (e.Settles r ∧ e'.Settles r)

section Step

variable {past : List (Exchange σ)} {m m' : Memory} {c : StoreCall}

/-- A receipt that tells the present number of attempts is not settled. -/
theorem Fences.not_settled (h : Fences past m) {r : Receipt} {k : Job}
    (hk : m.jobs.get? r.job = some k) (hatt : k.attempts = r.attempts) :
    ¬ ∃ e ∈ past, e.Settles r := by
  intro hr
  have hlt := (h.settled r hr).2 k hk
  rw [hatt] at hlt
  exact absurd hlt (Nat.lt_irrefl _)

/-- The receipts that a call hands out are new. -/
theorem Fences.distinct_step (h : Fences past m) (hs : Step ⟨current start past, c⟩ m m') :
    ((handedOut (⟨current start past, c⟩ :: past)).map Job.receipt).Nodup := by
  obtain ⟨now, hands⟩ := hs.hands
  rw [handedOut, List.flatMap_cons, List.map_append, List.nodup_append]
  refine ⟨?_, h.distinct, ?_⟩
  · have hids : (((Exchange.handedOut ⟨current start past, c⟩).map Job.receipt).map
        Receipt.job).Nodup := by
      rw [List.map_map]
      exact hands.nodup
    exact List.Pairwise.of_map Receipt.job (fun r r' hne he => hne (congrArg Receipt.job he)) hids
  · rintro _ hr₁ _ hr₂ rfl
    obtain ⟨j₁, hj₁, rfl⟩ := List.mem_map.mp hr₁
    obtain ⟨j₂, hj₂, hr⟩ := List.mem_map.mp hr₂
    obtain ⟨⟨k, hk, pending, hatt⟩, -⟩ := hs.of_mem_handedOut hj₁
    have hid : j₂.id = j₁.id := congrArg Receipt.job hr
    have hatt₂ : j₂.attempts = k.attempts := (congrArg Receipt.attempts hr).trans hatt.symm
    -- the job that is handed out again would have gained attempts, or would be running
    rcases ((h.handed j₂ hj₂).2 k (hid ▸ hk)).attempts with hlt | ⟨-, running⟩
    · rw [hatt₂] at hlt
      exact absurd hlt (Nat.lt_irrefl _)
    · rw [pending] at running
      cases running

/-- Settled receipts stay below the number of attempts. -/
theorem Fences.settled_step (h : Fences past m) (hc : c.Allowed past)
    (hs : Step ⟨current start past, c⟩ m m') (r : Receipt)
    (hr : ∃ e ∈ (⟨current start past, c⟩ : Exchange σ) :: past, e.Settles r) :
    r.job ∈ newIds (⟨current start past, c⟩ :: past) ∧
      ∀ k, m'.jobs.get? r.job = some k → r.attempts.toNat < k.attempts.toNat := by
  rw [mem_newIds_cons]
  obtain ⟨e, he, hr⟩ := hr
  rcases List.mem_cons.mp he with rfl | he
  · obtain ⟨k, hk, -, hlt⟩ := hs.of_settles h.keeps h.sound (h.fitsIn hc) hr
    exact ⟨.inr (h.known _ k hk), hlt⟩
  · obtain ⟨hknown, hlt⟩ := h.settled r ⟨e, he, hr⟩
    refine ⟨.inr hknown, fun l hl => ?_⟩
    obtain ⟨k, hk, hkl⟩ := h.evolves hc hs hknown hl
    have hlt := hlt k hk
    rcases hkl with rfl | ⟨⟨_, _, rfl, rfl, move⟩, -⟩
    · exact hlt
    · have hcount := move.toNat_attempts
      omega

/-- Under a receipt that was not settled the job runs on. -/
theorem Fences.live_step (h : Fences past m) (hc : c.Allowed past)
    (hs : Step ⟨current start past, c⟩ m m') (j : Job)
    (hj : j ∈ handedOut (⟨current start past, c⟩ :: past))
    (hn : ∀ e ∈ (⟨current start past, c⟩ : Exchange σ) :: past, ¬ e.Settles j.receipt) :
    ∃ k, m'.jobs.get? j.id = some k ∧ k.attempts = j.attempts ∧ k.status = .running := by
  rcases mem_handedOut_cons.mp hj with hj | hj
  · obtain ⟨-, k, hk, running, hatt⟩ := hs.of_mem_handedOut hj
    exact ⟨k, hk, hatt, running⟩
  · obtain ⟨k, hk, hatt, running⟩ := h.live j hj fun e he => hn e (List.mem_cons_of_mem _ he)
    have hp := ((h.handed j hj).2 k hk).payload
    have hid := Memory.id_of_get? hk
    have hreceipt : k.receipt = j.receipt := by rw [Job.receipt, hid, hatt]; rfl
    have hk' := hs.of_not_settles h.keeps h.sound (h.fitsIn hc) (hid.symm ▸ hk) running hp
      (hreceipt ▸ hn _ List.mem_cons_self)
    exact ⟨k, hid ▸ hk', hatt, running⟩

/-- What was settled is not settled again. -/
theorem Fences.once_step (h : Fences past m) (hc : c.Allowed past)
    (hs : Step ⟨current start past, c⟩ m m') (r : Receipt) :
    ((⟨current start past, c⟩ : Exchange σ) :: past).Pairwise
      fun e e' => ¬ (e.Settles r ∧ e'.Settles r) := by
  refine List.pairwise_cons.mpr ⟨fun e he ⟨hr, hr'⟩ => ?_, h.once r⟩
  obtain ⟨k, hk, hatt, -⟩ := hs.of_settles h.keeps h.sound (h.fitsIn hc) hr
  exact h.not_settled hk hatt ⟨e, he, hr'⟩

/-- **The step of fencing.** -/
theorem Fences.step (h : Fences past m) (hc : c.Allowed past)
    (hs : Step ⟨current start past, c⟩ m m') :
    Fences (⟨current start past, c⟩ :: past) m' where
  toTracks := h.toTracks.step hc hs
  settled := h.settled_step hc hs
  live := h.live_step hc hs
  distinct := h.distinct_step hs
  once := h.once_step hc hs

end Step

/-- **A late completion is refused,** for the reason that shows in the store. -/
theorem Fences.late {past : List (Exchange σ)} {m : Memory} (h : Fences past m) {j : Job}
    (hj : j ∈ handedOut past) (hr : ∃ e ∈ past, e.Settles j.receipt) (d : Decision)
    (now : Instant) :
    ∃ found err, JobStore.complete j.receipt d now (current start past) =
        (.error err, current start past) ∧
      JobStore.peek (current start past) j.id = .ok found ∧ Late j.receipt found err := by
  have refused (err : StoreError) (found : Option Job)
      (hm : (m.complete j.receipt (d.round (round σ)) (round σ now)).1 = .error err)
      (hf : Job.readFound (reread σ) (m.jobs.get? j.id) = .ok found) :
      JobStore.complete j.receipt d now (current start past) = (.error err, current start past) ∧
        JobStore.peek (current start past) j.id = .ok found := by
    obtain ⟨hstate, hans⟩ := refuses_complete j.receipt d now h.keeps h.sound hm
    have hf' : Job.readFound (reread σ) (m.jobs.get? j.receipt.job) = .ok found := hf
    rw [hf'] at hans
    exact ⟨Prod.ext hans hstate, (congrArg Prod.fst (get_eq j.id h.keeps h.sound)).trans hf⟩
  cases hk : m.jobs.get? j.id with
  | none =>
    obtain ⟨hc, hp⟩ := refused (.notFound j.id) none
      (by simp [Memory.complete, Job.receipt, hk]) (by rw [hk]; rfl)
    exact ⟨_, _, hc, hp, .purged⟩
  | some k =>
    have hread := Job.readFound_some ((h.handed j hj).2 k hk).payload
    by_cases running : k.status = .running
    · have hne : k.attempts ≠ j.attempts := fun hatt => h.not_settled hk hatt hr
      have hlt := (h.settled j.receipt hr).2 k hk
      obtain ⟨hc, hp⟩ := refused (.staleClaim j.id j.attempts k.attempts) _
        (by simp [Memory.complete, Job.receipt, hk, running, hne]) (hk ▸ hread)
      exact ⟨_, _, hc, hp, .reclaimed running (UInt32.lt_iff_toNat_lt.mpr hlt)⟩
    · obtain ⟨hc, hp⟩ := refused (.notRunning j.id k.status) _
        (by simp [Memory.complete, Job.receipt, hk, running]) (hk ▸ hread)
      exact ⟨_, _, hc, hp, .ended running⟩

end Ledger

/-! ## Histories -/

section Histories

variable {σ : Type} [Ledger σ] {past : List (Exchange σ)}

/-- **Every history of a ledger keeps its fences.** -/
theorem History.fences (h : History Ledger.start past) : ∃ m, Ledger.Fences past m := by
  induction h with
  | nil =>
    refine ⟨.empty, Ledger.tracks_nil, ?_, fun j hj => ?_, List.nodup_nil, fun _ => .nil⟩
    · rintro r ⟨e, he, -⟩
      cases he
    · cases hj
  | step _ c hc ih =>
    obtain ⟨m, hm⟩ := ih
    obtain ⟨m', hs⟩ := Ledger.step hm.keeps hm.sound c (hm.fitsIn hc)
    exact ⟨m', hm.step hc hs⟩

/-- The latest exchange of a history is a step from the jobs that its past led to. -/
theorem History.fences_step {e : Exchange σ} (h : History Ledger.start (e :: past)) :
    ∃ m m', Ledger.Fences past m ∧ Ledger.Step e m m' := by
  obtain ⟨m, hm⟩ := h.tail.fences
  obtain ⟨m', hs⟩ := Ledger.step hm.keeps hm.sound e.call (hm.fitsIn h.allowed)
  obtain ⟨s, c⟩ := e
  obtain rfl : s = _ := h.before_eq
  exact ⟨m, m', hm, hs⟩

/-- **Between two claims of one job the first one is settled.** -/
theorem History.separated {between earlier : List (Exchange σ)} {e₁ e₂ : Exchange σ} {j₁ j₂ : Job}
    (h : History Ledger.start (e₂ :: (between ++ e₁ :: earlier))) (hj₁ : j₁ ∈ e₁.handedOut)
    (hj₂ : j₂ ∈ e₂.handedOut) (hid : j₁.id = j₂.id) : ∃ e ∈ between, e.Settles j₁.receipt := by
  refine Classical.byContradiction fun hno => ?_
  obtain ⟨m₂, m₂', fences₂, step₂⟩ := h.fences_step
  obtain ⟨m₁, m₁', fences₁, step₁⟩ := h.tail.of_append.fences_step
  have hnever : ∀ e ∈ between ++ e₁ :: earlier, ¬ e.Settles j₁.receipt := by
    intro e he hr
    rcases List.mem_append.mp he with he | he
    · exact hno ⟨e, he, hr⟩
    rcases List.mem_cons.mp he with rfl | he
    · exact Exchange.not_settles_of_mem_handedOut hj₁ _ hr
    -- a receipt that was settled before its claim would lie below the attempts of the job
    · obtain ⟨⟨k, hk, -, hatt⟩, -⟩ := step₁.of_mem_handedOut hj₁
      exact fences₁.not_settled hk hatt ⟨e, he, hr⟩
  have hmem : j₁ ∈ handedOut (between ++ e₁ :: earlier) :=
    List.mem_flatMap.mpr ⟨e₁, List.mem_append_right _ List.mem_cons_self, hj₁⟩
  -- so the job still runs under the first receipt when it is handed out the second time
  obtain ⟨k, hk, -, running⟩ := fences₂.live j₁ hmem hnever
  obtain ⟨⟨k', hk', pending, -⟩, -⟩ := step₂.of_mem_handedOut hj₂
  rw [← hid, hk] at hk'
  obtain rfl := Option.some.inj hk'
  rw [running] at pending
  cases pending

/-- **In every history of a ledger each claim is settled at most once.** -/
theorem History.settledOnce (h : History Ledger.start past) :
    SettledOnce past (current Ledger.start past) := by
  obtain ⟨m, hm⟩ := h.fences
  refine ⟨hm.distinct, ?_, hm.once, fun j hj hr d now => hm.late hj hr d now⟩
  rintro later between earlier e₁ e₂ j₁ j₂ rfl hj₁ hj₂ hid
  exact h.of_append.separated hj₁ hj₂ hid

end Histories

/-! ## Both stores -/

/-- **In both stores every claim is settled at most once,** in every history. -/
theorem claims_are_settled_once :
    (∀ past : List (Exchange Memory), History Memory.empty past →
      SettledOnce past (current .empty past)) ∧
    (∀ past : List (Exchange Table), History Table.empty past →
      SettledOnce past (current .empty past)) :=
  ⟨fun _ h => h.settledOnce, fun _ h => h.settledOnce⟩

/-- The claim of a plain job is settled once. -/
theorem plain_claim_is_settled_once :
    SettledOnce (replay Memory.empty (firstAttempt .plain .epoch 1))
      (current .empty (replay Memory.empty (firstAttempt .plain .epoch 1))) ∧
    SettledOnce (replay Table.empty (firstAttempt .plain .epoch 1))
      (current .empty (replay Table.empty (firstAttempt .plain .epoch 1))) := by
  have hmemory : History Memory.empty (replay Memory.empty (firstAttempt .plain .epoch 1)) :=
    History.firstAttempt 1 (by decide) (by decide) rfl
  have htable : History Table.empty (replay Table.empty (firstAttempt .plain .epoch 1)) :=
    History.firstAttempt 1 (by decide) (by decide) rfl
  exact ⟨claims_are_settled_once.1 _ hmemory, claims_are_settled_once.2 _ htable⟩

end SyncJobs
