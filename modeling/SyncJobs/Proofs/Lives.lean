import SyncJobs.Proofs.Shadow
import SyncJobs.Proofs.Tracking

/-!
# The lives of stored jobs

In every history of the store in memory and of the table, all entries are sound (`AllSound`), and
every next call leaves an entry alone, moves its job one step on, or purges it (`LivesOn`). An
entry is a job in memory and a row in the table.

The rules of the table ask for less: `attempts ≤ maxAttempts` holds of a job that waits at its
ceiling, but the next attempt of that job would break it.
-/

namespace SyncJobs

/-! ## Rows as entries -/

namespace Row

/-- Where the job of a row stands. -/
structure Stands (r : Row) (s : Standing) : Prop where
  status : r.status = s.status.name
  attempts : r.attempts = s.attempts
  maxAttempts : r.maxAttempts = s.maxAttempts
  lastError : r.lastError = s.lastError

/-- Two rows agree on all that was fixed when they were stored. -/
structure SameOrigin (r s : Row) : Prop where
  id : r.id = s.id
  account : r.account = s.account
  domain : r.domain = s.domain
  payload : r.payload = s.payload
  maxAttempts : r.maxAttempts = s.maxAttempts
  createdAt : r.createdAt = s.createdAt

instance : Entry Row := ⟨Stands, SameOrigin⟩

/-- The row of a job stands where the job does. -/
theorem stands_ofJob (j : Job) : (ofJob j).Stands j.standing := ⟨rfl, rfl, rfl, rfl⟩

/-- Rows evolve with their jobs. -/
theorem evolves_ofJob {j k : Job} (h : Evolves j k) : Evolves (ofJob j) (ofJob k) := by
  rcases h with rfl | ⟨⟨_, _, rfl, rfl, move⟩, origin⟩
  · exact .inl rfl
  · refine .inr ⟨⟨_, _, stands_ofJob j, stands_ofJob k, move⟩, ?_⟩
    exact ⟨congrArg Id.storage origin.id, congrArg Id.storage origin.account,
      congrArg Domain.name origin.domain, congrArg (·.value.compact) origin.payload,
      congrArg (fun n : UInt32 => (n.toNat : Int)) origin.maxAttempts,
      congrArg Instant.millis origin.createdAt⟩

end Row

/-! ## Collections of entries -/

section Entries

variable {ρ κ : Type} [Entry ρ] {key : ρ → κ}

/-- The jobs of all entries are sound. -/
def AllSound (entries : Keyed key) : Prop :=
  ∀ a ∈ entries.toList, ∃ s, Entry.Stands a s ∧ s.Sound

/-- **Every entry lives on** through a call, unless its job succeeded and is purged. -/
def LivesOn [DecidableEq κ] (c : StoreCall) (before after : Keyed key) : Prop :=
  ∀ a ∈ before.toList, match after.get? (key a) with
    | some b => Evolves a b
    | none => ∃ t s, c = .purgeSucceeded t ∧ Entry.Stands a s ∧ s.status = .succeeded

end Entries

/-! ## One call -/

section Call

variable {σ : Type} [Ledger σ] {past : List (Exchange σ)} {m : Memory}

/-- What an allowed call does to one of the jobs that a ledger keeps. -/
theorem Ledger.Tracks.lives {m' : Memory} (h : Tracks past m) {c : StoreCall}
    (hs : Step ⟨current start past, c⟩ m m') {i : JobId} {j : Job} (hj : m.jobs.get? i = some j) :
    match m'.jobs.get? i with
    | some k => Evolves j k
    | none => ∃ t, c = .purgeSucceeded t ∧ j.status = .succeeded := by
  have hch := hs.change i
  rw [hj] at hch
  cases hk : m'.jobs.get? i with
  | some k =>
    rw [hk] at hch
    exact hch.evolves (h.sound.of_get? hj)
  | none =>
    rw [hk] at hch
    obtain ⟨t, hc, old⟩ := hch.of_removed
    exact ⟨t, hc, Job.status_of_isPurgeable old⟩

/-- After every history the kept jobs are known, and an allowed call is a step from them. -/
theorem History.next (h : History Ledger.start past) :
    ∃ m, Ledger.Tracks past m ∧ ∀ c : StoreCall, c.Allowed past →
      ∃ m', Ledger.Step ⟨current Ledger.start past, c⟩ m m' := by
  obtain ⟨m, hm⟩ := h.tracks
  exact ⟨m, hm, fun c hc => Ledger.step hm.keeps hm.sound c (hm.fitsIn hc)⟩

end Call

/-! ## Both stores -/

namespace Memory

/-- Soundness of the store in memory, as a collection of entries. -/
theorem Sound.allSound {m : Memory} (h : m.Sound) : AllSound m.jobs :=
  fun j hj => ⟨j.standing, rfl, h j hj⟩

theorem livesOn {past : List (Exchange Memory)} (h : History Memory.empty past) :
    AllSound (current .empty past).jobs ∧ ∀ c : StoreCall, c.Allowed past →
      LivesOn c (current .empty past).jobs (c.run (current .empty past)).2.jobs := by
  obtain ⟨m, hm, hnext⟩ := h.next
  obtain rfl : current Memory.empty past = m := hm.keeps
  refine ⟨hm.sound.allSound, fun c hc j hj => ?_⟩
  obtain ⟨m', hs⟩ := hnext c hc
  obtain rfl : (c.run (current Memory.empty past)).2 = m' := hs.keeps
  have hlives := hm.lives hs (Keyed.get?_key hj)
  cases hk : (c.run (current Memory.empty past)).2.jobs.get? j.id with
  | some k =>
    rw [hk] at hlives
    exact hlives
  | none =>
    rw [hk] at hlives
    obtain ⟨t, hpurge, done⟩ := hlives
    exact ⟨t, j.standing, hpurge, rfl, done⟩

end Memory

namespace Table

theorem Holds.allSound {t : Table} {m : Memory} (h : t.Holds m) (hm : m.Sound) :
    AllSound t.rows := by
  intro r hr
  rw [h.rows] at hr
  obtain ⟨j, hj, rfl⟩ := List.mem_map.mp hr
  exact ⟨j.standing, Row.stands_ofJob j, hm j hj⟩

theorem livesOn {past : List (Exchange Table)} (h : History Table.empty past) :
    AllSound (current .empty past).rows ∧ ∀ c : StoreCall, c.Allowed past →
      LivesOn c (current .empty past).rows (c.run (current .empty past)).2.rows := by
  obtain ⟨m, hm, hnext⟩ := h.next
  have hholds : (current Table.empty past).Holds m := hm.keeps
  refine ⟨hholds.allSound hm.sound, fun c hc r hr => ?_⟩
  obtain ⟨m', hs⟩ := hnext c hc
  have hholds' : (c.run (current Table.empty past)).2.Holds m' := hs.keeps
  rw [hholds.rows] at hr
  obtain ⟨j, hj, rfl⟩ := List.mem_map.mp hr
  have hlives := hm.lives hs (Keyed.get?_key hj)
  rw [Row.id_ofJob, hholds'.get? j.id]
  cases hk : m'.jobs.get? j.id with
  | some k =>
    rw [hk] at hlives
    exact Row.evolves_ofJob hlives
  | none =>
    rw [hk] at hlives
    obtain ⟨t, hpurge, done⟩ := hlives
    exact ⟨t, j.standing, hpurge, Row.stands_ofJob j, done⟩

end Table

/-- **Jobs live soundly in both stores.** In every history all entries are sound, and every call
that may come next lets each of them live on. -/
theorem stored_jobs_live_soundly :
    (∀ past : List (Exchange Memory), History Memory.empty past →
      AllSound (current .empty past).jobs ∧ ∀ c : StoreCall, c.Allowed past →
        LivesOn c (current .empty past).jobs (c.run (current .empty past)).2.jobs) ∧
    (∀ past : List (Exchange Table), History Table.empty past →
      AllSound (current .empty past).rows ∧ ∀ c : StoreCall, c.Allowed past →
        LivesOn c (current .empty past).rows (c.run (current .empty past)).2.rows) :=
  ⟨fun _ h => Memory.livesOn h, fun _ h => Table.livesOn h⟩

/-- A plain job lives soundly up to the end of its attempt, and through a purge. -/
theorem plain_job_lives_soundly :
    (AllSound (current .empty (replay Memory.empty (firstAttempt .plain .epoch 1))).jobs ∧
      LivesOn (.purgeSucceeded .latest)
        (current .empty (replay Memory.empty (firstAttempt .plain .epoch 1))).jobs
        (StoreCall.run (.purgeSucceeded .latest)
          (current .empty (replay Memory.empty (firstAttempt .plain .epoch 1)))).2.jobs) ∧
    (AllSound (current .empty (replay Table.empty (firstAttempt .plain .epoch 1))).rows ∧
      LivesOn (.purgeSucceeded .latest)
        (current .empty (replay Table.empty (firstAttempt .plain .epoch 1))).rows
        (StoreCall.run (.purgeSucceeded .latest)
          (current .empty (replay Table.empty (firstAttempt .plain .epoch 1)))).2.rows) := by
  have hmemory : History Memory.empty (replay Memory.empty (firstAttempt .plain .epoch 1)) :=
    History.firstAttempt 1 (by decide) (by decide) rfl
  have htable : History Table.empty (replay Table.empty (firstAttempt .plain .epoch 1)) :=
    History.firstAttempt 1 (by decide) (by decide) rfl
  obtain ⟨inMemory, inTable⟩ := stored_jobs_live_soundly
  exact ⟨⟨(inMemory _ hmemory).1, (inMemory _ hmemory).2 _ trivial⟩,
    ⟨(inTable _ htable).1, (inTable _ htable).2 _ trivial⟩⟩

end SyncJobs
