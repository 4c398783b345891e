import SyncJobs.Proofs.Refinement

/-!
# What a store shows of its jobs

A `Ledger` is known by the jobs that it keeps. A `Shelf` is a ledger whose jobs can be looked at
without them: it shows where each job stands and whether it is due. Both stores are shelves, the
store in memory with its jobs and the table with its rows.

A shelf also answers for its list of due jobs. Whatever is listed is stored and due, and a list is
empty only if no job is due: the first due job of an account is always within the cap.
-/

namespace SyncJobs

/-- How many times a job may still be claimed, if each attempt comes to an end. -/
def Job.claimsLeft (j : Job) : Nat :=
  match j.status with
  | .pending => j.maxAttempts.toNat - j.attempts.toNat
  | .running => j.maxAttempts.toNat - (j.attempts.toNat + 1)
  | .succeeded => 0
  | .deadLetter => 0

/-- How many times the jobs of a store may still be claimed. -/
def Memory.claimsLeft (m : Memory) : Nat :=
  m.jobs.toList.foldr (fun j n => j.claimsLeft + n) 0

/-- **A ledger whose jobs can be looked at.** -/
class Shelf (σ : Type) extends Ledger σ where
  /-- where the job with an id stands, if it is stored -/
  standing : σ → JobId → Option Standing
  /-- whether the job with an id may be claimed -/
  isDue : σ → Instant → JobId → Bool
  standing_eq {s : σ} {m : Memory} (i : JobId) : Keeps s m →
    standing s i = (m.jobs.get? i).map Job.standing
  isDue_eq {s : σ} {m : Memory} (now : Instant) (i : JobId) : Keeps s m →
    isDue s now i = (m.jobs.get? i).any (·.isDue (round now))
  /-- what is listed is stored, due, and shown as it is read -/
  dueJobs_found {s : σ} {m : Memory} {now : Instant} {limit : Nat} {cap : Option Nat}
    {js : List Job} : Keeps s m → (dueJobs now limit cap s).1 = .ok js →
    ∀ j ∈ js, ∃ k, m.jobs.get? j.id = some k ∧ k.isDue (round now) ∧ k.readWith reread = .ok j
  /-- an empty list means that no job is due -/
  dueJobs_nil {s : σ} {m : Memory} {now : Instant} {limit : Nat} {cap : Option Nat} :
    Keeps s m → 0 < limit → (∀ c, cap = some c → 0 < c) → (dueJobs now limit cap s).1 = .ok [] →
    ∀ i j, m.jobs.get? i = some j → ¬ j.isDue (round now)
  round_mono {t u : Instant} : t ≤ u → round t ≤ round u
  claimsLeft_le {s : σ} {m : Memory} : Keeps s m → m.claimsLeft ≤ backlog s

/-! ## The store in memory -/

/-- A job is left at most its remaining attempts. -/
theorem Job.claimsLeft_le (j : Job) : j.claimsLeft ≤ j.maxAttempts.toNat - j.attempts.toNat := by
  rw [claimsLeft]
  cases j.status with
  | pending => exact Nat.le_refl _
  | running => exact Nat.sub_le_sub_left (Nat.le_succ _) _
  | succeeded => exact Nat.zero_le _
  | deadLetter => exact Nat.zero_le _

/-- Jobs that have ended are not claimed any more. -/
theorem Job.claimsLeft_of_isTerminal {j : Job} (h : j.status.isTerminal) : j.claimsLeft = 0 := by
  rw [claimsLeft]
  cases hs : j.status with
  | pending => rw [hs] at h; cases h
  | running => rw [hs] at h; cases h
  | succeeded => rfl
  | deadLetter => rfl

/-- The attempts that are left, as a number. -/
theorem Job.toNat_remaining (j : Job) :
    j.remaining.toNat = j.maxAttempts.toNat - j.attempts.toNat := by
  rw [remaining]
  split
  · rename_i h
    exact UInt32.toNat_sub_of_le _ _ h
  · rename_i h
    rw [UInt32.le_iff_toNat_le] at h
    exact (Nat.sub_eq_zero_of_le (by omega)).symm

namespace Memory

/-- Listed jobs are jobs of the store that are due. -/
theorem of_mem_dueJobs {m : Memory} {now : Instant} {limit : Nat} {cap : Option Nat} {j : Job}
    (h : j ∈ m.dueJobs now limit cap) : m.jobs.get? j.id = some j ∧ j.isDue now := by
  have hdue : j ∈ m.jobs.toList.filter (·.isDue now) :=
    List.mem_mergeSort.mp (Table.mem_of_mem_takeWindow h)
  obtain ⟨hj, due⟩ := List.mem_filter.mp hdue
  exact ⟨Keyed.get?_key hj, due⟩

/-- The first due job is always listed. -/
theorem due_eq_nil_of_dueJobs {m : Memory} {now : Instant} {limit : Nat} {cap : Option Nat}
    (hlimit : 0 < limit) (hcap : ∀ c, cap = some c → 0 < c) (h : m.dueJobs now limit cap = []) :
    m.jobs.toList.filter (·.isDue now) = [] := by
  have hdue : m.due now = [] := by
    rw [dueJobs] at h
    cases hd : m.due now with
    | nil => rfl
    | cons j js =>
      have hroom : ¬ limit ≤ ([] : List AccountId).length := Nat.not_le.mpr hlimit
      have hheld : ¬ (cap.any fun c => c ≤ ([] : List AccountId).count j.account) := by
        cases cap with
        | none => exact Bool.false_ne_true
        | some c =>
          rw [Option.any_some, List.count_nil, decide_eq_true_eq]
          exact Nat.not_le.mpr (hcap c rfl)
      rw [hd, takeWindow, if_neg hroom, if_neg hheld] at h
      cases h
  exact List.Perm.eq_nil (hdue ▸ (List.mergeSort_perm _ Job.precedes).symm)

theorem claimsLeft_le_backlog (m : Memory) : m.claimsLeft ≤ m.backlog := by
  rw [claimsLeft, backlog]
  induction m.jobs.toList with
  | nil => exact Nat.le_refl _
  | cons j js ih =>
    rw [List.foldr_cons, List.filter_cons]
    by_cases hended : j.status.isTerminal
    · rw [Job.claimsLeft_of_isTerminal hended]
      simpa [hended] using ih
    · have hj := j.claimsLeft_le
      rw [← Job.toNat_remaining] at hj
      simp only [hended, Bool.not_false, if_true, List.foldr_cons]
      omega

instance : Shelf Memory where
  standing m i := (m.jobs.get? i).map Job.standing
  isDue m now i := (m.jobs.get? i).any (·.isDue now)
  standing_eq := by
    rintro m _ i rfl
    rfl
  isDue_eq := by
    rintro m _ now i rfl
    rfl
  dueJobs_found := by
    rintro m _ now limit cap js rfl h j hj
    obtain rfl := Except.ok.inj h
    obtain ⟨hget, due⟩ := of_mem_dueJobs hj
    exact ⟨j, hget, due, Job.readWith_eq_ok.mpr ⟨_, rfl, rfl⟩⟩
  dueJobs_nil := by
    rintro m _ now limit cap rfl hlimit hcap h i j hj due
    have hnil := due_eq_nil_of_dueJobs hlimit hcap (Except.ok.inj h)
    exact List.filter_eq_nil_iff.mp hnil j (Keyed.get?_eq_some_iff.mp hj).1 due
  round_mono h := h
  claimsLeft_le := by
    rintro m _ rfl
    exact m.claimsLeft_le_backlog

end Memory

/-! ## The table -/

/-- Where the job of a row stands, if its status has a known name. -/
def Row.standing? (r : Row) : Option Standing :=
  (Status.ofName? r.status).map fun status => ⟨status, r.attempts, r.maxAttempts, r.lastError⟩

theorem Row.standing?_ofJob (j : Job) : (ofJob j).standing? = some j.standing := by
  rw [standing?, ofJob, Status.ofName?_name]
  rfl

namespace Table

/-- What is read are the jobs of the rows, one by one. -/
theorem readAll_eq_ok {rows : List Row} {js : List Job} (h : readAll rows = .ok js) :
    List.Forall₂ (fun r j => r.toJob? = .ok j) rows js := by
  induction rows generalizing js with
  | nil =>
    obtain rfl := Except.ok.inj h
    exact .nil
  | cons r rows ih =>
    rw [readAll, List.mapM_cons] at h
    cases hr : r.toJob? with
    | error e => rw [hr] at h; cases h
    | ok j =>
      cases hrows : rows.mapM Row.toJob? with
      | error e => rw [hr, hrows] at h; cases h
      | ok js' =>
        rw [hr, hrows] at h
        obtain rfl := Except.ok.inj h
        exact .cons hr (ih hrows)

/-- A job that is read is the job of one of the rows. -/
theorem exists_of_mem_readAll {rows : List Row} {js : List Job} (h : readAll rows = .ok js)
    {j : Job} (hj : j ∈ js) : ∃ r ∈ rows, r.toJob? = .ok j := by
  have hread := readAll_eq_ok h
  clear h
  induction hread with
  | nil => cases hj
  | @cons r k rows js hr _ ih =>
    rcases List.mem_cons.mp hj with rfl | hj
    · exact ⟨r, List.mem_cons_self, hr⟩
    · obtain ⟨r', hr', hread⟩ := ih hj
      exact ⟨r', List.mem_cons_of_mem _ hr', hread⟩

variable {t : Table} {m : Memory}

/-- The due rows are the rows of the due jobs. -/
theorem Holds.filter_isDue (h : t.Holds m) (now : Instant) :
    t.rows.toList.filter (Table.isDue now.millis) =
      (m.jobs.toList.filter fun j => j.isDue now.floor).map Row.ofJob :=
  h.filter fun j hj => Row.isDue_ofJob (h.whole j hj) now

/-- Listed rows are rows of jobs that are due. -/
theorem Holds.of_mem_dueRows (h : t.Holds m) {now : Instant} {limit : Nat} {cap : Option Nat}
    {r : Row} (hr : r ∈ t.dueRows now.millis limit cap) :
    ∃ j, m.jobs.get? j.id = some j ∧ j.isDue now.floor ∧ r = Row.ofJob j := by
  rw [Table.dueRows, h.filter_isDue now] at hr
  obtain ⟨j, hj, rfl⟩ := List.mem_map.mp
    (List.mem_filter.mp (List.mem_mergeSort.mp (List.mem_of_mem_take hr))).1
  obtain ⟨hj, due⟩ := List.mem_filter.mp hj
  exact ⟨j, Keyed.get?_key hj, due, rfl⟩

/-- The first due row has place one in its account, so it is always listed. -/
theorem Holds.due_eq_nil_of_dueRows (h : t.Holds m) {now : Instant} {limit : Nat}
    {cap : Option Nat} (hlimit : 0 < limit) (hcap : ∀ c, cap = some c → 0 < c)
    (hnil : t.dueRows now.millis limit cap = []) :
    m.jobs.toList.filter (fun j => j.isDue now.floor) = [] := by
  let due := m.jobs.toList.filter fun j => j.isDue now.floor
  have hwhole : ∀ j ∈ due, j.IsWhole := fun j hj => h.whole j (List.mem_filter.mp hj).1
  have hids : (due.map Job.id).Nodup := m.jobs.nodup.sublist (List.filter_sublist.map _)
  have hperm := List.mergeSort_perm due Job.precedes
  cases hsorted : due.mergeSort Job.precedes with
  | nil =>
    rw [hsorted] at hperm
    exact List.Perm.eq_nil hperm.symm
  | cons j js =>
    have hj : j ∈ due := hperm.subset (hsorted ▸ List.mem_cons_self)
    have hplace : Job.placeIn due j = 1 := by
      have hpairs := Job.pairwise_mergeSort due
      have hids' := (hperm.map Job.id).nodup_iff.mpr hids
      rw [hsorted] at hpairs hids'
      rw [← Job.placeIn_perm hperm, hsorted]
      exact @Job.placeIn_append [] js j hpairs hids'
    have hcap' : 1 ≤ (cap.getD largest).min largest := by
      cases cap with
      | none => decide
      | some c => exact Nat.le_min.mpr ⟨hcap c rfl, by decide⟩
    have hranked : Row.ofJob j ∈ (due.map Row.ofJob).filter fun r =>
        rankIn (due.map Row.ofJob) r ≤ (cap.getD largest).min largest := by
      refine List.mem_filter.mpr ⟨List.mem_map_of_mem hj, ?_⟩
      rw [rankIn_map hwhole hj, hplace]
      exact decide_eq_true hcap'
    rw [Table.dueRows, h.filter_isDue now, List.take_eq_nil_iff] at hnil
    rcases hnil with hzero | hnil
    · have hpos : 0 < limit.min largest := Nat.lt_min.mpr ⟨hlimit, by decide⟩
      omega
    · have hmem := (List.mergeSort_perm _ Row.precedes).symm.subset hranked
      rw [hnil] at hmem
      cases hmem

/-- Rows keep count of at least the claims that are left to their jobs. -/
theorem Holds.claimsLeft_le_backlog (h : t.Holds m) : m.claimsLeft ≤ t.backlog := by
  rw [Memory.claimsLeft, backlog, h.rows]
  induction m.jobs.toList with
  | nil => exact Nat.le_refl _
  | cons j js ih =>
    have hj := j.claimsLeft_le
    have hrow : ((Row.ofJob j).maxAttempts - (Row.ofJob j).attempts).toNat =
        j.maxAttempts.toNat - j.attempts.toNat := Int.toNat_sub _ _
    simp only [List.map_cons, List.foldr_cons, hrow]
    omega

instance : Shelf Table where
  standing t i := (t.rows.get? i.storage).bind Row.standing?
  isDue t now i := (t.rows.get? i.storage).any (Table.isDue now.millis)
  standing_eq := by
    intro t m i h
    have hget : t.rows.get? i.storage = (m.jobs.get? i).map Row.ofJob := Holds.get? h i
    rw [hget]
    cases m.jobs.get? i with
    | none => rfl
    | some j => exact Row.standing?_ofJob j
  isDue_eq := by
    intro t m now i h
    have hget : t.rows.get? i.storage = (m.jobs.get? i).map Row.ofJob := Holds.get? h i
    rw [hget]
    cases hj : m.jobs.get? i with
    | none => rfl
    | some j => exact Row.isDue_ofJob (Holds.isWhole h hj) now
  dueJobs_found := by
    intro t m now limit cap js h hjs j hj
    obtain ⟨r, hr, hread⟩ := exists_of_mem_readAll hjs hj
    obtain ⟨k, hk, due, rfl⟩ := Holds.of_mem_dueRows h hr
    rw [Row.toJob?_ofJob (Holds.isWhole h hk)] at hread
    obtain ⟨p, -, rfl⟩ := Job.readWith_eq_ok.mp hread
    exact ⟨k, hk, due, hread⟩
  dueJobs_nil := by
    intro t m now limit cap h hlimit hcap hjs i j hj due
    have hrows : t.dueRows now.millis limit cap = [] := List.forall₂_nil_right_iff.mp
      (readAll_eq_ok hjs)
    have hnil := Holds.due_eq_nil_of_dueRows h hlimit hcap hrows
    exact List.filter_eq_nil_iff.mp hnil j (Keyed.get?_eq_some_iff.mp hj).1 due
  round_mono {t u} h := by
    rw [Instant.le_def] at h
    show t.floor ≤ u.floor
    rw [Instant.floor_le_floor, Instant.millis, Instant.millis,
      Int.fdiv_eq_ediv_of_nonneg _ (by decide), Int.fdiv_eq_ediv_of_nonneg _ (by decide)]
    omega
  claimsLeft_le h := Holds.claimsLeft_le_backlog h

end Table

end SyncJobs
