import SyncJobs.Dispatch
import SyncJobs.Proofs.Shelf

/-!
# How far a run that is alone has come

A run that has the store for itself changes jobs in two ways: it claims them, and it settles what
it has claimed. `Progress` says what that comes to since its start: the jobs of its attempts are
running, also of those attempts that were lost, and any other job is as it was or has at least one
attempt more behind it.

Each claim takes from the number of claims that are left to the jobs (`Memory.claimsLeft`), and
nothing that the run does ever adds to it. That is why the run comes to an end.
-/

namespace SyncJobs

/-! ## Claims that are left -/

/-- Changing one job of a list changes the claims that are left by what it changes for the job. -/
theorem claimsLeft_map {l : List Job} (hl : (l.map Job.id).Nodup) {j : Job} (hj : j ∈ l)
    (f : Job → Job) :
    (l.map fun k => if k.id = j.id then f k else k).foldr (fun j n => j.claimsLeft + n) 0 +
        j.claimsLeft =
      l.foldr (fun j n => j.claimsLeft + n) 0 + (f j).claimsLeft := by
  induction l with
  | nil => cases hj
  | cons k l ih =>
    obtain ⟨hk, hl⟩ := List.nodup_cons.mp hl
    rw [List.map_cons, List.foldr_cons, List.foldr_cons]
    rcases List.mem_cons.mp hj with rfl | hj
    -- no other job of the list has this id
    · have hrest : (l.map fun k => if k.id = j.id then f k else k) = l := by
        refine (List.map_congr_left fun k' hk' => if_neg fun hid => hk ?_).trans (List.map_id' l)
        exact hid ▸ List.mem_map_of_mem hk'
      rw [hrest, if_pos rfl]
      omega
    · have hne : k.id ≠ j.id := fun hid => hk (hid ▸ List.mem_map_of_mem hj)
      have hrest := ih hl hj
      rw [if_neg hne]
      omega

namespace Memory

variable {m₀ m : Memory} {i : JobId} {j k : Job} {t : Instant} {batch : List Attempt}

theorem claimsLeft_modify (hj : m.jobs.get? i = some j) (f : Job → Job)
    (hf : ∀ j, (f j).id = j.id) :
    (m.modify i f hf).claimsLeft + j.claimsLeft = m.claimsLeft + (f j).claimsLeft := by
  obtain ⟨hmem, rfl⟩ := Keyed.get?_eq_some_iff.mp hj
  have hmap := claimsLeft_map m.jobs.nodup hmem f
  rw [claimsLeft, claimsLeft, modify, Keyed.toList_update]
  simpa only [decide_eq_true_eq] using hmap

/-- A claim takes one from the claims that are left. -/
theorem claimsLeft_claim (hm : m.Sound) (hj : m.jobs.get? i = some j) (due : j.isDue t) :
    (m.claim i t).2.claimsLeft + 1 = m.claimsLeft := by
  have hpending := Job.status_of_isDue due
  have hlt := ((hm.of_get? hj).open_ (.inl hpending)).1
  simp only [Job.standing] at hlt
  have hmodify := claimsLeft_modify hj (Job.start t) (Job.id_start t)
  have hbefore : j.claimsLeft = j.maxAttempts.toNat - j.attempts.toNat := by
    rw [Job.claimsLeft, hpending]
  have hafter : (j.start t).claimsLeft = j.maxAttempts.toNat - (j.attempts.toNat + 1) := rfl
  simp only [claim, hj, due, if_true]
  omega

/-- A completion adds nothing to the claims that are left. -/
theorem claimsLeft_complete (hm : m.Sound) (r : Receipt) (d : Decision) (t : Instant) :
    (m.complete r d t).2.claimsLeft ≤ m.claimsLeft := by
  cases hr : (m.complete r d t).1 with
  | error e => exact Nat.le_of_eq (congrArg claimsLeft (m.complete_state_of_error hr))
  | ok k =>
    obtain ⟨j, hj, running, current, rfl⟩ := complete_eq_ok hr
    have hnext := (hm.of_get? hj).toNat_nextAttempt running
    have hmodify := claimsLeft_modify hj (Job.settle d t) (Job.id_settle d t)
    have hbefore : j.claimsLeft = j.maxAttempts.toNat - (j.attempts.toNat + 1) := by
      rw [Job.claimsLeft, running]
    have hafter := (j.settle d t).claimsLeft_le
    have hattempts : (j.settle d t).attempts.toNat = j.attempts.toNat + 1 := hnext
    have hmax : (j.settle d t).maxAttempts = j.maxAttempts := rfl
    rw [hattempts, hmax] at hafter
    simp only [complete, hj, running, current, ne_eq, not_true_eq_false, if_false]
    omega

/-! ## Progress -/

/-- The job has been attempted since the start of the run: it was waiting then, runs no more, and
has more attempts than it had. Jobs that are doomed never come so far. -/
def Attempted (doomed : JobId → Prop) (m₀ m : Memory) (i : JobId) : Prop :=
  ∃ j k, m₀.jobs.get? i = some j ∧ m.jobs.get? i = some k ∧ j.SameOrigin k ∧
    j.status = .pending ∧ k.status ≠ .running ∧ j.attempts.toNat < k.attempts.toNat ∧ ¬ doomed i

/-- **What a run that is alone has done** since its start, when it has begun some attempts and not
settled them. Jobs are read with `read`, and no attempt at a doomed job is ever settled. -/
structure Progress (read : Payload → Except StoreError Payload) (doomed : JobId → Prop)
    (m₀ m : Memory) (batch : List Attempt) : Prop where
  /-- the jobs of the attempts were waiting, and run as they were claimed -/
  running : ∀ a ∈ batch, ∃ j k, m₀.jobs.get? a.job.id = some j ∧ m.jobs.get? a.job.id = some k ∧
    j.SameOrigin k ∧ j.status = .pending ∧ k.status = .running ∧ k.readWith read = .ok a.job ∧
    (j.attempts = k.attempts ∨ j.attempts.toNat < k.attempts.toNat ∧ ¬ doomed a.job.id)
  /-- all other jobs are as they were, or were attempted -/
  others : ∀ i, (∀ a ∈ batch, a.job.id ≠ i) →
    m.jobs.get? i = m₀.jobs.get? i ∨ Attempted doomed m₀ m i

variable {read : Payload → Except StoreError Payload} {doomed : JobId → Prop}

theorem progress_start (m : Memory) : Progress read doomed m m [] :=
  ⟨fun _ ha => absurd ha List.not_mem_nil, fun _ _ => .inl rfl⟩

/-- The order of the attempts does not matter. -/
theorem Progress.perm (h : Progress read doomed m₀ m batch) {batch' : List Attempt}
    (hperm : batch.Perm batch') : Progress read doomed m₀ m batch' :=
  ⟨fun a ha => h.running a (hperm.mem_iff.mpr ha),
    fun i hi => h.others i fun a ha => hi a (hperm.mem_iff.mp ha)⟩

/-- A job that is due is none of those that are being attempted. -/
theorem Progress.ne_of_isDue (h : Progress read doomed m₀ m batch) (hk : m.jobs.get? i = some k)
    (due : k.isDue t) : ∀ a ∈ batch, a.job.id ≠ i := by
  rintro a ha rfl
  obtain ⟨-, k', -, hk', -, -, running, -⟩ := h.running a ha
  obtain rfl := Option.some.inj (hk.symm.trans hk')
  rw [Job.status_of_isDue due] at running
  cases running

/-- **A claim** of a job that is due begins one more attempt. -/
theorem Progress.claim (h : Progress read doomed m₀ m batch) (hk : m.jobs.get? i = some k)
    (due : k.isDue t) {a : Attempt} (hread : (k.start t).readWith read = .ok a.job) :
    Progress read doomed m₀ (m.claim i t).2 (batch ++ [a]) := by
  have hid : a.job.id = i := by
    obtain ⟨p, -, hjob⟩ := Job.readWith_eq_ok.mp hread
    rw [← hjob]
    have hid : k.id = i := id_of_get? hk
    exact hid
  have hne := h.ne_of_isDue hk due
  have hget : ∀ i', (m.claim i t).2.jobs.get? i' =
      if i' = i then (m.jobs.get? i').map (Job.start t) else m.jobs.get? i' := by
    intro i'
    simp only [Memory.claim, hk, due, if_true, get?_modify]
  constructor
  · intro b hb
    rcases List.mem_append.mp hb with hb | hb
    · rw [hget, if_neg (hne b hb)]
      exact h.running b hb
    · obtain rfl := List.mem_singleton.mp hb
      rw [hid, hget, if_pos rfl, hk]
      rcases h.others i hne with hsame | ⟨j, k', hj, hk', origin, waiting, -, hlt, hsafe⟩
      · exact ⟨k, _, hsame ▸ hk, rfl, k.sameOrigin_start t, Job.status_of_isDue due, rfl, hread,
          .inl rfl⟩
      · obtain rfl := Option.some.inj (hk.symm.trans hk')
        exact ⟨j, _, hj, rfl, origin.trans (k.sameOrigin_start t), waiting, rfl, hread,
          .inr ⟨hlt, hsafe⟩⟩
  · intro i' hi'
    have hi : i' ≠ i := fun he => hi' a (by simp) (hid.trans he.symm)
    have hget' := hget i'
    rw [if_neg hi] at hget'
    rw [Attempted, hget']
    exact h.others i' fun b hb => hi' b (List.mem_append_left _ hb)

/-- **A completion** that is not refused ends one attempt. -/
theorem Progress.complete (h : Progress read doomed m₀ m batch) (hm : m.Sound) {a : Attempt}
    (ha : a ∈ batch) (hsafe : ¬ doomed a.job.id) {d : Decision}
    (hok : (m.complete a.job.receipt d t).1 = .ok k) :
    Progress read doomed m₀ (m.complete a.job.receipt d t).2
      (batch.filter fun b => b.job.receipt ≠ a.job.receipt) := by
  obtain ⟨l, hl, running, current, rfl⟩ := complete_eq_ok hok
  have hget : ∀ i, (m.complete a.job.receipt d t).2.jobs.get? i =
      if i = a.job.id then (m.jobs.get? i).map (Job.settle d t) else m.jobs.get? i := by
    intro i
    simp only [Memory.complete, hl, running, current, ne_eq, not_true_eq_false, if_false]
    exact get?_modify m a.job.receipt.job i _ _
  constructor
  · intro b hb
    obtain ⟨hb, hreceipt⟩ := List.mem_filter.mp hb
    -- two attempts at one job would be under one receipt
    have hne : b.job.id ≠ a.job.id := by
      intro hid
      obtain ⟨-, k₁, -, hk₁, -, -, -, hread₁, -⟩ := h.running a ha
      obtain ⟨-, k₂, -, hk₂, -, -, -, hread₂, -⟩ := h.running b hb
      rw [hid] at hk₂
      obtain rfl := Option.some.inj (hk₁.symm.trans hk₂)
      refine of_decide_eq_true hreceipt ?_
      rw [Except.ok.inj (hread₁.symm.trans hread₂)]
    rw [hget, if_neg hne]
    exact h.running b hb
  · intro i hi
    have hget' := hget i
    by_cases hia : i = a.job.id
    · subst hia
      obtain ⟨j, k', hj, hk', origin, waiting, -, -, hattempts⟩ := h.running a ha
      have hk'' : m.jobs.get? a.job.id = some l := hl
      obtain rfl := Option.some.inj (hk''.symm.trans hk')
      have hnext := (hm.of_get? hl).toNat_nextAttempt running
      have hsettled : (l.settle d t).attempts.toNat = l.attempts.toNat + 1 := hnext
      have hlt : j.attempts.toNat < (l.settle d t).attempts.toNat := by
        rcases hattempts with hsame | ⟨hlt, -⟩
        · rw [hsettled, hsame]
          exact Nat.lt_succ_self _
        · omega
      rw [if_pos rfl, hk''] at hget'
      exact .inr ⟨j, _, hj, hget', origin.trans (l.sameOrigin_settle d t), waiting,
        d.nextStatus_ne_running, hlt, hsafe⟩
    · rw [if_neg hia] at hget'
      rw [Attempted, hget']
      refine h.others i fun b hb hid => ?_
      by_cases hreceipt : b.job.receipt = a.job.receipt
      · exact hia (hid ▸ congrArg Receipt.job hreceipt)
      · exact hi b (List.mem_filter.mpr ⟨hb, decide_eq_true hreceipt⟩) hid

end Memory

end SyncJobs
