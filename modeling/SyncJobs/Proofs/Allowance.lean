import SyncJobs.Proofs.Advance
import SyncJobs.Proofs.Totals

/-!
# How many claims the waiting jobs allow

Let some callers share a store, with nobody else adding jobs or taking them back. They start with
no attempts in flight. Then the claims that are answered with a job are no more than the attempts
that are left to the waiting jobs at the start (`Inventory.allowance`).

The number that carries this is what the jobs still owe to the callers (`Job.owed`): a waiting job
owes its remaining attempts, and a job of an attempt in flight those that remain after it. A job
that runs under a receipt that nobody holds owes nothing, which is the fate of a job whose
completion failed or whose claim was not answered. No call adds to what is owed, and a claim that
is answered with a job takes one from it (`Spends.claim`).
-/

namespace SyncJobs

/-! ## What jobs owe -/

/-- **How often a job may still be claimed** by callers that hold some receipts. -/
def Job.owed (held : List Receipt) (j : Job) : Nat :=
  match j.status with
  | .pending => j.maxAttempts.toNat - j.attempts.toNat
  | .running => if j.receipt ∈ held then j.maxAttempts.toNat - (j.attempts.toNat + 1) else 0
  | .succeeded => 0
  | .deadLetter => 0

namespace Job

variable {held held' : List Receipt} {j : Job}

/-- No job owes more than its remaining attempts. -/
theorem owed_le (held : List Receipt) (j : Job) :
    j.owed held ≤ j.maxAttempts.toNat - j.attempts.toNat := by
  rw [owed]
  cases j.status with
  | pending => exact Nat.le_refl _
  | running =>
    show (if j.receipt ∈ held then _ else 0) ≤ _
    split <;> omega
  | succeeded => exact Nat.zero_le _
  | deadLetter => exact Nat.zero_le _

/-- Nothing is owed to fewer receipts that is not owed to more. -/
theorem owed_mono (h : j.status = .running → j.receipt ∈ held → j.receipt ∈ held') :
    j.owed held ≤ j.owed held' := by
  rw [owed, owed]
  cases hs : j.status with
  | pending => exact Nat.le_refl _
  | running =>
    show (if j.receipt ∈ held then _ else 0) ≤ if j.receipt ∈ held' then _ else 0
    split
    · rename_i hj
      rw [if_pos (h hs hj)]
    · exact Nat.zero_le _
  | succeeded => exact Nat.zero_le _
  | deadLetter => exact Nat.zero_le _

theorem owed_of_pending (h : j.status = .pending) :
    j.owed held = j.maxAttempts.toNat - j.attempts.toNat := by
  rw [owed, h]

theorem owed_of_held (h : j.status = .running) (hj : j.receipt ∈ held) :
    j.owed held = j.maxAttempts.toNat - (j.attempts.toNat + 1) := by
  rw [owed, h]
  exact if_pos hj

/-- A job that is started owes no more than it did. -/
theorem owed_start_le {now : Instant} (due : j.isDue now) :
    (j.start now).owed held ≤ j.owed held := by
  rw [owed_of_pending (status_of_isDue due)]
  exact owed_le held (j.start now)

/-- With no receipts held, a job owes what it is allowed by where it stands. -/
theorem owed_nil (j : Job) : j.owed [] = j.standing.allowance := by
  rw [owed, Standing.allowance, standing]
  cases j.status with
  | pending => exact (Int.toNat_sub _ _).symm
  | running => exact if_neg List.not_mem_nil
  | succeeded => rfl
  | deadLetter => rfl

end Job

namespace Memory

variable {m : Memory} {held held' : List Receipt}

/-- **A claim adds nothing** to what is owed, whether or not it is answered. -/
theorem total_owed_claim (m : Memory) (held : List Receipt) (i : JobId) (now : Instant) :
    (m.claim i now).2.total (Job.owed held) ≤ m.total (Job.owed held) := by
  cases hj : m.jobs.get? i with
  | none =>
    simp only [claim, hj]
    exact Nat.le_refl _
  | some j =>
    by_cases due : j.isDue now
    · have htotal := total_claim hj due (Job.owed held)
      have hle : (j.start now).owed held ≤ j.owed held := Job.owed_start_le due
      omega
    · simp only [claim, hj, due]
      exact Nat.le_refl _

/-- **A claim that hands out a receipt takes one** from what is owed. -/
theorem total_owed_begin {i : JobId} {now : Instant} {j : Job} (hm : m.Sound)
    (hj : m.jobs.get? i = some j) (due : j.isDue now) :
    (m.claim i now).2.total (Job.owed (j.receipt :: held)) + 1 ≤ m.total (Job.owed held) := by
  have hpending := Job.status_of_isDue due
  have hlt := ((hm.of_get? hj).open_ (.inl hpending)).1
  simp only [Job.standing] at hlt
  have htotal := total_claim hj due (Job.owed (j.receipt :: held))
  have hbefore : j.owed (j.receipt :: held) = j.maxAttempts.toNat - j.attempts.toNat :=
    Job.owed_of_pending hpending
  have hafter : (j.start now).owed (j.receipt :: held) =
      j.maxAttempts.toNat - (j.attempts.toNat + 1) :=
    Job.owed_of_held rfl List.mem_cons_self
  -- no other job runs under the new receipt
  have hothers : m.total (Job.owed (j.receipt :: held)) ≤ m.total (Job.owed held) := by
    refine total_mono fun k hk => Job.owed_mono fun running hreceipt => ?_
    refine (List.mem_cons.mp hreceipt).resolve_left fun hsame => ?_
    have hid : k.id = j.id := congrArg Receipt.job hsame
    obtain rfl := Keyed.eq_of_key_eq hk (Keyed.get?_eq_some_iff.mp hj).1 hid
    rw [hpending] at running
    cases running
  omega

/-- **A completion adds nothing** to what is owed, and its receipt need not be held any longer. -/
theorem total_owed_complete {r : Receipt} (hm : m.Sound) (hr : r ∈ held) (hheld : held' ⊆ held)
    (d : Decision) (now : Instant) :
    (m.complete r d now).2.total (Job.owed held') ≤ m.total (Job.owed held) := by
  have hmono : (m.complete r d now).2.total (Job.owed held') ≤
      (m.complete r d now).2.total (Job.owed held) :=
    total_mono fun k _ => Job.owed_mono fun _ hk => hheld hk
  refine hmono.trans ?_
  cases hanswer : (m.complete r d now).1 with
  | error e => rw [m.complete_state_of_error hanswer]
  | ok k =>
    obtain ⟨j, hj, running, current, rfl, htotal⟩ := total_complete hanswer (Job.owed held)
    have hnext := (hm.of_get? hj).toNat_nextAttempt running
    have hreceipt : j.receipt = r := by
      rw [Job.receipt, Memory.id_of_get? hj, current]
    have hbefore : j.owed held = j.maxAttempts.toNat - (j.attempts.toNat + 1) :=
      Job.owed_of_held running (hreceipt ▸ hr)
    have hafter := Job.owed_le held (j.settle d now)
    have hattempts : (j.settle d now).attempts.toNat = j.attempts.toNat + 1 := hnext
    have hmax : (j.settle d now).maxAttempts = j.maxAttempts := rfl
    rw [hattempts, hmax] at hafter
    omega

end Memory

/-! ## Spending -/

section Spending

variable {σ : Type} [Ledger σ]

/-- **Some claims were spent** of a number of them, by callers that hold some receipts. -/
def Spends (bound : Nat) (past : List (Exchange σ)) (held : List Receipt) (spent : Nat) : Prop :=
  ∃ m, Ledger.Tracks past m ∧ m.total (Job.owed held) + spent ≤ bound

namespace Spends

variable {bound spent : Nat} {past : List (Exchange σ)} {held held' : List Receipt}

/-- No more is spent than there is. -/
theorem spent_le (h : Spends bound past held spent) : spent ≤ bound := by
  obtain ⟨m, -, hle⟩ := h
  omega

/-- Receipts may be given away. -/
theorem mono (h : Spends bound past held spent) (hheld : held' ⊆ held) :
    Spends bound past held' spent := by
  obtain ⟨m, hm, hle⟩ := h
  have htotal : m.total (Job.owed held') ≤ m.total (Job.owed held) :=
    Memory.total_mono fun k _ => Job.owed_mono fun _ hk => hheld hk
  exact ⟨m, hm, by omega⟩

/-- A look spends nothing. -/
theorem dueJobs (h : Spends bound past held spent) (now : Instant) (limit : Nat)
    (cap : Option Nat) :
    Spends bound (⟨current Ledger.start past, .dueJobs now limit cap⟩ :: past) held spent := by
  obtain ⟨m, hm, hle⟩ := h
  have hstep := Ledger.Step.of_same (e := ⟨current Ledger.start past, .dueJobs now limit cap⟩)
    hm.keeps (Ledger.dueJobs_state _ now limit cap) rfl (by rintro _ _ _ ⟨⟩)
  exact ⟨m, hm.step (c := .dueJobs now limit cap) trivial hstep, hle⟩

/-- **A claim spends one** if it is answered with a job, whose receipt is held then. -/
theorem claim (h : Spends bound past held spent) (i : JobId) (now : Instant) :
    Spends bound (⟨current Ledger.start past, .claim i now⟩ :: past) held spent ∧
      ∀ j, (JobStore.claim i now (current Ledger.start past)).1 = .ok (some j) →
        Spends bound (⟨current Ledger.start past, .claim i now⟩ :: past) (j.receipt :: held)
          (spent + 1) := by
  obtain ⟨m, hm, hle⟩ := h
  have hstep := hm.step (c := .claim i now) trivial (Ledger.step_claim hm.keeps hm.sound i now)
  refine ⟨⟨_, hstep, ?_⟩, fun j hj => ⟨_, hstep, ?_⟩⟩
  · have htotal := m.total_owed_claim held i (Ledger.round σ now)
    omega
  · obtain ⟨hanswer, -⟩ := Ledger.keeps_claim i now hm.keeps hm.sound
    rw [hj] at hanswer
    obtain ⟨k, hk, due, -, hread⟩ :=
      (Memory.hands_claim hanswer.symm).started j (List.mem_singleton.mpr rfl)
    obtain ⟨p, -, hp⟩ := Job.readWith_eq_ok.mp hread
    have hid : j.id = i := Ledger.id_of_claim hm.keeps hm.sound hj
    have hreceipt : j.receipt = k.receipt := by
      rw [← hp]
      rfl
    rw [hid] at hk
    have htotal : (m.claim i (Ledger.round σ now)).2.total (Job.owed (k.receipt :: held)) + 1 ≤
        m.total (Job.owed held) := Memory.total_owed_begin hm.sound hk due
    rw [hreceipt]
    omega

/-- **A completion spends nothing,** and gives its receipt away. -/
theorem complete (h : Spends bound past held spent) {r : Receipt} (hr : r ∈ held)
    (hheld : held' ⊆ held) {d : Decision} {now : Instant}
    (hallowed : (StoreCall.complete r d now).Allowed past) :
    Spends bound (⟨current Ledger.start past, .complete r d now⟩ :: past) held' spent := by
  obtain ⟨m, hm, hle⟩ := h
  obtain ⟨m', hstep⟩ := Ledger.step hm.keeps hm.sound (.complete r d now) (hm.fitsIn hallowed)
  refine ⟨m', hm.step hallowed hstep, ?_⟩
  obtain rfl := hstep.completes r d now rfl
  have htotal := Memory.total_owed_complete hm.sound hr hheld (d.round (Ledger.round σ))
    (Ledger.round σ now)
  omega

end Spends

/-- **At the start** all that the waiting jobs allow is there to be spent. -/
theorem History.spends {σ : Type} [Inventory σ] {past : List (Exchange σ)}
    (h : History Ledger.start past) :
    Spends (Inventory.allowance (current Ledger.start past)) past [] 0 := by
  obtain ⟨m, hm⟩ := h.tracks
  refine ⟨m, hm, Nat.le_of_eq ?_⟩
  rw [Inventory.allowance, Inventory.standings_eq hm.keeps, List.map_map, Memory.total]
  exact congrArg List.sum (List.map_congr_left fun j _ => Job.owed_nil j)

end Spending

end SyncJobs
