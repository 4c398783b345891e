import SyncJobs.Demonstration
import SyncJobs.Scheduler
import SyncJobs.Proofs.Shadow
import SyncJobs.Proofs.Tracking

/-!
# Attempts that still have time are not taken back

A scheduler takes back the attempts that began `staleAfter` ago or earlier. Settings that break no
rule leave an attempt `timeout` before that, so an attempt that is taken back is past its deadline
(`Settings.Valid.outlasts`), in memory and in the table alike.

Two roundings could spoil this. Going back from the present stops at the earliest instant, where a
claim of the first millisecond could look as old as any; and the table compares whole milliseconds
only, which costs an attempt up to one of them.
-/

namespace SyncJobs

/-! ## Settings -/

/-- **Stale attempts are past their deadline.** If a claim is not later than the limit of
staleness even in whole milliseconds, its attempt had its time. -/
theorem Settings.Valid.outlasts {s : Settings} (h : s.Valid) {c now : Instant}
    (hc : Instant.earliest.nanos + 1000000 ≤ c.nanos)
    (hstale : c.millis ≤ (now.sub s.staleAfter).millis) :
    c.nanos + s.timeout.nanos < now.nanos := by
  have htimeout : s.timeoutMillis.toNat ≠ 0 :=
    h.positive ("job_timeout_ms", s.timeoutMillis.toNat) (by simp [Settings.positive])
  have hslack := h.slack
  have hfits := s.staleAfterMillis.toNat_lt
  have hupper := now.upper
  rw [Settings.twiceTimeout] at hslack
  simp only [Instant.millis, Instant.nanos_sub, Settings.staleAfter, Duration.nanos_ofMillis,
    Int.fdiv_eq_ediv_of_nonneg _ (show (0 : Int) ≤ 1000000 by decide)] at hstale
  simp only [Settings.timeout, Duration.nanos_ofMillis]
  simp only [Instant.earliest] at hc hstale
  -- the limit is no earlier than the claim, so it did not stop at the earliest instant
  omega

/-- Whole milliseconds keep the order of instants. -/
theorem Instant.millis_mono {s t : Instant} (h : s ≤ t) : s.millis ≤ t.millis := by
  rw [Instant.le_def] at h
  simp only [Instant.millis, Int.fdiv_eq_ediv_of_nonneg _ (show (0 : Int) ≤ 1000000 by decide)]
  omega

/-! ## Attempts that are taken back -/

/-- **An attempt is taken back.** `entry` tells what a store keeps under an id; the attempt is that
of the entry `e`, which a claim at the time `c` wrote and nothing has changed since. -/
structure TakesBack {σ ω ρ : Type} [JobStore σ] [World ω] (entry : σ → JobId → Option ρ)
    (s : Scheduler σ ω) (c : Instant) (before : σ) (i : JobId) (e : ρ) : Prop where
  /-- the entry is not older than the claim -/
  new : entry before i ≠ some e
  claimed : entry (JobStore.claim i c before).2 i = some e
  kept : entry s.queue.store i = some e
  /-- the recovery changes the entry -/
  taken : entry (Scheduler.recoverStale s).2.queue.store i ≠ some e

section Stores

variable {ω : Type} [World ω] {c : Instant} {i : JobId}

namespace Memory

/-- What the store keeps under an id. -/
def entry (m : Memory) (i : JobId) : Option Job := m.jobs.get? i

/-- An attempt that is taken back began at the limit of staleness or earlier. -/
theorem le_of_takesBack {s : Scheduler Memory ω} {before : Memory} {j : Job}
    (h : TakesBack entry s c before i j) : c ≤ s.now.sub s.settings.staleAfter := by
  obtain ⟨new, claimed, kept, taken⟩ := h
  have hstale : isStale (s.now.sub s.settings.staleAfter) j := by
    refine Decidable.byContradiction fun hno => taken ?_
    have hget : (s.queue.store.recoverStale (s.now.sub s.settings.staleAfter) s.now).2.jobs.get? i =
        some j := by
      rw [recoverStale, Keyed.get?_update, show s.queue.store.jobs.get? i = some j from kept,
        Option.map_some, if_neg hno]
    exact hget
  have hupdated : j.updatedAt = c := by
    have hclaimed : (before.claim i c).2.jobs.get? i = some j := claimed
    rw [claim] at hclaimed
    cases hk : before.jobs.get? i with
    | none =>
      rw [hk] at hclaimed
      exact absurd hclaimed new
    | some k =>
      rw [hk] at hclaimed
      by_cases due : k.isDue c
      · simp only [due, if_true, modify, Keyed.get?_update, hk, Option.map_some,
          (Keyed.get?_eq_some_iff.mp hk).2, decide_true] at hclaimed
        exact Option.some.inj hclaimed ▸ rfl
      · simp only [due, Bool.false_eq_true, if_false] at hclaimed
        exact absurd hclaimed new
  simp only [isStale, hupdated, Bool.and_eq_true, decide_eq_true_eq] at hstale
  exact hstale.2

end Memory

namespace Table

/-- What the table keeps under an id. -/
def entry (t : Table) (i : JobId) : Option Row := t.rows.get? i.storage

/-- Rows that a statement does not choose stay as they are, even if it is refused. -/
theorem get?_of_update {t t' : Table} {p : Row → Bool} {f : Row → Row} {hf : ∀ r, (f r).id = r.id}
    (h : t.update p f hf = .ok t') (k : String) :
    t'.rows.get? k = (t.rows.get? k).map fun r => if p r then f r else r := by
  rw [update] at h
  split at h
  · cases h
  · obtain rfl := Except.ok.inj h
    exact Keyed.get?_update _ _ _ hf _

/-- An attempt that is taken back began in the millisecond of the limit of staleness or earlier. -/
theorem le_of_takesBack {s : Scheduler Table ω} {before : Table} {r : Row}
    (h : TakesBack entry s c before i r) :
    c.millis ≤ (s.now.sub s.settings.staleAfter).millis := by
  obtain ⟨new, claimed, kept, taken⟩ := h
  have hstale : isStale (s.now.sub s.settings.staleAfter).millis r := by
    refine Decidable.byContradiction fun hno => taken ?_
    have hget : (s.queue.store.recoverStale (s.now.sub s.settings.staleAfter)
        s.now).2.rows.get? i.storage = some r := by
      rw [recoverStale]
      split
      · exact kept
      · rename_i hupdate
        rw [get?_of_update hupdate, show s.queue.store.rows.get? i.storage = some r from kept,
          Option.map_some, if_neg hno]
    exact hget
  have hupdated : r.updatedAt = c.millis := by
    have hclaimed : (before.claim i c).2.rows.get? i.storage = some r := claimed
    rw [claim] at hclaimed
    split at hclaimed
    · exact absurd hclaimed new
    · split at hclaimed
      · exact absurd hclaimed new
      · rename_i hupdate
        simp only [get?_of_update hupdate] at hclaimed
        cases hr : before.rows.get? i.storage with
        | none => simp [hr] at hclaimed
        | some q =>
          rw [hr, Option.map_some] at hclaimed
          split at hclaimed
          · exact Option.some.inj hclaimed ▸ rfl
          · exact absurd (hr.trans hclaimed) new
  simp only [isStale, hupdated, Bool.and_eq_true, decide_eq_true_eq] at hstale
  exact hstale.2

end Table

end Stores

/-! ## An attempt that is taken back -/

/-- A scheduler with the usual settings over a store that nobody else uses, so many milliseconds
after 1970 began. -/
def Scheduler.plain {σ : Type} (store : σ) (time : Nat) : Scheduler σ Demonstration where
  settings := {}
  registry := .full
  queue := ⟨store, {}⟩
  ids := .stepping ⟨2⟩ 1
  world := { start := .epoch }
  jitter := .none
  time := time

/-- A store whose only job is the plain one. -/
def Ledger.plainStored (σ : Type) [Ledger σ] : σ := (JobStore.enqueue .plain Ledger.start).2

/-- The same store after the job was claimed, as 1970 began. -/
def Ledger.plainClaimed (σ : Type) [Ledger σ] : σ :=
  (JobStore.claim NewJob.plain.id .epoch (Ledger.plainStored σ)).2

end SyncJobs
