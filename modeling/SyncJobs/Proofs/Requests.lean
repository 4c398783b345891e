import SyncJobs.Proofs.Arrivals
import SyncJobs.Proofs.Queueing

/-!
# Requests are all or nothing

A request is refused before an id is taken if it allows no attempt, if its account cannot be looked
up, or if there is no such account. Then nothing happens but that the time of the look-up passes
(`Scheduler.refuses`). Otherwise an id is taken, and the store is handed the job that the
request asks for (`Job.IsAskedFor`). Whatever the offset is, the job is not due before it was queued.

The rest is up to the store (`requests_are_all_or_nothing`). The table refuses the job if its id is
stored already, and else has one row more; the row keeps whole milliseconds. The store in memory
takes every job. Neither changes another job.
-/

namespace SyncJobs

/-! ## Jobs that are asked for -/

/-- **A job is what a request asks for** at a time. -/
structure Job.IsAskedFor (j : Job) (r : Request) (settings : Settings) (now : Instant) : Prop where
  account : j.account = r.account
  domain : j.domain = r.domain
  payload : j.payload = r.payload
  pending : j.status = .pending
  attempts : j.attempts = 0
  lastError : j.lastError = none
  /-- as many attempts as the request names, or the usual number -/
  maxAttempts : j.maxAttempts = r.maxAttempts.getD settings.defaultMaxAttempts
  mayStart : 1 ≤ j.maxAttempts.toNat
  createdAt : j.createdAt = now
  updatedAt : j.updatedAt = now
  /-- due after the offset, if that is positive, and at the end of time at the latest -/
  runAfter : j.runAfter.nanos =
    min Instant.latest.nanos (now.nanos + max 0 r.offsetSeconds.toInt * 1000000000)
  notBefore : now ≤ j.runAfter

namespace Scheduler

/-- A waiting time is the offset in nanoseconds, without being cut off. -/
theorem nanos_waitingTime (r : Request) :
    ((waitingTime r).nanos : Int) = max 0 r.offsetSeconds.toInt * 1000000000 := by
  have hoffset := r.offsetSeconds.toInt_lt
  have hfits : r.offsetSeconds.toInt.toNat < 2 ^ 64 := by omega
  rw [waitingTime, Duration.nanos_ofSeconds, UInt64.toNat_ofNat_of_lt' hfits]
  omega

/-- **The job that is made for a request is what the request asks for.** -/
theorem isAskedFor_newJob {settings : Settings} {r : Request} (h : ceiling settings r ≠ 0)
    (i : JobId) (now : Instant) : (newJob settings r i now).toPending.IsAskedFor r settings now := by
  have hrunAfter : (now.add (waitingTime r)).nanos =
      min Instant.latest.nanos (now.nanos + max 0 r.offsetSeconds.toInt * 1000000000) := by
    rw [Instant.nanos_add, nanos_waitingTime, min_comm]
  constructor
  case mayStart =>
    have hpositive : (ceiling settings r).toNat ≠ 0 := fun hzero => h (UInt32.toNat_inj.mp hzero)
    exact Nat.one_le_iff_ne_zero.mpr hpositive
  case runAfter => exact hrunAfter
  case notBefore =>
    show now.nanos ≤ (now.add (waitingTime r)).nanos
    have hnow := now.upper
    have hlatest : Instant.latest.nanos = 8210266876799999999999 := rfl
    rw [hrunAfter]
    omega
  all_goals rfl

section Scheduler

variable {σ ω : Type} [World ω]

/-- **A request may be queued:** it allows an attempt, and its account is found. -/
def MayQueue (r : Request) (s : Scheduler σ ω) : Prop :=
  ceiling s.settings r ≠ 0 ∧
    ∃ account, (World.lookup r.account s.world).value = .answered (.ok (some account))

variable [JobStore σ]

/-- **A request that may not be queued is refused,** and changes nothing but the time. -/
structure Refuses (r : Request) (s : Scheduler σ ω) : Prop where
  /-- at once, whatever the look-up would find -/
  noAttempts : ceiling s.settings r = 0 → request r s = (.error .noAttempts, s)
  failure : ceiling s.settings r ≠ 0 →
    ∀ failure, (World.lookup r.account s.world).value = .answered (.error failure) →
      request r s = (.error (.accountLookup failure), s.lookedUp r)
  unknown : ceiling s.settings r ≠ 0 →
    (World.lookup r.account s.world).value = .answered (.ok none) →
      request r s = (.error (.invalidAccount r.account), s.lookedUp r)
  /-- a look-up that breaks down takes the request with it -/
  brokeDown : ceiling s.settings r ≠ 0 →
    ∀ message, (World.lookup r.account s.world).value = .brokeDown message →
      request r s = (.error (.brokeDown message), s.lookedUp r)

theorem refuses (r : Request) (s : Scheduler σ ω) : s.Refuses r :=
  ⟨request_of_ceiling_eq_zero, fun h _ => request_of_failure h, request_of_unknown,
    fun h _ => request_of_brokeDown h⟩

/-- **A request hands a job over** to the store: the job is what was asked for, has the next id, and
the answer is that of the store. -/
structure HandsOver (r : Request) (s : Scheduler σ ω) (n : NewJob) : Prop where
  asked : n.toPending.IsAskedFor r s.settings (s.lookedUp r).now
  id : n.id = (s.ids.next (s.stamped r).now).1
  request : request r s = ((JobStore.enqueue n s.queue.store).1.mapError .store,
    s.handedOver r (JobStore.enqueue n s.queue.store).2)

theorem MayQueue.handsOver {r : Request} {s : Scheduler σ ω} (h : s.MayQueue r) :
    s.HandsOver r (s.asked r) := by
  obtain ⟨hceiling, account, hfound⟩ := h
  exact ⟨isAskedFor_newJob hceiling _ _, rfl, request_of_known hceiling hfound⟩

end Scheduler

end Scheduler

/-! ## The table -/

/-- A job is refused as a duplicate if it may be attempted and its id is stored. -/
theorem Table.enqueue_of_stored {t : Table} {n : NewJob} (hmax : n.maxAttempts ≠ 0)
    (h : t.rows.contains n.id.storage) : t.enqueue n = (refused .duplicate, t) := by
  have hrule : (Row.ofNew n).rule? = none := (rule?_ofNew n).trans (if_neg hmax)
  have hinsert : t.insert (Row.ofNew n) = .error .duplicate := by
    rw [insert]
    split
    · rename_i hbroken
      rw [hrule] at hbroken
      cases hbroken
    · exact if_pos h
  rw [enqueue, hinsert]

/-- A job is one row more if it may be attempted and its id is not stored. -/
theorem Table.enqueue_of_free {t : Table} {n : NewJob} (hmax : n.maxAttempts ≠ 0)
    (h : t.rows.contains n.id.storage = false) : ∃ t', t.enqueue n = (.ok n.toPending, t') ∧
      t'.rows.toList = t.rows.toList ++ [Row.ofNew n] := by
  obtain hrefused | ⟨t', hdone, -, hrows⟩ := t.enqueue_appends n
  · obtain hzero | hstored := refuses_iff.mp hrefused
    · exact absurd hzero hmax
    · rw [h] at hstored
      cases hstored
  · exact ⟨t', hdone, hrows⟩

/-! ## Requests -/

/-- **Requests are all or nothing.** A request that allows no attempt is refused at once, and one
whose account is not found after the look-up; nothing else changes but the time. Any other request
takes an id, and the store is handed the job that was asked for and gives the answer. The store in
memory accepts it and changes no job with another id; if its id is free, it is one job more. The table
refuses it as a duplicate and stays as it is if its id is stored; else it has one row more, which
holds the job with its times in whole milliseconds, and the answer agrees with the row so far. -/
theorem requests_are_all_or_nothing {ω : Type} [World ω] (r : Request) :
    (∀ (σ : Type) [JobStore σ] (s : Scheduler σ ω), s.Refuses r ∧
      (s.MayQueue r → ∃ n, s.HandsOver r n)) ∧
    (∀ s : Scheduler Memory ω, s.MayQueue r → ∃ (j : Job) (m : Memory),
      Scheduler.request r s = (.ok j, s.handedOver r m) ∧
      j.IsAskedFor r s.settings (s.lookedUp r).now ∧
      (∀ i, i ≠ j.id → m.jobs.get? i = s.queue.store.jobs.get? i) ∧
      (s.queue.store.jobs.get? j.id = none →
        m.jobs.toList = s.queue.store.jobs.toList ++ [j])) ∧
    ∀ s : Scheduler Table ω, s.MayQueue r →
      let now := (s.lookedUp r).now
      let id := (s.ids.next (s.stamped r).now).1
      let rows := s.queue.store.rows
      (rows.contains id.storage → Scheduler.request r s =
        (.error (.store (.database .duplicate)), s.handedOver r s.queue.store)) ∧
      (rows.contains id.storage = false → ∃ (answer j : Job) (t : Table),
        Scheduler.request r s = (.ok answer, s.handedOver r t) ∧ answer.floor = j.floor ∧
        j.IsAskedFor r s.settings now ∧ now.floor ≤ j.floor.runAfter ∧
        t.rows.toList = rows.toList ++ [Row.ofJob j.floor]) := by
  refine ⟨fun σ _ s => ⟨s.refuses r, fun h => ⟨_, h.handsOver⟩⟩, fun s h => ?_, fun s h => ?_⟩
  · refine ⟨(s.asked r).toPending, s.queue.store.enqueue (s.asked r), h.handsOver.request,
      h.handsOver.asked, fun i hi => ?_, (Memory.enqueue_keeps_iff _ _).mpr⟩
    rw [Memory.enqueue, Keyed.get?_insert, if_neg (Ne.symm hi)]
  · obtain ⟨hasked, -, hrequest⟩ := h.handsOver
    have hmax : (s.asked r).maxAttempts ≠ 0 := h.1
    refine ⟨fun hstored => ?_, fun hfree => ?_⟩
    · rw [hrequest, show JobStore.enqueue _ s.queue.store = _ from
        Table.enqueue_of_stored hmax hstored]
      rfl
    · obtain ⟨t, hdone, hrows⟩ := Table.enqueue_of_free hmax hfree
      refine ⟨_, (s.asked r).toPending, t, ?_, rfl, hasked, ?_, ?_⟩
      · rw [hrequest, show JobStore.enqueue _ s.queue.store = _ from hdone]
        rfl
      · exact Instant.floor_le_floor.mpr (Instant.millis_mono hasked.notBefore)
      · rw [hrows, Row.ofNew_eq_ofJob, Row.ofJob_floor]

/-- A request for a job that is due as late as can be asked for. -/
def Request.latest : Request :=
  { Request.plain .null with offsetSeconds := Int64.maxValue, maxAttempts := none }

/-- The largest offset is cut off at the end of time, and the usual number of attempts is allowed. -/
theorem the_latest_job_is_queued :
    let s := Scheduler.stamping Memory.empty
    let t := Scheduler.stamping Table.empty
    (s.MayQueue .latest ∧ ∃ (j : Job) (m : Memory),
      Scheduler.request .latest s = (.ok j, s.handedOver .latest m) ∧ m.jobs.toList = [j] ∧
      j.runAfter = Instant.latest ∧ j.maxAttempts = 5) ∧
    t.MayQueue .latest ∧ ∃ (answer j : Job) (u : Table),
      Scheduler.request .latest t = (.ok answer, t.handedOver .latest u) ∧
      u.rows.toList = [Row.ofJob j.floor] ∧ j.runAfter = Instant.latest ∧ j.maxAttempts = 5 := by
  intro s t
  obtain ⟨-, hmemory, htable⟩ := requests_are_all_or_nothing Request.latest (ω := Demonstration)
  have hs : s.MayQueue .latest := ⟨by decide, _, rfl⟩
  have ht : t.MayQueue .latest := ⟨by decide, _, rfl⟩
  have hend : min Instant.latest.nanos
      ((s.lookedUp .latest).now.nanos + max 0 Request.latest.offsetSeconds.toInt * 1000000000) =
        Instant.latest.nanos := by
    decide +kernel
  constructor
  · obtain ⟨j, m, hdone, hasked, -, hjobs⟩ := hmemory s hs
    exact ⟨hs, j, m, hdone, hjobs rfl, Instant.ext (hasked.runAfter.trans hend), hasked.maxAttempts⟩
  · obtain ⟨answer, j, u, hdone, -, hasked, -, hrows⟩ := (htable t ht).2 rfl
    exact ⟨ht, answer, j, u, hdone, hrows, Instant.ext (hasked.runAfter.trans hend),
      hasked.maxAttempts⟩

/-- The scheduler with a clock that starts half a millisecond late. -/
def Scheduler.stampingLate {σ : Type} (store : σ) : Scheduler σ Demonstration :=
  let s := stamping store
  { s with world := { s.world with start := .clamped 500000 } }

/-- A table that fails when the first job is handed to it. -/
def Table.failingOnce : Disturbed Table := ⟨.empty, [⟨.enqueue, 0, .fail⟩], []⟩

/-- **A row may be due before its job was queued, and a store may fail.** A job is queued half a
millisecond after the start of 1970; its row was made and is due at the start. A table that fails
takes no job, although the job may be queued. -/
theorem rows_may_be_early_and_stores_may_fail :
    let r := Request.plain .null
    let s := Scheduler.stampingLate Table.empty
    let t := Scheduler.stamping Table.failingOnce
    (s.MayQueue r ∧ ∃ (j : Job) (u : Table) (row : Row),
      Scheduler.request r s = (.ok j, s.handedOver r u) ∧ u.rows.toList = [row] ∧
      row.createdAt * 1000000 < (s.lookedUp r).now.nanos ∧
      row.runAfter * 1000000 < (s.lookedUp r).now.nanos) ∧
    t.MayQueue r ∧ ∃ (e : StoreError) (d : Disturbed Table),
      Scheduler.request r t = (.error (.store e), t.handedOver r d) ∧ d.store.rows.toList = [] := by
  intro r s t
  have hs : s.MayQueue r := ⟨by decide, _, rfl⟩
  have ht : t.MayQueue r := ⟨by decide, _, rfl⟩
  constructor
  · obtain ⟨u, hdone, hrows⟩ := Table.enqueue_of_free hs.1 (n := s.asked r) (t := .empty) rfl
    refine ⟨hs, (s.asked r).toPending, u, _, ?_, hrows, by decide +kernel, by decide +kernel⟩
    rw [hs.handsOver.request, show JobStore.enqueue _ s.queue.store = _ from hdone]
    rfl
  · exact ⟨ht, _, _, ht.handsOver.request, rfl⟩

end SyncJobs
