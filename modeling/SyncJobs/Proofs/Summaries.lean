import Mathlib.Algebra.BigOperators.Group.List.Basic
import SyncJobs.Proofs.Attempts
import SyncJobs.Proofs.Fencing
import SyncJobs.Proofs.Totals

/-!
# What completions add to a summary

Summaries are added up (`Summary.record_eq_add`), so a run may count its attempts in any order, and
the summaries of several runs may be taken together. The counters have 64 bits. What they count is a
list of attempts, each a domain and a decision, and its exact numbers are counted without bound
(`ledTo`, `itemsFound`). A summary has these numbers modulo `2 ^ 64` (`Summary.scores_sum`), and
where overflow is looked for, there is a summary exactly if all of them have 64 bits
(`Summary.foldlM_record?`).

An exchange adds what its answer tells: a completion that is answered with a job counts one attempt
(`Exchange.persisted?`). In a history of a store this is what the completion wrote
(`History.persisted_eq`). The attempt was running, and its job has the status of the decision now; a
completion that is answered with an error wrote nothing at all.
-/

namespace SyncJobs

/-! ## Adding summaries up -/

namespace Summary

instance : Add Summary := ⟨merge⟩

instance : Zero Summary := ⟨{}⟩

theorem add_def (s t : Summary) : s + t = s.merge t := rfl

instance : AddCommMonoid Summary where
  add_assoc s t u := by simp only [add_def, merge, UInt64.add_assoc]
  zero_add s := by
    show merge {} s = s
    simp only [merge, UInt64.zero_add]
  add_zero s := by
    show merge s {} = s
    simp only [merge, UInt64.add_zero]
  add_comm s t := by simp only [add_def, merge, UInt64.add_comm]
  nsmul := nsmulRec

/-- A single attempt, counted. -/
def single (domain : Domain) (d : Decision) : Summary := record {} domain d

/-- **To count an attempt is to add it.** -/
theorem record_eq_add (s : Summary) (domain : Domain) (d : Decision) :
    s.record domain d = s + single domain d := by
  rw [add_def, single]
  cases d with
  | succeed n =>
    cases domain <;> simp only [record, addItems, merge, UInt64.zero_add, UInt64.add_zero]
  | retry => simp only [record, merge, UInt64.zero_add, UInt64.add_zero]
  | deadLetter => simp only [record, merge, UInt64.zero_add, UInt64.add_zero]

/-- Attempts that are counted one after the other are added up. -/
theorem foldl_record (attempts : List (Domain × Decision)) (s : Summary) :
    attempts.foldl (fun s a => s.record a.1 a.2) s =
      s + (attempts.map fun a => single a.1 a.2).sum := by
  induction attempts generalizing s with
  | nil => exact (add_zero _).symm
  | cons a attempts ih =>
    rw [List.foldl_cons, ih, record_eq_add, List.map_cons, List.sum_cons, add_assoc]

/-- How many attempts led to a status. -/
def of (s : Summary) : Status → UInt64
  | .pending => s.retried
  | .running => 0
  | .succeeded => s.completed
  | .deadLetter => s.failed

/-- The items of a domain. -/
def items (s : Summary) : Domain → UInt64
  | .email => s.emailItems
  | .calendar => s.calendarItems
  | .tasks => s.taskItems

end Summary

/-! ## Counting without bound -/

/-- **How many of some attempts led to a status.** -/
def ledTo (t : Status) (attempts : List (Domain × Decision)) : Nat :=
  attempts.countP fun a => a.2.nextStatus = t

/-- The items that an attempt found. -/
def Decision.items : Decision → Nat
  | .succeed n => n.toNat
  | .retry _ _ => 0
  | .deadLetter _ => 0

/-- **How many items of a domain some attempts found.** -/
def itemsFound (domain : Domain) (attempts : List (Domain × Decision)) : Nat :=
  (attempts.map fun a => if a.1 = domain then a.2.items else 0).sum

section Exact

variable (t : Status) (domain : Domain) (a : Domain × Decision)
  (attempts later : List (Domain × Decision))

theorem ledTo_append : ledTo t (attempts ++ later) = ledTo t attempts + ledTo t later :=
  List.countP_append

theorem itemsFound_append : itemsFound domain (attempts ++ later) =
    itemsFound domain attempts + itemsFound domain later := by
  rw [itemsFound, List.map_append, List.sum_append]
  rfl

theorem ledTo_reverse : ledTo t attempts.reverse = ledTo t attempts := List.countP_reverse

theorem itemsFound_reverse : itemsFound domain attempts.reverse = itemsFound domain attempts := by
  rw [itemsFound, List.map_reverse, List.sum_reverse]
  rfl

theorem ledTo_cons : ledTo t (a :: attempts) = ledTo t [a] + ledTo t attempts :=
  ledTo_append t [a] attempts

theorem itemsFound_cons :
    itemsFound domain (a :: attempts) = itemsFound domain [a] + itemsFound domain attempts :=
  itemsFound_append domain [a] attempts

/-- To count the attempts that led to a status is to add one for each. -/
theorem sum_led :
    (attempts.map fun a => if a.2.nextStatus = t then 1 else 0).sum = ledTo t attempts := by
  induction attempts with
  | nil => rfl
  | cons a attempts ih =>
    rw [List.map_cons, List.sum_cons, ih, ledTo_cons]
    simp [ledTo, List.countP_cons]

end Exact

namespace Summary

/-- **A summary has the numbers of some attempts,** as far as they have 64 bits. -/
structure Scores (attempts : List (Domain × Decision)) (s : Summary) : Prop where
  led : ∀ t, s.of t = .ofNat (ledTo t attempts)
  items : ∀ domain, s.items domain = .ofNat (itemsFound domain attempts)
  attempts : s.attempts = .ofNat attempts.length

theorem of_add (s t : Summary) (status : Status) :
    (s + t).of status = s.of status + t.of status := by
  cases status <;> rfl

theorem items_add (s t : Summary) (domain : Domain) :
    (s + t).items domain = s.items domain + t.items domain := by
  cases domain <;> rfl

theorem attempts_add (s t : Summary) : (s + t).attempts = s.attempts + t.attempts := by
  show s.completed + t.completed + (s.failed + t.failed) + (s.retried + t.retried) =
    s.completed + s.failed + s.retried + (t.completed + t.failed + t.retried)
  ac_rfl

section Single

variable (a : Domain × Decision)

theorem of_single (t : Status) : (single a.1 a.2).of t = .ofNat (ledTo t [a]) := by
  obtain ⟨domain, d⟩ := a
  cases d with
  | succeed n => cases domain <;> cases t <;> rfl
  | retry | deadLetter => cases t <;> rfl

theorem items_single (domain : Domain) :
    (single a.1 a.2).items domain = .ofNat (itemsFound domain [a]) := by
  obtain ⟨own, d⟩ := a
  cases d with
  | succeed n =>
    cases own <;> cases domain <;>
      simp [single, record, addItems, items, itemsFound, Decision.items]
  | retry | deadLetter => cases domain <;> simp [single, record, items, itemsFound, Decision.items]

theorem attempts_single : (single a.1 a.2).attempts = 1 := by
  obtain ⟨domain, d⟩ := a
  cases d with
  | succeed n => cases domain <;> rfl
  | retry | deadLetter => rfl

end Single

/-- **To add some attempts up is to have their numbers.** -/
theorem scores_sum (attempts : List (Domain × Decision)) :
    Scores attempts (attempts.map fun a => single a.1 a.2).sum := by
  induction attempts with
  | nil => exact ⟨fun t => by cases t <;> rfl, fun domain => by cases domain <;> rfl, rfl⟩
  | cons a attempts ih =>
    rw [List.map_cons, List.sum_cons]
    constructor
    case led =>
      intro t
      rw [of_add, of_single, ih.led, ledTo_cons t a attempts, UInt64.ofNat_add]
    case items =>
      intro domain
      rw [items_add, items_single, ih.items, itemsFound_cons domain a attempts, UInt64.ofNat_add]
    case attempts =>
      rw [attempts_add, attempts_single, ih.attempts, UInt64.add_comm, List.length_cons,
        UInt64.ofNat_add]
      rfl

/-! ### Where overflow is looked for -/

/-- Whether all numbers of some attempts have 64 bits after those of a summary. -/
def HasRoom (s : Summary) (attempts : List (Domain × Decision)) : Prop :=
  (∀ t, (s.of t).toNat + ledTo t attempts < UInt64.size) ∧
    ∀ domain, (s.items domain).toNat + itemsFound domain attempts < UInt64.size

/-- No counter overflows exactly if the numbers behind all counters have 64 bits. -/
theorem fits_iff (s t : Summary) : s.fits t ↔
    (∀ status, (s.of status).toNat + (t.of status).toNat < UInt64.size) ∧
      ∀ domain, (s.items domain).toNat + (t.items domain).toNat < UInt64.size := by
  simp only [fits, counters, List.zip_cons_cons, List.zip_nil_right, List.all_cons, List.all_nil,
    Bool.and_true, Bool.and_eq_true, decide_eq_true_eq]
  constructor
  · rintro ⟨hcompleted, hfailed, hretried, hemail, hcalendar, htasks⟩
    refine ⟨fun status => ?_, fun domain => ?_⟩
    · cases status with
      | pending => exact hretried
      | running => exact Nat.zero_lt_succ _
      | succeeded => exact hcompleted
      | deadLetter => exact hfailed
    · cases domain with
      | email => exact hemail
      | calendar => exact hcalendar
      | tasks => exact htasks
  · rintro ⟨hled, hitems⟩
    exact ⟨hled .succeeded, hled .deadLetter, hled .pending, hitems .email, hitems .calendar,
      hitems .tasks⟩

section Room

variable (s : Summary) (a : Domain × Decision)

theorem toNat_of_single (t : Status) : ((single a.1 a.2).of t).toNat = ledTo t [a] := by
  have hle : ledTo t [a] ≤ 1 := List.countP_le_length
  rw [of_single, UInt64.toNat_ofNat', Nat.mod_eq_of_lt (by omega)]

theorem toNat_items_single (domain : Domain) :
    ((single a.1 a.2).items domain).toNat = itemsFound domain [a] := by
  have hlt : itemsFound domain [a] < 2 ^ 64 := by
    obtain ⟨own, d⟩ := a
    cases d with
    | succeed n =>
      have hn := n.toNat_lt
      simp only [itemsFound, List.map_cons, List.map_nil, List.sum_cons, List.sum_nil,
        Decision.items]
      split <;> omega
    | retry | deadLetter => simp [itemsFound, Decision.items]
  rw [items_single, UInt64.toNat_ofNat', Nat.mod_eq_of_lt hlt]

theorem fits_single_iff : s.fits (single a.1 a.2) ↔ s.HasRoom [a] := by
  simp only [fits_iff, toNat_of_single, toNat_items_single, HasRoom]

variable {s a}

/-- If there is room for an attempt, nothing is lost when it is counted. -/
theorem HasRoom.toNat_of (h : s.HasRoom [a]) (t : Status) :
    ((s.record a.1 a.2).of t).toNat = (s.of t).toNat + ledTo t [a] := by
  have hlt : (s.of t).toNat + ledTo t [a] < 2 ^ 64 := h.1 t
  rw [record_eq_add, of_add, UInt64.toNat_add, toNat_of_single, Nat.mod_eq_of_lt hlt]

theorem HasRoom.toNat_items (h : s.HasRoom [a]) (domain : Domain) :
    ((s.record a.1 a.2).items domain).toNat =
      (s.items domain).toNat + itemsFound domain [a] := by
  have hlt : (s.items domain).toNat + itemsFound domain [a] < 2 ^ 64 := h.2 domain
  rw [record_eq_add, items_add, UInt64.toNat_add, toNat_items_single, Nat.mod_eq_of_lt hlt]

/-- There is room for some attempts if there is for the first, and then for the others. -/
theorem hasRoom_cons {attempts : List (Domain × Decision)} :
    s.HasRoom (a :: attempts) ↔ s.HasRoom [a] ∧ (s.record a.1 a.2).HasRoom attempts := by
  constructor
  · rintro ⟨hled, hitems⟩
    have hfirst : s.HasRoom [a] := by
      refine ⟨fun t => Nat.lt_of_le_of_lt ?_ (hled t),
        fun domain => Nat.lt_of_le_of_lt ?_ (hitems domain)⟩
      · rw [ledTo_cons t a attempts]
        omega
      · rw [itemsFound_cons domain a attempts]
        omega
    refine ⟨hfirst, fun t => ?_, fun domain => ?_⟩
    · rw [hfirst.toNat_of, Nat.add_assoc, ← ledTo_cons]
      exact hled t
    · rw [hfirst.toNat_items, Nat.add_assoc, ← itemsFound_cons]
      exact hitems domain
  · rintro ⟨hfirst, hled, hitems⟩
    refine ⟨fun t => ?_, fun domain => ?_⟩
    · rw [ledTo_cons t a attempts, ← Nat.add_assoc, ← hfirst.toNat_of]
      exact hled t
    · rw [itemsFound_cons domain a attempts, ← Nat.add_assoc, ← hfirst.toNat_items]
      exact hitems domain

end Room

/-- **Where overflow is looked for, the same is recorded,** as long as there is room for it. -/
theorem foldlM_record? {attempts : List (Domain × Decision)} {s x : Summary} :
    attempts.foldlM (fun s a => s.record? a.1 a.2) s = some x ↔
      s.HasRoom attempts ∧ attempts.foldl (fun s a => s.record a.1 a.2) s = x := by
  induction attempts generalizing s with
  | nil =>
    have hroom : s.HasRoom [] :=
      ⟨fun t => (s.of t).toNat_lt, fun domain => (s.items domain).toNat_lt⟩
    rw [List.foldlM_nil, List.foldl_nil]
    exact ⟨fun h => ⟨hroom, Option.some.inj h⟩, fun h => congrArg some h.2⟩
  | cons a attempts ih =>
    have hrecord : s.record? a.1 a.2 =
        if s.fits (single a.1 a.2) then some (s.record a.1 a.2) else none := rfl
    rw [List.foldlM_cons, List.foldl_cons, hasRoom_cons, ← fits_single_iff, hrecord]
    by_cases hfits : s.fits (single a.1 a.2)
    · rw [if_pos hfits, Option.bind_eq_bind, Option.bind_some, ih]
      exact ⟨fun ⟨hroom, hx⟩ => ⟨⟨hfits, hroom⟩, hx⟩, fun ⟨hroom, hx⟩ => ⟨hroom.2, hx⟩⟩
    · rw [if_neg hfits, Option.bind_eq_bind, Option.bind_none]
      exact ⟨nofun, fun ⟨hroom, _⟩ => absurd hroom.1 hfits⟩

end Summary

/-! ## What an exchange adds, and what it wrote -/

/-- The attempt that was completed, by the answer to its completion. -/
def Decision.persisted? (d : Decision) : Except StoreError Job → Option (Domain × Decision)
  | .ok j => some (j.domain, d)
  | .error _ => none

namespace Exchange

section Answers

variable {σ : Type} [JobStore σ]

/-- **The domain and the decision of the attempt that was completed,** if one was. -/
def persisted? (e : Exchange σ) : Option (Domain × Decision) :=
  match e.call with
  | .complete r d now => d.persisted? (JobStore.complete r d now e.before).1
  | _ => none

/-- **What an exchange adds to a summary:** the attempt that was completed. -/
def summary (e : Exchange σ) : Summary := e.persisted?.elim 0 fun a => .single a.1 a.2

theorem persisted?_complete (s : σ) (r : Receipt) (d : Decision) (now : Instant) :
    (Exchange.mk s (.complete r d now)).persisted? =
      d.persisted? (JobStore.complete r d now s).1 := rfl

end Answers

section Transitions

variable {σ : Type} [Shelf σ]

/-- **What a completion wrote:** the job was running, and has a status now. -/
def wrote (t : Status) (e : Exchange σ) : Bool :=
  match e.call with
  | .complete r _ _ => Shelf.isRunning e.before r.job &&
      (Shelf.standing e.after r.job).any fun s => s.status = t
  | _ => false

/-- The items of a job of a domain that has just succeeded. -/
def itemsOf (domain : Domain) (e : Exchange σ) : Nat :=
  match e.call with
  | .complete r (.succeed n) _ => match JobStore.peek e.after r.job with
    | .ok (some j) => if e.wrote .succeeded && j.domain = domain then n.toNat else 0
    | _ => 0
  | _ => 0

end Transitions

end Exchange

/-! ## Completions in a history -/

namespace Memory

/-- The job that runs under a receipt, if there is one. -/
def underway (r : Receipt) (m : Memory) : Option Job :=
  (m.jobs.get? r.job).filter fun k => k.status = .running && k.attempts = r.attempts

variable {m : Memory} {r r' : Receipt} {d : Decision} {now : Instant} {k : Job}

theorem underway_eq_some_iff : m.underway r = some k ↔
    m.jobs.get? r.job = some k ∧ k.status = .running ∧ k.attempts = r.attempts := by
  rw [underway, Option.filter_eq_some_iff, Bool.and_eq_true, decide_eq_true_eq, decide_eq_true_eq]

/-- A completion settles the job that runs under its receipt, and is refused if there is none. -/
theorem complete_eq (m : Memory) (r : Receipt) (d : Decision) (now : Instant) :
    (m.underway r = none ∧ ∃ e, m.complete r d now = (.error e, m)) ∨
      ∃ k, m.underway r = some k ∧ (m.complete r d now).1 = .ok (k.settle d now) ∧
        (m.complete r d now).2.jobs.get? r.job = some (k.settle d now) := by
  cases hanswer : (m.complete r d now).1 with
  | error e =>
    refine .inl ⟨?_, e, Prod.ext hanswer (m.complete_state_of_error hanswer)⟩
    cases hk : m.underway r with
    | none => rfl
    | some k =>
      obtain ⟨hk, running, current⟩ := underway_eq_some_iff.mp hk
      simp only [complete, hk, running, current, ne_eq, not_true_eq_false, if_false] at hanswer
      cases hanswer
  | ok k' =>
    obtain ⟨k, hk, running, current, rfl⟩ := complete_eq_ok hanswer
    refine .inr ⟨k, underway_eq_some_iff.mpr ⟨hk, running, current⟩, rfl, ?_⟩
    simp only [complete, hk, running, current, ne_eq, not_true_eq_false, if_false]
    rw [get?_modify, if_pos rfl, hk]
    rfl

/-- **A completion leaves alone what runs under other receipts.** -/
theorem underway_complete (h : r ≠ r') (m : Memory) (d : Decision) (now : Instant) :
    (m.complete r' d now).2.underway r = m.underway r := by
  obtain ⟨-, e, hsame⟩ | ⟨k, hk, -, hsettled⟩ := m.complete_eq r' d now
  · rw [hsame]
  · obtain ⟨hk, running, current⟩ := underway_eq_some_iff.mp hk
    by_cases hjob : r.job = r'.job
    -- one job runs under one receipt, and under none after its attempt was settled
    · have hafter : (m.complete r' d now).2.underway r = none := by
        rw [underway, hjob, hsettled, Option.filter_some, if_neg]
        simp [Job.settle, d.nextStatus_ne_running]
      have hbefore : m.underway r = none := by
        rw [underway, hjob, hk, Option.filter_some, if_neg]
        rw [Bool.and_eq_true, decide_eq_true_eq, decide_eq_true_eq]
        rintro ⟨-, hattempts⟩
        refine h ?_
        obtain ⟨i, n⟩ := r
        obtain ⟨i', n'⟩ := r'
        obtain rfl : i = i' := hjob
        obtain rfl : n = n' := hattempts.symm.trans current
        rfl
      rw [hafter, hbefore]
    · have hget : (m.complete r' d now).2.jobs.get? r.job = m.jobs.get? r.job := by
        simp only [complete, hk, running, current, ne_eq, not_true_eq_false, if_false]
        rw [get?_modify, if_neg hjob]
      rw [underway, underway, hget]

end Memory

section Histories

variable {σ : Type} [Ledger σ] {past : List (Exchange σ)} {m : Memory}

/-- **What a completion comes to** after a history: it is refused and changes nothing, or it settles
the attempt of its receipt. -/
theorem Ledger.Tracks.complete_cases (h : Tracks past m) {r : Receipt} {d : Decision}
    {now : Instant} (hallowed : (StoreCall.complete r d now).Allowed past) :
    (m.underway r = none ∧ (m.complete r (d.round (round σ)) (round σ now)).2 = m ∧
      ∃ e, JobStore.complete r d now (current start past) = (.error e, current start past)) ∨
    ∃ k p, m.underway r = some k ∧ reread σ k.payload = .ok p ∧
      (m.complete r (d.round (round σ)) (round σ now)).1 =
        .ok (k.settle (d.round (round σ)) (round σ now)) ∧
      (m.complete r (d.round (round σ)) (round σ now)).2.jobs.get? r.job =
        some (k.settle (d.round (round σ)) (round σ now)) ∧
      (JobStore.complete r d now (current start past)).1 =
        .ok { k.settle (d.round (round σ)) (round σ now) with payload := p } := by
  obtain ⟨hnone, e, hmemory⟩ | ⟨k, hk, hmemory, hsettled⟩ :=
    m.complete_eq r (d.round (round σ)) (round σ now)
  · obtain ⟨hstate, hanswer⟩ := refuses_complete r d now h.keeps h.sound (congrArg Prod.fst hmemory)
    refine .inl ⟨hnone, congrArg Prod.snd hmemory, ?_⟩
    cases hfound : Job.readFound (reread σ) (m.jobs.get? r.job) with
    | error e' =>
      rw [hfound] at hanswer
      exact ⟨e', Prod.ext hanswer hstate⟩
    | ok found =>
      rw [hfound] at hanswer
      exact ⟨e, Prod.ext hanswer hstate⟩
  · have hget := (Memory.underway_eq_some_iff.mp hk).1
    -- the job was handed out for the attempt, so its payload can be read
    have hp : ∃ p, reread σ k.payload = .ok p := by
      obtain ⟨j, hj, rfl, -⟩ := hallowed
      exact ⟨_, ((h.handed j hj).2 k hget).payload⟩
    obtain ⟨p, hp⟩ := hp
    have hanswer := (keeps_complete r d now h.keeps h.sound ((h.fitsIn hallowed).fits r.job)
      hmemory).1
    exact .inr ⟨k, p, hk, hp, hmemory, hsettled,
      hanswer.trans (Job.readWith_eq_ok.mpr ⟨p, hp, rfl⟩)⟩

/-- **An attempt is completed** exactly if a job runs under its receipt. -/
theorem Ledger.Tracks.persisted?_eq (h : Tracks past m) {r : Receipt} {d : Decision}
    {now : Instant} (hallowed : (StoreCall.complete r d now).Allowed past) :
    (Exchange.mk (current start past) (.complete r d now)).persisted? =
      (m.underway r).map fun k => (k.domain, d) := by
  rw [Exchange.persisted?_complete]
  obtain ⟨hnone, -, e, hcomplete⟩ | ⟨k, p, hk, -, -, -, hanswer⟩ := h.complete_cases hallowed
  · rw [hnone, hcomplete]
    rfl
  · rw [hk, hanswer]
    rfl

end Histories

section Shelves

variable {σ : Type} [Shelf σ] {past : List (Exchange σ)}

/-- What leaves the store alone wrote nothing. -/
theorem Exchange.wrote_of_same {e : Exchange σ} (h : e.after = e.before) {t : Status}
    (ht : t ≠ .running) : e.wrote t = false := by
  cases hc : e.call with
  | complete r d now =>
    simp only [wrote, hc, h, Shelf.isRunning]
    cases Shelf.standing e.before r.job with
    | none => rfl
    | some standing =>
      simp only [Option.any_some, Standing.isRunning, Bool.and_eq_false_iff,
        decide_eq_false_iff_not]
      refine or_iff_not_imp_left.mpr fun hruns hstatus => ?_
      exact ht (hstatus.symm.trans (not_not.mp hruns))
  | enqueue | dueJobs | claim | claimDue | get | counts | deadLetters | recoverStale
    | purgeSucceeded => simp only [wrote, hc]

/-- Jobs that did not succeed have no items. -/
theorem Exchange.itemsOf_of_not_wrote {e : Exchange σ} (h : e.wrote .succeeded = false)
    (domain : Domain) : e.itemsOf domain = 0 := by
  rw [itemsOf]
  split
  · simp only [h, Bool.false_and]
    split <;> rfl
  · rfl

/-- **What was completed is what was written:** one attempt that led to a status, and the items of
one job. -/
theorem History.persisted_eq {e : Exchange σ} (h : History Ledger.start (e :: past)) :
    (∀ t, t ≠ .running → (e.wrote t).toNat = ledTo t e.persisted?.toList) ∧
      ∀ domain, e.itemsOf domain = itemsFound domain e.persisted?.toList := by
  obtain ⟨s, c⟩ := e
  obtain rfl : s = current Ledger.start past := h.before_eq
  have hallowed : c.Allowed past := h.allowed
  cases c with
  | complete r d now =>
    obtain ⟨m, hm⟩ := h.tail.tracks
    rw [hm.persisted?_eq hallowed]
    obtain ⟨hnone, -, e, hcomplete⟩ | ⟨k, p, hk, hp, -, hafter, -⟩ := hm.complete_cases hallowed
    -- refused: nothing is completed, and nothing was written
    · have hsame : (Exchange.mk (current Ledger.start past) (.complete r d now)).after =
          current Ledger.start past := congrArg Prod.snd hcomplete
      have hwrote := fun {t} => Exchange.wrote_of_same (t := t) hsame
      rw [hnone, Option.map_none]
      refine ⟨fun t ht => ?_, fun domain => ?_⟩
      · rw [hwrote ht]
        rfl
      · rw [Exchange.itemsOf_of_not_wrote (hwrote (by decide))]
        rfl
    -- settled: the job ran before, and has the status of the decision now
    · obtain ⟨hget, running, -⟩ := Memory.underway_eq_some_iff.mp hk
      obtain ⟨m', hstep⟩ := Ledger.step hm.keeps hm.sound (.complete r d now) (hm.fitsIn hallowed)
      obtain rfl := hstep.completes r d now rfl
      have hwrote : ∀ t, (Exchange.mk (current Ledger.start past) (.complete r d now)).wrote t =
          decide (d.nextStatus = t) := by
        intro t
        simp only [Exchange.wrote]
        rw [Ledger.isRunning_eq hm.keeps, hget, Job.runs_some, Shelf.standing_eq _ hstep.keeps,
          hafter, decide_eq_true running, Bool.true_and, Option.map_some, Option.any_some]
        exact congrArg (fun s => decide (s = t)) (d.nextStatus_round _)
      rw [hk, Option.map_some, Option.toList_some]
      refine ⟨fun t _ => ?_, fun domain => ?_⟩
      · rw [hwrote, ← sum_led]
        by_cases ht : d.nextStatus = t
        · simp [ht]
        · simp [ht]
      · cases d with
        | succeed n =>
          have hpeek : JobStore.peek
              (Exchange.mk (current Ledger.start past) (.complete r (.succeed n) now)).after r.job =
              .ok (some { k.settle (Decision.succeed n) (Ledger.round σ now) with
                payload := p }) := by
            rw [JobStore.peek, Ledger.get_eq _ hstep.keeps
              (hstep.sound hm.sound (hm.fitsIn hallowed)), hafter]
            exact Job.readFound_some hp
          simp only [Exchange.itemsOf, hpeek, hwrote, Decision.nextStatus, decide_true,
            Bool.true_and, decide_eq_true_eq]
          exact (Nat.add_zero _).symm
        | retry | deadLetter => simp [Exchange.itemsOf, itemsFound, Decision.items]
  | enqueue | dueJobs | claim | claimDue | get | counts | deadLetters | recoverStale
    | purgeSucceeded => exact ⟨fun _ _ => rfl, fun _ => rfl⟩

omit [Shelf σ] in
/-- The attempts that a journal completes, from its latest exchange on. -/
theorem filterMap_persisted?_cons [JobStore σ] (e : Exchange σ) (new : List (Exchange σ)) :
    (e :: new).filterMap Exchange.persisted? =
      e.persisted?.toList ++ new.filterMap Exchange.persisted? := by
  rw [List.filterMap_cons]
  cases e.persisted? <;> rfl

/-- **What a journal completes** is what the completions in it wrote. -/
theorem History.persisted {new : List (Exchange σ)} (h : History Ledger.start (new ++ past)) :
    (∀ t, t ≠ .running →
      new.countP (Exchange.wrote t) = ledTo t (new.filterMap Exchange.persisted?)) ∧
    ∀ domain, (new.map (Exchange.itemsOf domain)).sum =
      itemsFound domain (new.filterMap Exchange.persisted?) := by
  induction new with
  | nil => exact ⟨fun _ _ => rfl, fun _ => rfl⟩
  | cons e new ih =>
    obtain ⟨hwrote, hitems⟩ := h.persisted_eq
    obtain ⟨hwrotes, hitemss⟩ := ih h.tail
    refine ⟨fun t ht => ?_, fun domain => ?_⟩
    · rw [filterMap_persisted?_cons, ledTo_append, Ledger.countP_cons_toNat, hwrotes t ht,
        hwrote t ht, Nat.add_comm]
    · rw [filterMap_persisted?_cons, itemsFound_append, List.map_cons, List.sum_cons, hitems,
        hitemss]

end Shelves

/-! ## Totals over the jobs -/

/-- The calls that runs make to a store. -/
def StoreCall.isOfRuns : StoreCall → Bool
  | dueJobs _ _ _ => true
  | claim _ _ => true
  | complete _ _ _ => true
  | _ => false

/-- Runs take no jobs back. -/
theorem StoreCall.isRecovery_of_isOfRuns {c : StoreCall} (h : c.isOfRuns) :
    c.isRecovery = false := by
  cases c with
  | recoverStale => cases h
  | enqueue | dueJobs | claim | claimDue | complete | get | counts | deadLetters
    | purgeSucceeded => rfl

/-- **A weight of jobs that is counted:** an attempt that begins leaves it alone, and one that ends
adds to it what its new status gains. -/
structure Weighs (weight : Job → Nat) (gain : Status → Nat) : Prop where
  start {j : Job} {now : Instant} (due : j.isDue now) : weight (j.start now) = weight j
  settle {j : Job} (h : j.standing.Sound) (running : j.status = .running) (d : Decision)
    (now : Instant) : weight (j.settle d now) = weight j + gain d.nextStatus

/-- The jobs that have succeeded, and those that have failed for good, are counted. -/
theorem weighs_status {t : Status} (ht : t.isTerminal) :
    Weighs (fun j => if j.status = t then 1 else 0) (fun s => if s = t then 1 else 0) where
  start {j now} due := by
    have hpending := Job.status_of_isDue due
    have hstarted : (j.start now).status = .running := rfl
    simp only [hpending, hstarted]
    cases t with
    | pending => cases ht
    | running => cases ht
    | succeeded => rfl
    | deadLetter => rfl
  settle {j} _ running d now := by
    have hrunning : ¬ j.status = t := by
      rw [running]
      rintro rfl
      cases ht
    rw [if_neg hrunning, Nat.zero_add]
    rfl

/-- Attempts are counted. -/
theorem weighs_attempts : Weighs (fun j => j.attempts.toNat) (fun _ => 1) where
  start _ := rfl
  settle h running _ _ := h.toNat_nextAttempt running

section Totals

variable {σ : Type} [Ledger σ] {past : List (Exchange σ)} {m : Memory} {weight : Job → Nat}
  {gain : Status → Nat}

/-- **What a call of a run adds** to a total is what the attempt that it completes gains. -/
theorem Ledger.Tracks.total_step (hm : Tracks past m) (hw : Weighs weight gain) {c : StoreCall}
    (hallowed : c.Allowed past) (hc : c.isOfRuns) :
    ∃ m', Tracks (⟨current start past, c⟩ :: past) m' ∧
      m'.total weight = m.total weight +
        ((Exchange.mk (current (start (σ := σ)) past) c).persisted?.toList.map
          fun a => gain a.2.nextStatus).sum := by
  cases c with
  | dueJobs now limit cap =>
    have hstep := Step.of_same (e := ⟨current start past, .dueJobs now limit cap⟩) hm.keeps
      (dueJobs_state _ now limit cap) rfl (by rintro _ _ _ ⟨⟩)
    exact ⟨m, hm.step (c := .dueJobs now limit cap) trivial hstep, rfl⟩
  | claim i now =>
    refine ⟨_, hm.step (c := .claim i now) trivial (step_claim hm.keeps hm.sound i now), ?_⟩
    show _ = m.total weight
    cases hj : m.jobs.get? i with
    | none => simp only [Memory.claim, hj]
    | some j =>
      by_cases due : j.isDue (round σ now)
      · have htotal := Memory.total_claim hj due weight
        rw [hw.start due] at htotal
        exact Nat.add_right_cancel htotal
      · simp only [Memory.claim, hj, due, Bool.false_eq_true, if_false]
  | complete r d now =>
    obtain ⟨m', hstep⟩ := Ledger.step hm.keeps hm.sound (.complete r d now) (hm.fitsIn hallowed)
    obtain rfl := hstep.completes r d now rfl
    refine ⟨_, hm.step hallowed hstep, ?_⟩
    rw [hm.persisted?_eq hallowed]
    obtain ⟨hnone, hsame, -⟩ | ⟨k, p, hk, -, hmemory, -, -⟩ := hm.complete_cases hallowed
    · rw [hnone, hsame]
      rfl
    · obtain ⟨hget, running, -⟩ := Memory.underway_eq_some_iff.mp hk
      obtain ⟨j, hj, -, -, -, htotal⟩ := Memory.total_complete hmemory weight
      obtain rfl := Option.some.inj (hget.symm.trans hj)
      have hsettle := hw.settle (hm.sound.of_get? hget) running (d.round (round σ)) (round σ now)
      rw [Decision.nextStatus_round] at hsettle
      rw [hk, Option.map_some, Option.toList_some, List.map_singleton, List.sum_singleton]
      show _ = _ + gain d.nextStatus
      omega
  | enqueue | claimDue | get | counts | deadLetters | recoverStale | purgeSucceeded => cases hc

/-- **What the calls of runs add** to a total is what the attempts that they complete gain. -/
theorem Ledger.Tracks.total_append (hm : Tracks past m) (hw : Weighs weight gain)
    {new : List (Exchange σ)} (h : History start (new ++ past))
    (hnew : ∀ e ∈ new, e.call.isOfRuns) :
    ∃ m', Tracks (new ++ past) m' ∧
      m'.total weight = m.total weight +
        ((new.filterMap Exchange.persisted?).map fun a => gain a.2.nextStatus).sum := by
  induction new with
  | nil => exact ⟨m, hm, rfl⟩
  | cons e new ih =>
    obtain ⟨m₁, hm₁, htotal₁⟩ := ih h.tail fun e he => hnew e (List.mem_cons_of_mem _ he)
    obtain ⟨s, c⟩ := e
    obtain rfl : s = current start (new ++ past) := h.before_eq
    obtain ⟨m', hm', htotal⟩ := hm₁.total_step (c := c) hw h.allowed (hnew _ List.mem_cons_self)
    refine ⟨m', hm', htotal.trans ?_⟩
    rw [htotal₁, filterMap_persisted?_cons, List.map_append, List.sum_append]
    omega

end Totals

/-- Jobs in a status are counted as a total. -/
theorem Memory.of_counts (m : Memory) (t : Status) :
    m.counts.of t = m.total fun j => if j.status = t then 1 else 0 := by
  have hcount : ∀ (l : List Job) (c : Counts),
      ((l.map Job.status).foldl (fun c s => c.add 1 s) c).of t =
        c.of t + (l.map fun j => if j.status = t then 1 else 0).sum := by
    intro l
    induction l with
    | nil => exact fun c => rfl
    | cons j l ih =>
      intro c
      rw [List.map_cons, List.foldl_cons, ih, Counts.of_add, List.map_cons, List.sum_cons]
      omega
  refine (hcount m.jobs.toList {}).trans ?_
  cases t <;> exact Nat.zero_add _

end SyncJobs
