import SyncJobs.Store
import SyncJobs.Verdict

/-!
# Histories of a store

A history tells what happened to a store from its start on: which calls were made, in which order,
and what the store was when each call was made. Answers and later states follow from that, so a
history is a list of `Exchange`s, the latest first.

`History` admits the calls that a well-behaved caller makes at any time and in any order. Two
rules bind a caller (`StoreCall.Allowed`): an id is given to one new job only, with a ceiling of at
least one attempt, and an attempt is completed under a receipt that was handed out, with a
decision on the job as it was handed out. Times obey no rule at all.
-/

namespace SyncJobs

/-! ## Calls -/

/-- **A call to a store.** -/
inductive StoreCall where
  | enqueue (n : NewJob)
  | dueJobs (now : Instant) (limit : Nat) (cap : Option Nat)
  | claim (id : JobId) (now : Instant)
  | claimDue (now : Instant) (limit : Nat)
  | complete (receipt : Receipt) (decision : Decision) (now : Instant)
  | get (id : JobId)
  | counts
  | deadLetters (limit : Nat)
  | recoverStale (staleBefore now : Instant)
  | purgeSucceeded (olderThan : Instant)

/-- **What a store answers** if it does not refuse. -/
inductive StoreAnswer where
  | job (j : Job)
  | found (j : Option Job)
  | jobs (js : List Job)
  | counts (c : Counts)
  | number (n : Nat)

namespace StoreCall

variable {σ : Type} [JobStore σ]

/-- An operation whose answer is brought into a common form. -/
def answering {α : Type} (form : α → StoreAnswer) (op : StoreM σ α) : StoreM σ StoreAnswer :=
  fun s => ((op s).1.map form, (op s).2)

/-- Makes a call. -/
def run : StoreCall → StoreM σ StoreAnswer
  | enqueue n => answering .job (JobStore.enqueue n)
  | dueJobs now limit cap => answering .jobs (JobStore.dueJobs now limit cap)
  | claim id now => answering .found (JobStore.claim id now)
  | claimDue now limit => answering .jobs (JobStore.claimDue now limit)
  | complete receipt d now => answering .job (JobStore.complete receipt d now)
  | get id => answering .found (JobStore.get id)
  | counts => answering .counts JobStore.counts
  | deadLetters limit => answering .jobs (JobStore.deadLetters limit)
  | recoverStale staleBefore now => answering .jobs (JobStore.recoverStale staleBefore now)
  | purgeSucceeded olderThan => answering .number (JobStore.purgeSucceeded olderThan)

/-- The id that a call gives to a new job. -/
def newId? : StoreCall → Option JobId
  | enqueue n => some n.id
  | _ => none

/-- The time at which a call claims a job, if it may claim it. -/
def claimTime? (id : JobId) : StoreCall → Option Instant
  | claim i now => if i = id then some now else none
  | claimDue now _ => some now
  | _ => none

end StoreCall

/-- A call answers if its operation does. -/
theorem StoreCall.isOk_answering {σ α : Type} (form : α → StoreAnswer) (op : StoreM σ α) (s : σ) :
    (answering form op s).1.isOk = (op s).1.isOk := by
  rw [answering]
  cases (op s).1 <;> rfl

/-! ## Exchanges -/

/-- **A call and the store that it was made to.** -/
structure Exchange (σ : Type) where
  before : σ
  call : StoreCall

namespace Exchange

variable {σ : Type} [JobStore σ]

/-- What the store answered. -/
def answer (e : Exchange σ) : Except StoreError StoreAnswer := (e.call.run e.before).1

/-- The store after the call. -/
def after (e : Exchange σ) : σ := (e.call.run e.before).2

theorem answer_complete_eq_ok_iff {s : σ} {r : Receipt} {d : Decision} {now : Instant} {j : Job} :
    (mk s (.complete r d now)).answer = .ok (.job j) ↔ (JobStore.complete r d now s).1 = .ok j := by
  show (JobStore.complete r d now s).1.map StoreAnswer.job = _ ↔ _
  cases (JobStore.complete r d now s).1 <;> simp [Except.map]

theorem answer_complete_eq_error_iff {s : σ} {r : Receipt} {d : Decision} {now : Instant}
    {e : StoreError} :
    (mk s (.complete r d now)).answer = .error e ↔ (JobStore.complete r d now s).1 = .error e := by
  show (JobStore.complete r d now s).1.map StoreAnswer.job = _ ↔ _
  cases (JobStore.complete r d now s).1 <;> simp [Except.map]

/-- The jobs that the answer hands out for an attempt. -/
def handedOut (e : Exchange σ) : List Job :=
  match e.call, e.answer with
  | .claim _ _, .ok (.found j) => j.toList
  | .claimDue _ _, .ok (.jobs js) => js
  | _, _ => []

/-- A call that fails hands nothing out. -/
theorem handedOut_of_error {e : Exchange σ} {err : StoreError} (h : e.answer = .error err) :
    e.handedOut = [] := by
  obtain ⟨s, c⟩ := e
  cases c with
  | claim | claimDue => simp only [handedOut, h]
  | _ => rfl

/-- Jobs are handed out by claims only. -/
theorem claims_of_mem_handedOut {e : Exchange σ} {j : Job} (h : j ∈ e.handedOut) :
    (∃ i now, e.call = .claim i now) ∨ ∃ now limit, e.call = .claimDue now limit := by
  rw [handedOut] at h
  split at h
  · rename_i hc _
    exact .inl ⟨_, _, hc⟩
  · rename_i hc _
    exact .inr ⟨_, _, hc⟩
  · cases h

end Exchange

/-! ## Histories -/

section Histories

variable {σ : Type} [JobStore σ]

/-- The store after the exchanges of a list, the latest of which stands first. -/
def current (start : σ) : List (Exchange σ) → σ
  | [] => start
  | e :: _ => e.after

/-- All jobs that were handed out. -/
def handedOut (past : List (Exchange σ)) : List Job := past.flatMap Exchange.handedOut

/-- All ids that were given to new jobs. -/
def newIds (past : List (Exchange σ)) : List JobId := past.filterMap fun e => e.call.newId?

omit [JobStore σ] in
theorem mem_newIds_cons {e : Exchange σ} {past : List (Exchange σ)} {i : JobId} :
    i ∈ newIds (e :: past) ↔ e.call.newId? = some i ∨ i ∈ newIds past := by
  simp only [newIds, List.mem_filterMap, List.mem_cons]
  constructor
  · rintro ⟨e', rfl | he, hi⟩
    · exact .inl hi
    · exact .inr ⟨e', he, hi⟩
  · rintro (hi | ⟨e', he, hi⟩)
    · exact ⟨e, .inl rfl, hi⟩
    · exact ⟨e', .inr he, hi⟩

theorem mem_handedOut_cons {e : Exchange σ} {past : List (Exchange σ)} {j : Job} :
    j ∈ handedOut (e :: past) ↔ j ∈ e.handedOut ∨ j ∈ handedOut past := by
  simp [handedOut]

/-- Whether the rule of decisions gives a decision for an attempt at a job: for some backoff, some
outcome of the attempt, some time at which it ended and some sample of jitter. -/
def Job.MayDecide (j : Job) (d : Decision) : Prop :=
  ∃ policy outcome now sample, j.decide? policy outcome now sample = some d

/-- **Which calls a caller may make** after what is past. -/
def StoreCall.Allowed (past : List (Exchange σ)) : StoreCall → Prop
  | .enqueue n => n.id ∉ newIds past ∧ 1 ≤ n.maxAttempts
  | .complete r d _ => ∃ j ∈ handedOut past, j.receipt = r ∧ j.MayDecide d
  | _ => True

/-- **The histories of a store.** -/
inductive History (start : σ) : List (Exchange σ) → Prop where
  | nil : History start []
  | step {past : List (Exchange σ)} (h : History start past) (c : StoreCall) (hc : c.Allowed past) :
      History start (⟨current start past, c⟩ :: past)

/-- The exchanges of calls made one after the other, latest first. -/
def replay (start : σ) : List StoreCall → List (Exchange σ)
  | [] => []
  | c :: cs => ⟨current start (replay start cs), c⟩ :: replay start cs

/-- What is past in a history has a history of its own. -/
theorem History.tail {start : σ} {e : Exchange σ} {past : List (Exchange σ)}
    (h : History start (e :: past)) : History start past := by
  cases h with
  | step h _ _ => exact h

/-- Earlier parts of a history are histories. -/
theorem History.of_append {start : σ} {later past : List (Exchange σ)}
    (h : History start (later ++ past)) : History start past := by
  induction later with
  | nil => exact h
  | cons e later ih => exact ih h.tail

/-- Each exchange of a history begins with the store that the past led to. -/
theorem History.before_eq {start : σ} {e : Exchange σ} {past : List (Exchange σ)}
    (h : History start (e :: past)) : e.before = current start past := by
  cases h with
  | step _ _ _ => rfl

/-- Each call of a history is allowed by its past. -/
theorem History.allowed {start : σ} {e : Exchange σ} {past : List (Exchange σ)}
    (h : History start (e :: past)) : e.call.Allowed past := by
  cases h with
  | step _ _ hc => exact hc

end Histories

end SyncJobs
