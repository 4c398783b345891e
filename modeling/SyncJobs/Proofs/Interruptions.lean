import SyncJobs.Proofs.Legibility
import SyncJobs.Proofs.Lives

/-!
# Recoveries are exact

A recovery takes back the attempts that began at a given time or earlier and are still under way,
and no others (`RecoversExactly`). Each of them counts. A job that has attempts left waits again and
is due at once; otherwise it has failed for good, and its due time stays. So the recovery made again
finds nothing to take back, though it was the recovery itself that wrote the times of these jobs.

This holds in either store, whatever its state, as long as the jobs that are worked on have attempts
left (`recoveries_are_exact`). The table reads the rows that it has taken back for its answer. If one
of them cannot be read, it has taken back all the same and reports nothing, neither now nor later
(`a_deep_job_hides_a_recovery`).
-/

namespace SyncJobs

/-! ## What a recovery looks at -/

/-- **The columns that a recovery looks at or writes,** with times of type `τ`. -/
structure Columns (τ : Type) where
  status : String
  attempts : Int
  maxAttempts : Int
  runAfter : τ
  lastError : Option String
  updatedAt : τ

/-- **Entries that a recovery may take back:** jobs, or rows of a table. -/
class Recoverable (ρ : Type) (τ : outParam Type) extends Entry ρ where
  columns : ρ → Columns τ
  /-- a time as entries keep it -/
  time : Instant → τ
  /-- the test of the store for what may be claimed -/
  isDue : Instant → ρ → Bool
  /-- an entry as a job that is handed out -/
  read : ρ → Except StoreError Job

instance : Recoverable Job Instant where
  __ := (inferInstance : Entry Job)
  columns j := ⟨j.status.name, j.attempts.toNat, j.maxAttempts.toNat, j.runAfter, j.lastError,
    j.updatedAt⟩
  time := id
  isDue now j := j.isDue now
  read := .ok

instance : Recoverable Row Int where
  __ := (inferInstance : Entry Row)
  columns r := ⟨r.status, r.attempts, r.maxAttempts, r.runAfter, r.lastError, r.updatedAt⟩
  time := Instant.millis
  isDue now := Table.isDue now.millis
  read := Row.toJob?

namespace Recoverable

variable {ρ τ : Type} [Recoverable ρ τ]

/-- Whether the job of an entry has a status. -/
def IsAt (s : Status) (a : ρ) : Prop := (columns a).status = s.name

/-- An attempt is left. -/
def HasAttempt (a : ρ) : Prop := (columns a).attempts < (columns a).maxAttempts

instance (s : Status) (a : ρ) : Decidable (IsAt s a) := inferInstanceAs (Decidable (_ = _))

instance (a : ρ) : Decidable (HasAttempt a) := inferInstanceAs (Decidable (_ < _))

theorem IsAt.unique {s t : Status} {a : ρ} (hs : IsAt s a) (ht : IsAt t a) : s = t :=
  Status.name_inj.mp (hs.symm.trans ht)

/-- **An attempt that was given up at a time:** the entry before, and the entry after. -/
structure Interrupted (now : Instant) (a b : ρ) : Prop where
  /-- what was fixed when the job was stored stays -/
  origin : Entry.SameOrigin a b
  ceiling : (columns b).maxAttempts = (columns a).maxAttempts
  attempts : (columns b).attempts = (columns a).attempts + 1
  lastError : (columns b).lastError = some Job.interruptedError
  updatedAt : (columns b).updatedAt = time ρ now
  /-- after its last attempt the job has failed for good -/
  ended : (columns b).attempts = (columns b).maxAttempts →
    IsAt .deadLetter b ∧ (columns b).runAfter = (columns a).runAfter
  /-- otherwise it waits and is due at once -/
  waits : (columns b).attempts ≠ (columns b).maxAttempts →
    IsAt .pending b ∧ (columns b).runAfter = time ρ now ∧ isDue now b ∧ HasAttempt b

/-- The job has ended, or waits with an attempt left. -/
def IsAtRest (a : ρ) : Prop :=
  (∃ s : Status, s.isTerminal ∧ IsAt s a) ∨ IsAt .pending a ∧ HasAttempt a

theorem Interrupted.isAtRest {now : Instant} {a b : ρ} (h : Interrupted now a b) : IsAtRest b := by
  by_cases hlast : (columns b).attempts = (columns b).maxAttempts
  · exact .inl ⟨.deadLetter, rfl, (h.ended hlast).1⟩
  · obtain ⟨pending, -, -, hleft⟩ := h.waits hlast
    exact .inr ⟨pending, hleft⟩

theorem IsAtRest.not_isRunning {a : ρ} (h : IsAtRest a) : ¬ IsAt .running a := by
  intro running
  obtain ⟨s, hs, hat⟩ | ⟨pending, -⟩ := h
  · obtain rfl := hat.unique running
    cases hs
  · cases pending.unique running

variable [LE τ] [DecidableLE τ]

/-- Whether an entry shows an attempt that began at a time or earlier and was never settled. -/
def isStale (staleBefore : Instant) (a : ρ) : Bool :=
  decide (IsAt .running a) && decide ((columns a).updatedAt ≤ time ρ staleBefore)

theorem isStale_iff {staleBefore : Instant} {a : ρ} : isStale staleBefore a ↔
    IsAt .running a ∧ (columns a).updatedAt ≤ time ρ staleBefore := by
  rw [isStale, Bool.and_eq_true, decide_eq_true_eq, decide_eq_true_eq]

/-- What became of the stale entries, where `after` follows `before` entry by entry. -/
def takenBack (staleBefore : Instant) (before after : List ρ) : List ρ :=
  ((before.zip after).filter fun e => isStale staleBefore e.1).map Prod.snd

end Recoverable

open Recoverable

section Entries

variable {σ ρ τ : Type} [JobStore σ] [Recoverable ρ τ] [LE τ] [DecidableLE τ]
  {entries : σ → List ρ} {staleBefore now : Instant}

/-- **A recovery is exact:** it is made for the attempts that began at `staleBefore` or earlier,
takes a store from `s` to `s'`, and gives an answer. The store is seen as a list of entries. -/
structure RecoversExactly (entries : σ → List ρ) (staleBefore now : Instant) (s : σ)
    (answer : Except StoreError (List Job)) (s' : σ) : Prop where
  /-- stale attempts are given up, and nothing else is changed -/
  changes : List.Forall₂ (fun a b => if isStale staleBefore a then Interrupted now a b else b = a)
    (entries s) (entries s')
  /-- there is an answer if what was given up can be read, and only then -/
  answers : (∃ js, answer = .ok js) ↔
    ∀ b ∈ takenBack staleBefore (entries s) (entries s'), ∃ j, Recoverable.read b = .ok j
  /-- the answer is what was given up, in some order -/
  reports : ∀ js, answer = .ok js → ∃ ks, ks.Perm js ∧ List.Forall₂
    (fun b j => Recoverable.read b = .ok j) (takenBack staleBefore (entries s) (entries s')) ks
  /-- the same recovery finds nothing the next time, whenever it is made -/
  again : ∀ later, JobStore.recoverStale staleBefore later s' = (.ok [], s')
  /-- if all jobs were last changed by then, none of them is worked on afterwards -/
  clears : (∀ a ∈ entries s, (columns a).updatedAt ≤ time ρ staleBefore) →
    ∀ b ∈ entries s', ¬ IsAt .running b
  /-- and all are at rest, if those that waited had an attempt left -/
  rests : (∀ a ∈ entries s, (columns a).updatedAt ≤ time ρ staleBefore) →
    (∀ a ∈ entries s, IsAt .pending a → HasAttempt a) → ∀ b ∈ entries s', IsAtRest b

/-! ## Changing the stale entries -/

variable {l : List ρ} {f : ρ → ρ}

/-- The stale entries of a list, each changed by a function. -/
theorem takenBack_map (staleBefore : Instant) (f : ρ → ρ) (l : List ρ) :
    takenBack staleBefore l (l.map fun a => if isStale staleBefore a then f a else a) =
      (l.filter (isStale staleBefore)).map f := by
  induction l with
  | nil => rfl
  | cons a l ih =>
    rw [takenBack] at ih
    rw [takenBack, List.map_cons, List.zip_cons_cons, List.filter_cons, List.filter_cons]
    split
    · rw [List.map_cons, List.map_cons, ih]
    · exact ih

theorem forall₂_interrupted (hf : ∀ a ∈ l, isStale staleBefore a → Interrupted now a (f a)) :
    List.Forall₂ (fun a b => if isStale staleBefore a then Interrupted now a b else b = a) l
      (l.map fun a => if isStale staleBefore a then f a else a) := by
  refine List.forall₂_map_right_iff.mpr (List.forall₂_same.mpr fun a ha => ?_)
  by_cases hstale : isStale staleBefore a
  · rw [if_pos hstale, if_pos hstale]
    exact hf a ha hstale
  · rw [if_neg hstale, if_neg hstale]

/-- Nothing that was given up is stale any more. -/
theorem not_isStale_of_interrupted
    (hf : ∀ a ∈ l, isStale staleBefore a → Interrupted now a (f a)) {b : ρ}
    (hb : b ∈ l.map fun a => if isStale staleBefore a then f a else a) :
    ¬ isStale staleBefore b := by
  obtain ⟨a, ha, rfl⟩ := List.mem_map.mp hb
  split
  · rename_i hstale
    exact fun h => (hf a ha hstale).isAtRest.not_isRunning (isStale_iff.mp h).1
  · rename_i hfresh
    exact hfresh

/-- **Whatever became of an entry that is not running any more.** -/
theorem cases_of_interrupted
    (hf : ∀ a ∈ l, isStale staleBefore a → Interrupted now a (f a))
    (hall : ∀ a ∈ l, (columns a).updatedAt ≤ time ρ staleBefore) {b : ρ}
    (hb : b ∈ l.map fun a => if isStale staleBefore a then f a else a) :
    IsAtRest b ∨ b ∈ l ∧ ¬ IsAt .running b := by
  obtain ⟨a, ha, rfl⟩ := List.mem_map.mp hb
  split
  · rename_i hstale
    exact .inl (hf a ha hstale).isAtRest
  · rename_i hfresh
    exact .inr ⟨ha, fun running => hfresh (isStale_iff.mpr ⟨running, hall a ha⟩)⟩

/-- **A recovery is exact** if it changes the stale entries by a function that gives attempts up, and
reads them for its answer. -/
theorem recoversExactly_of {s s' : σ} {answer : Except StoreError (List Job)}
    (hentries : entries s' = (entries s).map fun a => if isStale staleBefore a then f a else a)
    (hf : ∀ a ∈ entries s, isStale staleBefore a → Interrupted now a (f a))
    (hnamed : ∀ a ∈ entries s, ∃ status, IsAt status a)
    (hanswers : (∃ js, answer = .ok js) ↔
      ∀ b ∈ ((entries s).filter (isStale staleBefore)).map f, ∃ j, Recoverable.read b = .ok j)
    (hreports : ∀ js, answer = .ok js → ∃ ks, ks.Perm js ∧ List.Forall₂
      (fun b j => Recoverable.read b = .ok j)
      (((entries s).filter (isStale staleBefore)).map f) ks)
    (hagain : ∀ s : σ, (∀ a ∈ entries s, ¬ isStale staleBefore a) →
      ∀ later, JobStore.recoverStale staleBefore later s = (.ok [], s)) :
    RecoversExactly entries staleBefore now s answer s' where
  changes := by
    rw [hentries]
    exact forall₂_interrupted hf
  answers := by
    rw [hentries, takenBack_map]
    exact hanswers
  reports := by
    rw [hentries, takenBack_map]
    exact hreports
  again := hagain s' fun b hb => not_isStale_of_interrupted hf (hentries ▸ hb)
  clears hall b hb := by
    obtain hrest | ⟨-, hidle⟩ := cases_of_interrupted hf hall (hentries ▸ hb)
    · exact hrest.not_isRunning
    · exact hidle
  rests hall hleft b hb := by
    obtain hrest | ⟨hmem, hidle⟩ := cases_of_interrupted hf hall (hentries ▸ hb)
    · exact hrest
    · obtain ⟨status, hstatus⟩ := hnamed b hmem
      cases status with
      | pending => exact .inr ⟨hstatus, hleft b hmem hstatus⟩
      | running => exact absurd hstatus hidle
      | succeeded | deadLetter => exact .inl ⟨_, rfl, hstatus⟩

end Entries

/-! ## The store in memory -/

namespace Job

variable {j : Job}

theorem interrupt_of_exhausted (h : j.maxAttempts ≤ nextAttempt j.attempts) (now : Instant) :
    (j.interrupt now).status = .deadLetter ∧ (j.interrupt now).runAfter = j.runAfter := by
  simp only [interrupt, h, decide_true, if_true, and_self]

theorem interrupt_of_left (h : ¬ j.maxAttempts ≤ nextAttempt j.attempts) (now : Instant) :
    (j.interrupt now).status = .pending ∧ (j.interrupt now).runAfter = now := by
  simp only [interrupt, h, decide_false, Bool.false_eq_true, if_false, and_self]

/-- An attempt of a job is given up. -/
theorem interrupted_interrupt (h : HasAttempt j) (now : Instant) :
    Interrupted now j (j.interrupt now) := by
  have hlt : j.attempts.toNat < j.maxAttempts.toNat := Int.ofNat_lt.mp h
  have hnext := toNat_nextAttempt_of_lt hlt
  have hexhausted : j.maxAttempts ≤ nextAttempt j.attempts ↔
      ((nextAttempt j.attempts).toNat : Int) = j.maxAttempts.toNat := by
    rw [UInt32.le_iff_toNat_le]
    omega
  constructor
  case origin => exact ⟨rfl, rfl, rfl, rfl, rfl, rfl⟩
  case ceiling => rfl
  case attempts => exact congrArg Int.ofNat hnext
  case lastError => rfl
  case updatedAt => rfl
  case ended =>
    intro hlast
    obtain ⟨dead, same⟩ := interrupt_of_exhausted (hexhausted.mpr hlast) now
    exact ⟨congrArg Status.name dead, same⟩
  case waits =>
    intro hlast
    obtain ⟨pending, hdue⟩ := interrupt_of_left (fun hle => hlast (hexhausted.mp hle)) now
    refine ⟨congrArg Status.name pending, hdue, ?_, ?_⟩
    · show (j.interrupt now).isDue now
      rw [Job.isDue, pending, hdue]
      simp [Instant.le_def]
    · have hne : ((nextAttempt j.attempts).toNat : Int) ≠ j.maxAttempts.toNat := hlast
      show ((nextAttempt j.attempts).toNat : Int) < j.maxAttempts.toNat
      omega

end Job

namespace Memory

variable {m : Memory} {staleBefore : Instant}

/-- The jobs of a store. -/
def entries (m : Memory) : List Job := m.jobs.toList

theorem isStale_eq (staleBefore : Instant) :
    isStale staleBefore = Recoverable.isStale (ρ := Job) staleBefore := by
  funext j
  simp only [isStale, Recoverable.isStale, IsAt, columns, Status.name_inj, time, id]

/-- Without a stale attempt, a recovery does nothing. -/
theorem recoverStale_of_none (h : ∀ j ∈ m.entries, ¬ isStale staleBefore j) (now : Instant) :
    m.recoverStale staleBefore now = ([], m) := by
  have hnone : m.jobs.toList.filter (isStale staleBefore) = [] := List.filter_eq_nil_iff.mpr h
  refine Prod.ext ?_ (congrArg Memory.mk (Keyed.ext ?_))
  · simp only [recoverStale, hnone, List.map_nil, List.mergeSort_nil]
  · rw [Keyed.toList_update]
    exact (List.map_congr_left fun j hj => if_neg (h j hj)).trans (List.map_id' _)

/-- **Recoveries are exact** as long as running jobs have attempts left. -/
theorem recoversExactly (h : ∀ j ∈ m.entries, IsAt .running j → HasAttempt j)
    (staleBefore now : Instant) :
    RecoversExactly entries staleBefore now m (JobStore.recoverStale staleBefore now m).1
      (JobStore.recoverStale staleBefore now m).2 := by
  have hanswer : (JobStore.recoverStale staleBefore now m).1 =
      .ok (((m.entries.filter (Recoverable.isStale staleBefore)).map
        (Job.interrupt now)).mergeSort Job.precedes) := by
    rw [← isStale_eq]
    rfl
  refine recoversExactly_of (f := Job.interrupt now) ?_ (fun j hj hstale => ?_)
    (fun j _ => ⟨j.status, rfl⟩) ?_ ?_ fun m hm later => ?_
  · rw [← isStale_eq]
    rfl
  · exact Job.interrupted_interrupt (h j hj (isStale_iff.mp hstale).1) now
  · exact iff_of_true ⟨_, hanswer⟩ fun j _ => ⟨j, rfl⟩
  · intro js hjs
    obtain rfl := Except.ok.inj (hanswer.symm.trans hjs)
    exact ⟨_, (List.mergeSort_perm _ _).symm, List.forall₂_same.mpr fun _ _ => rfl⟩
  · rw [← isStale_eq] at hm
    exact congrArg (fun r => (Except.ok r.1, r.2)) (recoverStale_of_none hm later)

end Memory

/-! ## The table -/

namespace Row

variable {r : Row}

theorem interrupt_of_exhausted (h : r.maxAttempts ≤ r.attempts + 1) (now : Int) :
    (r.interrupt now).status = Status.deadLetter.name ∧
      (r.interrupt now).runAfter = r.runAfter := by
  simp only [interrupt, h, decide_true, if_true, and_self]

theorem interrupt_of_left (h : ¬ r.maxAttempts ≤ r.attempts + 1) (now : Int) :
    (r.interrupt now).status = Status.pending.name ∧ (r.interrupt now).runAfter = now := by
  simp only [interrupt, h, decide_false, Bool.false_eq_true, if_false, and_self]

/-- An attempt of the job of a row is given up. -/
theorem interrupted_interrupt (h : HasAttempt r) (now : Instant) :
    Interrupted now r (r.interrupt now.millis) := by
  have hlt : r.attempts < r.maxAttempts := h
  constructor
  case origin => exact ⟨rfl, rfl, rfl, rfl, rfl, rfl⟩
  case ceiling => rfl
  case attempts => rfl
  case lastError => rfl
  case updatedAt => rfl
  case ended =>
    intro hlast
    have hlast : r.attempts + 1 = r.maxAttempts := hlast
    exact interrupt_of_exhausted hlast.ge now.millis
  case waits =>
    intro hlast
    have hlast : r.attempts + 1 ≠ r.maxAttempts := hlast
    have hleft : ¬ r.maxAttempts ≤ r.attempts + 1 := by omega
    obtain ⟨pending, hdue⟩ := interrupt_of_left hleft now.millis
    refine ⟨pending, hdue, ?_, ?_⟩
    · show Table.isDue now.millis (r.interrupt now.millis)
      rw [Table.isDue, pending, hdue]
      simp
    · show r.attempts + 1 < r.maxAttempts
      omega

end Row

namespace Table

variable {t : Table} {staleBefore : Instant}

/-- The rows of a table. -/
def entries (t : Table) : List Row := t.rows.toList

/-- Without a stale attempt, a recovery does nothing. -/
theorem recoverStale_of_none (h : t.stale staleBefore = []) (now : Instant) :
    t.recoverStale staleBefore now = (.ok [], t) := by
  have hfree : ∀ r ∈ t.stale staleBefore, r.attempts < r.maxAttempts := by simp [h]
  obtain ⟨t', hrows, hdone⟩ := recoverStale_granted now hfree
  have hnone : t.takenBack staleBefore now = [] := by
    rw [takenBack, h, List.mergeSort_nil, List.map_nil]
  have hsame : t' = t := by
    refine rows_injective (hrows.trans (Keyed.ext ?_))
    rw [Keyed.toList_update]
    refine (List.map_congr_left fun r hr => if_neg fun hstale => ?_).trans (List.map_id' _)
    exact List.filter_eq_nil_iff.mp h r hr hstale
  rw [hdone, hnone, hsame]
  show (Except.ok (List.mergeSort [] recoveredBefore), t) = _
  rw [List.mergeSort_nil]

section Reading

variable {rows : List Row} {order : Job → Job → Bool}

/-- Rows are read and sorted exactly if each of them can be read. -/
theorem sorted_answers_iff : (∃ js, (readAll rows).map (·.mergeSort order) = .ok js) ↔
    ∀ r ∈ rows, ∃ j, r.toJob? = .ok j := by
  constructor
  · rintro ⟨js, hjs⟩ r hr
    cases hread : readAll rows with
    | error e =>
      rw [hread] at hjs
      cases hjs
    | ok ks => exact ⟨_, (readAll_eq_map hread).2 r hr⟩
  · intro h
    obtain ⟨js, hjs⟩ := exists_readAll fun r hr => (h r hr).imp fun _ => Row.toJob?_eq_ok_iff.mp
    exact ⟨_, congrArg (Except.map (·.mergeSort order)) hjs⟩

/-- Sorted or not, the jobs are those of the rows. -/
theorem sorted_reports {js : List Job} (h : (readAll rows).map (·.mergeSort order) = .ok js) :
    (∀ r ∈ rows, r.toJob? = .ok r.job) ∧ js.Perm (rows.map Row.job) := by
  cases hread : readAll rows with
  | error e =>
    rw [hread] at h
    cases h
  | ok ks =>
    rw [hread] at h
    obtain rfl := Except.ok.inj h
    obtain ⟨rfl, hjobs⟩ := readAll_eq_map hread
    exact ⟨hjobs, List.mergeSort_perm _ _⟩

end Reading

/-- **Recoveries are exact** as long as running jobs have attempts left. -/
theorem recoversExactly (h : ∀ r ∈ t.entries, IsAt .running r → HasAttempt r)
    (staleBefore now : Instant) :
    RecoversExactly entries staleBefore now t (JobStore.recoverStale staleBefore now t).1
      (JobStore.recoverStale staleBefore now t).2 := by
  have hfree : ∀ r ∈ t.stale staleBefore, r.attempts < r.maxAttempts := by
    intro r hr
    obtain ⟨hmem, running, -⟩ := mem_stale.mp hr
    exact h r hmem running
  obtain ⟨t', hrows, hdone⟩ := t.recoverStale_granted now hfree
  have hdone : JobStore.recoverStale staleBefore now t = _ := hdone
  have hperm : (t.takenBack staleBefore now).Perm
      ((t.stale staleBefore).map (Row.interrupt now.millis)) := (List.mergeSort_perm _ _).map _
  rw [hdone]
  refine recoversExactly_of (f := Row.interrupt now.millis) ?_ (fun r hr hstale => ?_)
    (fun r hr => ?_) ?_ ?_ fun t ht later => ?_
  · exact congrArg Keyed.toList hrows
  · exact Row.interrupted_interrupt (h r hr (isStale_iff.mp hstale).1) now
  · obtain ⟨s, hs⟩ := exists_status (t.kept r hr)
    exact ⟨s, hs.symm⟩
  · rw [sorted_answers_iff]
    exact forall_congr' fun r => imp_congr_left hperm.mem_iff
  · intro js hjs
    obtain ⟨hread, hjobs⟩ := sorted_reports hjs
    refine ⟨_, (hperm.map Row.job).symm.trans hjobs.symm, List.forall₂_map_right_iff.mpr ?_⟩
    exact List.forall₂_same.mpr fun r hr => hread r (hperm.mem_iff.mpr hr)
  · exact recoverStale_of_none (List.filter_eq_nil_iff.mpr ht) later

end Table

/-- **Recoveries are exact,** in either store and whatever its state, as long as the jobs that are
worked on have attempts left. In the table, times are whole milliseconds. -/
theorem recoveries_are_exact (staleBefore now : Instant) :
    (∀ m : Memory, (∀ j ∈ m.entries, IsAt .running j → HasAttempt j) →
      RecoversExactly Memory.entries staleBefore now m
        (JobStore.recoverStale staleBefore now m).1 (JobStore.recoverStale staleBefore now m).2) ∧
    ∀ t : Table, (∀ r ∈ t.entries, IsAt .running r → HasAttempt r) →
      RecoversExactly Table.entries staleBefore now t
        (JobStore.recoverStale staleBefore now t).1 (JobStore.recoverStale staleBefore now t).2 :=
  ⟨fun _ h => Memory.recoversExactly h staleBefore now,
    fun _ h => Table.recoversExactly h staleBefore now⟩

/-! ## A job that hides a recovery -/

/-- Two jobs are queued and claimed, of which the first has the payload given. -/
def hidingCalls (n : Nat) : List StoreCall :=
  [.claim ⟨2⟩ .epoch, .claim ⟨1⟩ .epoch,
    .enqueue { NewJob.plain with id := ⟨2⟩, maxAttempts := 2 }, .enqueue (.nested n)]

/-- A store after these calls. -/
def Ledger.hiding (σ : Type) [Ledger σ] (n : Nat) : σ := current start (replay start (hidingCalls n))

/-- Both jobs are taken back, with an empty array for a payload; one of them has failed for good. -/
theorem two_jobs_are_taken_back :
    ((∀ j ∈ (Ledger.hiding Memory 1).entries, IsAt .running j → HasAttempt j) ∧
      RecoversExactly Memory.entries .epoch .epoch (Ledger.hiding Memory 1)
        (JobStore.recoverStale .epoch .epoch (Ledger.hiding Memory 1)).1
        (JobStore.recoverStale .epoch .epoch (Ledger.hiding Memory 1)).2) ∧
    ((∀ r ∈ (Ledger.hiding Table 1).entries, IsAt .running r → HasAttempt r) ∧
      RecoversExactly Table.entries .epoch .epoch (Ledger.hiding Table 1)
        (JobStore.recoverStale .epoch .epoch (Ledger.hiding Table 1)).1
        (JobStore.recoverStale .epoch .epoch (Ledger.hiding Table 1)).2) := by
  have hmemory : ∀ j ∈ (Ledger.hiding Memory 1).entries, IsAt .running j → HasAttempt j := by
    decide +kernel
  have htable : ∀ r ∈ (Ledger.hiding Table 1).entries, IsAt .running r → HasAttempt r := by
    decide +kernel
  exact ⟨⟨hmemory, (recoveries_are_exact .epoch .epoch).1 _ hmemory⟩,
    ⟨htable, (recoveries_are_exact .epoch .epoch).2 _ htable⟩⟩

/-- The row of a deep job cannot be read after its attempt was given up. -/
theorem Row.isGarbled_interrupted {n : Nat} (h : Json.maxDepth < n) :
    (((Row.ofNew (.nested n)).start Instant.epoch.millis).interrupt
      Instant.epoch.millis).IsGarbled := by
  let j := (((NewJob.nested n).round Instant.floor).toPending).start Instant.epoch.floor
  have hj : j.IsWhole := (Job.isWhole_toPending _).start .epoch
  have hleft : j.attempts.toNat < j.maxAttempts.toNat := Nat.zero_lt_one
  have hfit : (j.interrupt Instant.epoch.floor).payload.value.floatsFit := Json.floatsFit_nested n
  have hnesting : (j.interrupt Instant.epoch.floor).payload.value.nesting = n :=
    Json.nesting_nested n
  rw [Row.ofNew_eq, Row.start_ofJob, Row.interrupt_ofJob hleft,
    Row.isGarbled_ofJob_iff (hj.interrupt .epoch) hfit, hnesting]
  exact h

/-- **A deep job hides a recovery:** its payload is nested one deeper than the reader goes. The
recovery takes back both attempts and fails, and made again it reports nothing. The store in memory
reports both jobs. -/
theorem a_deep_job_hides_a_recovery :
    let t := Ledger.hiding Table 128
    (∀ r ∈ t.entries, IsAt .running r ∧ HasAttempt r) ∧
    (∃ e, (JobStore.recoverStale .epoch .epoch t).1 = .error e) ∧
    (JobStore.recoverStale .epoch .epoch t).2.entries.map (fun r => (r.status, r.attempts)) =
      [(Status.deadLetter.name, 1), (Status.pending.name, 1)] ∧
    JobStore.recoverStale .epoch .epoch (JobStore.recoverStale .epoch .epoch t).2 =
      (.ok [], (JobStore.recoverStale .epoch .epoch t).2) ∧
    ∃ js, (JobStore.recoverStale .epoch .epoch (Ledger.hiding Memory 128)).1 = .ok js ∧
      js.length = 2 := by
  intro t
  have hrunning : ∀ r ∈ t.entries, IsAt .running r ∧ HasAttempt r := by decide +kernel
  have hexact := Table.recoversExactly (fun r hr _ => (hrunning r hr).2) .epoch .epoch
  have hdeep : ((Row.ofNew (.nested 128)).start 0).interrupt 0 ∈ takenBack .epoch t.entries
      (JobStore.recoverStale .epoch .epoch t).2.entries := by
    decide +kernel
  refine ⟨hrunning, ?_, by decide +kernel, hexact.again .epoch, _, rfl, ?_⟩
  · cases hanswer : (JobStore.recoverStale .epoch .epoch t).1 with
    | error e => exact ⟨e, rfl⟩
    | ok js =>
      obtain ⟨j, hj⟩ := hexact.answers.mp ⟨js, hanswer⟩ _ hdeep
      obtain ⟨e, he⟩ := Row.isGarbled_interrupted (n := 128) (by decide)
      exact absurd (hj.symm.trans he) nofun
  · rw [Memory.recoverStale, List.length_mergeSort]
    decide +kernel

end SyncJobs
