import SyncJobs.Proofs.Dispenser

/-!
# Recovery takes back all stale attempts or none

A recovery of the table is one statement on the rows of all stale attempts. It counts an attempt
for each row. A row that is *used up*, with as many attempts as it may have, cannot be counted one
more, and then the database refuses the statement for all rows alike
(`recoveries_take_back_all_or_none`).

A row is used up if its last attempt is settled with a retry. If it is claimed once more, no call
changes it from then on (`Table.isKept_usedUp`), and all recoveries that come across it are refused
for good (`Table.recoveries_stay_refused`). The store in memory has no such rule, and takes back
all attempts after the same calls (`one_job_stops_recovery`). Callers that decide by the rule of
decisions are safe: their jobs run with attempts left (`History.recovers`).
-/

namespace SyncJobs

/-! ## One attempt more -/

namespace Row

variable {r : Row}

/-- A row with one attempt more breaks no rule, unless it was used up. -/
theorem rule?_next {r' : Row} (h : r.rule? = none) (hdomain : r'.domain = r.domain)
    (hstatus : ∃ s : Status, s.name = r'.status) (hattempts : r'.attempts = r.attempts + 1)
    (hmax : r'.maxAttempts = r.maxAttempts) :
    r'.rule? = if r.attempts < r.maxAttempts then none else some .ceiling := by
  have hkept := rule?_eq_none_iff.mp h
  obtain ⟨s, hs⟩ := hstatus
  have hdomain' : r'.keeps .domain = true := by
    rw [keeps, hdomain]
    exact hkept .domain
  have hstatus' : r'.keeps .status = true :=
    List.any_eq_true.mpr ⟨s, Status.mem_all s, decide_eq_true hs⟩
  have hattempts' : r'.keeps .attempts = true := by
    have hnonneg := of_decide_eq_true (hkept .attempts)
    rw [keeps, hattempts, decide_eq_true_eq]
    omega
  have hmax' : r'.keeps .maxAttempts = true := by
    rw [keeps, hmax]
    exact hkept .maxAttempts
  have hceiling : r'.keeps .ceiling = decide (r.attempts < r.maxAttempts) := by
    rw [keeps, hattempts, hmax]
    rfl
  rw [rule?, rules]
  by_cases hlt : r.attempts < r.maxAttempts
  · simp [hdomain', hstatus', hattempts', hmax', hceiling, hlt]
  · simp [hdomain', hstatus', hattempts', hmax', hceiling, hlt]

theorem rule?_settle (h : r.rule? = none) (d : Decision) (now : Int) :
    (r.settle d now).rule? = if r.attempts < r.maxAttempts then none else some .ceiling :=
  rule?_next h rfl ⟨d.nextStatus, rfl⟩ rfl rfl

/-- An attempt that is given up ends its row, or has it wait. -/
theorem status_interrupt (now : Int) (r : Row) : (r.interrupt now).status = Status.deadLetter.name ∨
    (r.interrupt now).status = Status.pending.name := by
  simp only [interrupt]
  split
  · exact .inl rfl
  · exact .inr rfl

theorem rule?_interrupt (h : r.rule? = none) (now : Int) :
    (r.interrupt now).rule? = if r.attempts < r.maxAttempts then none else some .ceiling := by
  refine rule?_next h rfl ?_ rfl rfl
  obtain hdead | hpending := status_interrupt now r
  · exact ⟨_, hdead.symm⟩
  · exact ⟨_, hpending.symm⟩

end Row

/-! ## What a recovery does -/

namespace Table

variable {t : Table} {staleBefore now : Instant}

/-- The rows of the attempts that began at a time or earlier, and were never settled. -/
def stale (t : Table) (staleBefore : Instant) : List Row :=
  t.rows.toList.filter (isStale staleBefore.millis)

theorem mem_stale {r : Row} : r ∈ t.stale staleBefore ↔ r ∈ t.rows.toList ∧
    r.status = Status.running.name ∧ r.updatedAt ≤ staleBefore.millis := by
  simp only [stale, isStale, List.mem_filter, Bool.and_eq_true, decide_eq_true_eq]

/-- **A recovery succeeds:** it answers, and leaves no stale attempt behind. -/
structure Recovers (t : Table) (staleBefore now : Instant) : Prop where
  answers : ∃ js, (JobStore.recoverStale staleBefore now t).1 = .ok js
  clears : (JobStore.recoverStale staleBefore now t).2.stale staleBefore = []

/-- Counting one attempt for each of several rows breaks a rule if one of them is used up. -/
theorem brokenRule?_interrupt {rows : List Row} (h : ∀ r ∈ rows, r.rule? = none) (now : Int) :
    brokenRule? (rows.map (Row.interrupt now)) =
      if ∀ r ∈ rows, r.attempts < r.maxAttempts then none else some .ceiling := by
  induction rows with
  | nil => simp [brokenRule?]
  | cons r rows ih =>
    have hrest := ih fun s hs => h s (List.mem_cons_of_mem r hs)
    rw [brokenRule?] at hrest
    rw [brokenRule?, List.map_cons, List.findSome?_cons,
      Row.rule?_interrupt (h r List.mem_cons_self), hrest]
    by_cases hlt : r.attempts < r.maxAttempts <;> simp [hlt]

theorem brokenRule?_stale (t : Table) (staleBefore : Instant) (now : Int) :
    brokenRule? ((t.stale staleBefore).map (Row.interrupt now)) =
      if ∀ r ∈ t.stale staleBefore, r.attempts < r.maxAttempts then none else some .ceiling :=
  brokenRule?_interrupt (fun r hr => t.kept r (mem_stale.mp hr).1) now

/-- **One row that is used up stops the whole recovery.** -/
theorem recoverStale_refused (h : ¬ ∀ r ∈ t.stale staleBefore, r.attempts < r.maxAttempts) :
    t.recoverStale staleBefore now = (refused (.check .ceiling), t) := by
  have hbroken := t.brokenRule?_stale staleBefore now.millis
  rw [if_neg h] at hbroken
  simp only [recoverStale, update_of_broken (Row.id_interrupt now.millis) hbroken]

/-- What a recovery reads for its answer. -/
def takenBack (t : Table) (staleBefore now : Instant) : List Row :=
  ((t.stale staleBefore).mergeSort Row.dueBefore).map (Row.interrupt now.millis)

/-- **Without such a row,** all stale attempts are taken back. -/
theorem recoverStale_granted (now : Instant)
    (h : ∀ r ∈ t.stale staleBefore, r.attempts < r.maxAttempts) :
    ∃ t', t'.rows = t.rows.update (isStale staleBefore.millis) (Row.interrupt now.millis)
        (Row.id_interrupt now.millis) ∧
      t.recoverStale staleBefore now = ((readAll (t.takenBack staleBefore now)).map fun js =>
        js.mergeSort recoveredBefore, t') := by
  have hkept := t.brokenRule?_stale staleBefore now.millis
  rw [if_pos h] at hkept
  obtain ⟨t', ht', hrows⟩ := update_of_kept (Row.id_interrupt now.millis) hkept
  refine ⟨t', hrows, ?_⟩
  simp only [recoverStale, ht']
  rfl

/-- What was taken back is stale no more. -/
theorem stale_eq_nil {t' : Table} (h : t'.rows = t.rows.update (isStale staleBefore.millis)
    (Row.interrupt now.millis) (Row.id_interrupt now.millis)) : t'.stale staleBefore = [] := by
  refine List.filter_eq_nil_iff.mpr fun r' hr' hstale => ?_
  rw [h, Keyed.toList_update, List.mem_map] at hr'
  obtain ⟨r, -, rfl⟩ := hr'
  split at hstale
  · -- the row ended, or waits again
    have hrunning := (Bool.and_eq_true_iff.mp hstale).1
    rw [decide_eq_true_eq] at hrunning
    obtain hdead | hpending := Row.status_interrupt now.millis r
    · exact absurd (Status.name_inj.mp (hdead.symm.trans hrunning)) (by decide)
    · exact absurd (Status.name_inj.mp (hpending.symm.trans hrunning)) (by decide)
  · rename_i hnot
    exact hnot hstale

/-! ## What calls keep -/

/-- **A property of tables that calls keep,** if only such jobs are stored as are admitted. -/
structure IsKept (Q : Table → Prop) (admitted : NewJob → Prop := fun _ => True) : Prop where
  enqueue {t : Table} {n : NewJob} : admitted n → Q t → Q (t.enqueue n).2
  claim {t : Table} (i : JobId) (now : Instant) : Q t → Q (t.claim i now).2
  complete {t : Table} (r : Receipt) (d : Decision) (now : Instant) : Q t → Q (t.complete r d now).2
  recoverStale {t : Table} (staleBefore now : Instant) : Q t → Q (t.recoverStale staleBefore now).2
  purgeSucceeded {t : Table} (olderThan : Instant) : Q t → Q (t.purgeSucceeded olderThan).2

namespace IsKept

variable {Q : Table → Prop} {admitted : NewJob → Prop}

theorem claimEach (h : IsKept Q admitted) (now : Instant) (is : List JobId) (ht : Q t) :
    Q (JobStore.claimEach now is t).2 := by
  induction is generalizing t with
  | nil => exact ht
  | cons i is ih =>
    rw [JobStore.claimEach_cons]
    have hclaim : Q (JobStore.claim i now t).2 := h.claim i now ht
    revert hclaim
    cases JobStore.claim i now t with
    | mk answer t' =>
      intro ht'
      cases answer with
      | error e => exact ht'
      | ok found => exact ih ht'

/-- One call keeps the property. -/
theorem run (h : IsKept Q admitted) {c : StoreCall} (hc : ∀ n, c = .enqueue n → admitted n)
    (ht : Q t) : Q (c.run t).2 := by
  cases c with
  | enqueue n => exact h.enqueue (hc n rfl) ht
  | claim i now => exact h.claim i now ht
  | claimDue now limit =>
    show Q (JobStore.claimDue now limit t).2
    have hdue : JobStore.dueJobs now limit none t =
        (readAll (t.dueRows now.millis limit none), t) := rfl
    rw [JobStore.claimDue_eq, hdue]
    cases readAll (t.dueRows now.millis limit none) with
    | error e => exact ht
    | ok js => exact h.claimEach now (js.map Job.id) ht
  | complete r d now => exact h.complete r d now ht
  | recoverStale staleBefore now => exact h.recoverStale staleBefore now ht
  | purgeSucceeded olderThan => exact h.purgeSucceeded olderThan ht
  | dueJobs | get | counts | deadLetters => exact ht

/-- **All calls keep the property,** whatever they are. -/
theorem calls (h : IsKept Q admitted) (calls : List StoreCall)
    (hcalls : ∀ n, .enqueue n ∈ calls → admitted n) (ht : Q t) :
    Q (current t (replay t calls)) := by
  induction calls with
  | nil => exact ht
  | cons c calls ih =>
    refine h.run (fun n hn => hcalls n (hn ▸ List.mem_cons_self)) (ih fun n hn => ?_)
    exact hcalls n (List.mem_cons_of_mem c hn)

end IsKept

/-- A new job is refused, or its row is stored. -/
theorem enqueue_cases (n : NewJob) (t : Table) : (∃ e, t.enqueue n = (refused e, t)) ∨
    ∃ t', t.rows.contains (Row.ofNew n).id = false ∧ t'.rows = t.rows.insert (Row.ofNew n) ∧
      t.enqueue n = (.ok n.toPending, t') := by
  rw [enqueue, insert]
  split
  · rename_i e hinsert
    exact .inl ⟨e, rfl⟩
  · rename_i t' hinsert
    refine .inr ⟨t', ?_⟩
    split at hinsert
    · cases hinsert
    · split at hinsert
      · cases hinsert
      · rename_i hfree
        obtain rfl := Except.ok.inj hinsert
        exact ⟨Bool.eq_false_iff.mpr hfree, rfl, rfl⟩

/-! ## Rows that calls have written -/

/-- **A row that is filed for a job:** the row of a job at whole milliseconds, whose payload is as
it should be. -/
def IsFiled (good : Payload → Prop) (r : Row) : Prop :=
  ∃ j : Job, j.IsWhole ∧ good j.payload ∧ Row.ofJob j = r

/-- A table all of whose rows are so. -/
def AllFiled (good : Payload → Prop) (t : Table) : Prop := ∀ r ∈ t.rows.toList, IsFiled good r

variable {good : Payload → Prop}

/-- Changing rows keeps them filed as long as the changes do. -/
theorem AllFiled.update {t' : Table} (ht : t.AllFiled good) {p : Row → Bool} {f : Row → Row}
    {hf : ∀ r, (f r).id = r.id} (h : t'.rows = t.rows.update p f hf)
    (hfiled : ∀ r ∈ t.rows.toList, p r → IsFiled good r → IsFiled good (f r)) :
    t'.AllFiled good := by
  intro r' hr'
  rw [h, Keyed.toList_update, List.mem_map] at hr'
  obtain ⟨r, hr, rfl⟩ := hr'
  split
  · rename_i hp
    exact hfiled r hr hp (ht r hr)
  · exact ht r hr

/-- **Calls write rows of jobs,** with the payloads that the jobs were stored with. -/
theorem isKept_allFiled (good : Payload → Prop) :
    IsKept (AllFiled good) fun n => good n.payload where
  enqueue {t n} hn ht := by
    obtain ⟨e, hsame⟩ | ⟨t', -, hrows, hdone⟩ := t.enqueue_cases n
    · rw [hsame]
      exact ht
    · rw [hdone]
      intro r' hr'
      rw [hrows, Keyed.toList_insert, List.mem_append, List.mem_singleton] at hr'
      obtain hr' | rfl := hr'
      · exact ht r' (List.mem_filter.mp hr').1
      · exact ⟨_, Job.isWhole_toPending n, hn, (Row.ofNew_eq n).symm⟩
  claim {t} i now ht := by
    intro r' hr'
    obtain hsame | ⟨r, hr, -, rfl⟩ := mem_rows_claim hr'
    · exact ht r' hsame
    · obtain ⟨j, hj, hgood, rfl⟩ := ht r hr
      exact ⟨_, hj.start now, hgood, (Row.start_ofJob j now).symm⟩
  complete {t} receipt d now ht := by
    obtain ⟨e, hsame⟩ | ⟨r, t', hr, hsettle, hrows, hrule, hdone⟩ := t.complete_cases receipt d now
    · rw [hsame]
      exact ht
    · rw [hdone]
      refine ht.update hrows fun r' hr' hsettle' hfiled => ?_
      -- only the row that was found has its id
      have hget := Keyed.get?_eq_some_iff.mpr ⟨hr', (maySettle_iff.mp hsettle').1⟩
      obtain rfl := Option.some.inj (hr.symm.trans hget)
      obtain ⟨j, hj, hgood, rfl⟩ := hfiled
      have hlt : j.attempts.toNat < j.maxAttempts.toNat :=
        Int.ofNat_lt.mp (Int.lt_of_add_one_le (Row.ceiling_of_rule? hrule))
      exact ⟨_, hj.settle d now, hgood, (Row.settle_ofJob hlt d now).symm⟩
  recoverStale {t} staleBefore now ht := by
    by_cases hfree : ∀ r ∈ t.stale staleBefore, r.attempts < r.maxAttempts
    · obtain ⟨t', hrows, hdone⟩ := recoverStale_granted now hfree
      rw [hdone]
      refine ht.update hrows fun r hr hstale hfiled => ?_
      have hbelow := hfree r (List.mem_filter.mpr ⟨hr, hstale⟩)
      obtain ⟨j, hj, hgood, rfl⟩ := hfiled
      exact ⟨_, hj.interrupt now, hgood, (Row.interrupt_ofJob (Int.ofNat_lt.mp hbelow) now).symm⟩
    · rw [recoverStale_refused hfree]
      exact ht
  purgeSucceeded {t} olderThan ht r hr := ht r (List.mem_filter.mp hr).1

/-- After any calls, rows are filed for jobs with the payloads that were stored. -/
theorem allFiled {calls : List StoreCall} (h : ∀ n, .enqueue n ∈ calls → good n.payload) :
    (current empty (replay empty calls)).AllFiled good :=
  (isKept_allFiled good).calls calls h fun _ hr => absurd hr List.not_mem_nil

/-- **A row that is read as soon as its payload is.** -/
def IsWritten (r : Row) : Prop := ∀ p, Row.readPayload r.payload = .ok p → ∃ j, r.Reads j

theorem isWritten_ofJob {j : Job} (h : j.IsWhole) : IsWritten (Row.ofJob j) := by
  intro p hp
  refine ⟨{ j with payload := p }, Row.toJob?_eq_ok_iff.mp ?_⟩
  rw [Row.toJob?_ofJob h]
  exact Job.readWith_eq_ok.mpr ⟨p, hp, rfl⟩

end Table

/-! ## Why rows cannot be read -/

namespace Row

/-- A reading that fails only on account of a payload or of the row with an id. -/
def Blames (row : String) {α : Type} (x : Except StoreError α) : Prop :=
  ∀ e, x = .error e → e = .payload ∨ ∃ fault, e = .corrupt row fault

variable {α β : Type} (row : String)

theorem blames_ok (a : α) : Blames row (.ok a) := by
  rintro e ⟨⟩

theorem blames_corrupt (fault : RowFault) :
    Blames row (.error (.corrupt row fault) : Except StoreError α) := by
  intro e he
  exact .inr ⟨fault, (Except.error.inj he).symm⟩

variable {row} in
theorem Blames.bind {x : Except StoreError α} {f : α → Except StoreError β} (hx : Blames row x)
    (hf : ∀ a, Blames row (f a)) : Blames row (x >>= f) := by
  intro e he
  cases x with
  | error e' =>
    obtain rfl := Except.error.inj he
    exact hx e' rfl
  | ok a => exact hf a e he

theorem blames_readId {kind : IdKind} (text : String) :
    Blames row (readId row text : Except StoreError (Id kind)) := by
  rw [readId]
  split
  · exact blames_ok row _
  · exact blames_corrupt row _

theorem blames_readName (fault : String → RowFault) (ofName? : String → Option α) (text : String) :
    Blames row (readName row fault ofName? text) := by
  rw [readName]
  split
  · exact blames_ok row _
  · exact blames_corrupt row _

theorem blames_readPayload (text : String) : Blames row (readPayload text) := by
  rw [readPayload]
  split
  · exact blames_ok row _
  · intro e he
    exact .inl (Except.error.inj he).symm

theorem blames_readCount (column : String) (n : Int) : Blames row (readCount row column n) := by
  rw [readCount]
  split
  · exact blames_ok row _
  · exact blames_corrupt row _

theorem blames_readTime (column : String) (ms : Int) : Blames row (readTime row column ms) := by
  rw [readTime]
  split
  · exact blames_ok row _
  · exact blames_corrupt row _

/-- **A row that cannot be read is to blame itself:** the error is about its payload or names the
row. -/
theorem blames_toJob? (r : Row) : Blames r.id r.toJob? := by
  rw [toJob?]
  refine (blames_readId _ _).bind fun id => ?_
  refine (blames_readId _ _).bind fun account => ?_
  refine (blames_readName _ _ _ _).bind fun domain => ?_
  refine (blames_readName _ _ _ _).bind fun status => ?_
  refine (blames_readPayload _ _).bind fun payload => ?_
  refine (blames_readCount _ _ _).bind fun attempts => ?_
  refine (blames_readCount _ _ _).bind fun maxAttempts => ?_
  refine (blames_readTime _ _ _).bind fun runAfter => ?_
  refine (blames_readTime _ _ _).bind fun createdAt => ?_
  refine (blames_readTime _ _ _).bind fun updatedAt => ?_
  exact blames_ok r.id _

end Row

namespace Table

variable {t : Table} {staleBefore now : Instant}

/-- If rows cannot be read together, one of them cannot be read. -/
theorem exists_of_readAll_eq_error {rows : List Row} {e : StoreError}
    (h : readAll rows = .error e) : ∃ r ∈ rows, r.toJob? = .error e := by
  induction rows with
  | nil => cases h
  | cons r rows ih =>
    rw [readAll, List.mapM_cons] at h
    cases hr : r.toJob? with
    | error e' =>
      rw [hr] at h
      obtain rfl := Except.error.inj h
      exact ⟨r, List.mem_cons_self, hr⟩
    | ok j =>
      cases hrows : rows.mapM Row.toJob? with
      | error e' =>
        rw [hr, hrows] at h
        obtain rfl := Except.error.inj h
        obtain ⟨r', hr', hread⟩ := ih hrows
        exact ⟨r', List.mem_cons_of_mem r hr', hread⟩
      | ok js =>
        rw [hr, hrows] at h
        cases h

/-- Rows that cannot be read are no refusal by the database. -/
theorem readAll_ne_database (rows : List Row) (err : DatabaseError) :
    readAll rows ≠ .error (.database err) := by
  intro h
  obtain ⟨r, -, hr⟩ := exists_of_readAll_eq_error h
  obtain hpayload | ⟨fault, hcorrupt⟩ := r.blames_toJob? _ hr
  · cases hpayload
  · cases hcorrupt

/-! ## When recoveries succeed -/

theorem mem_takenBack {r' : Row} : r' ∈ t.takenBack staleBefore now ↔
    ∃ r ∈ t.stale staleBefore, r.interrupt now.millis = r' := by
  simp only [takenBack, List.mem_map, List.mem_mergeSort]

/-- **A recovery clears all stale attempts** exactly if none of their rows is used up. -/
theorem clears_iff : (t.recoverStale staleBefore now).2.stale staleBefore = [] ↔
    ∀ r ∈ t.stale staleBefore, r.attempts < r.maxAttempts := by
  by_cases hfree : ∀ r ∈ t.stale staleBefore, r.attempts < r.maxAttempts
  · obtain ⟨t', hrows, hdone⟩ := recoverStale_granted now hfree
    rw [hdone]
    exact iff_of_true (stale_eq_nil hrows) hfree
  · refine iff_of_false (fun hnone => ?_) hfree
    rw [recoverStale_refused hfree] at hnone
    rw [hnone] at hfree
    exact hfree fun r hr => absurd hr List.not_mem_nil

/-- **The database refuses a recovery** exactly if one of the rows is used up. -/
theorem refused_iff : (t.recoverStale staleBefore now = (refused (.check .ceiling), t)) ↔
    ¬ ∀ r ∈ t.stale staleBefore, r.attempts < r.maxAttempts := by
  refine ⟨fun hrefused hfree => ?_, recoverStale_refused⟩
  obtain ⟨t', -, hdone⟩ := recoverStale_granted now hfree
  have hanswer := congrArg Prod.fst (hdone.symm.trans hrefused)
  cases hread : readAll (t.takenBack staleBefore now) with
  | error e =>
    simp only [hread, Except.map, refused, Except.error.injEq] at hanswer
    exact readAll_ne_database _ _ (hanswer ▸ hread)
  | ok js =>
    simp only [hread, Except.map, refused] at hanswer
    cases hanswer

/-- **A recovery answers** exactly if, moreover, the payloads of the rows can be read. -/
theorem answers_iff (ht : ∀ r ∈ t.stale staleBefore, IsWritten r) :
    (∃ js, (t.recoverStale staleBefore now).1 = .ok js) ↔
      ∀ r ∈ t.stale staleBefore, r.attempts < r.maxAttempts ∧
        ∃ p, Row.readPayload r.payload = .ok p := by
  by_cases hfree : ∀ r ∈ t.stale staleBefore, r.attempts < r.maxAttempts
  · obtain ⟨t', -, hdone⟩ := recoverStale_granted now hfree
    rw [hdone]
    constructor
    · rintro ⟨js, hjs⟩ r hr
      cases hread : readAll (t.takenBack staleBefore now) with
      | error e => rw [hread] at hjs; cases hjs
      | ok js' =>
        obtain ⟨-, hrows⟩ := readAll_eq_map hread
        have hreads := Row.toJob?_eq_ok_iff.mp (hrows _ (mem_takenBack.mpr ⟨r, hr, rfl⟩))
        exact ⟨hfree r hr, _, hreads.payload⟩
    · intro hlegible
      have hread : ∀ r' ∈ t.takenBack staleBefore now, ∃ j, r'.Reads j := by
        intro r' hr'
        obtain ⟨r, hr, rfl⟩ := mem_takenBack.mp hr'
        obtain ⟨hlt, p, hp⟩ := hlegible r hr
        obtain ⟨j, hj⟩ := ht r hr p hp
        exact ⟨_, hj.interrupt now hlt⟩
      obtain ⟨js, hjs⟩ := exists_readAll hread
      exact ⟨_, congrArg (Except.map fun js => js.mergeSort recoveredBefore) hjs⟩
  · refine iff_of_false (fun ⟨js, hjs⟩ => ?_) fun hall => hfree fun r hr => (hall r hr).1
    rw [recoverStale_refused hfree] at hjs
    cases hjs

end Table

/-! ## Rows that stay used up -/

namespace Table

variable {t : Table} {staleBefore now : Instant}

/-- **A row that is being worked on and used up** is changed by no call. -/
theorem isKept_usedUp {k : String} {r : Row} (running : r.status = Status.running.name)
    (hused : r.maxAttempts ≤ r.attempts) : IsKept fun t => t.rows.get? k = some r where
  enqueue {t n} _ hr := by
    obtain ⟨e, hsame⟩ | ⟨t', hfree, hrows, hdone⟩ := t.enqueue_cases n
    · rw [hsame]
      exact hr
    · rw [hdone]
      -- the id is not free, so the new row has another one
      have hne : (Row.ofNew n).id ≠ k := by
        rintro rfl
        rw [Keyed.contains, hr] at hfree
        cases hfree
      show t'.rows.get? k = some r
      rw [hrows, Keyed.get?_insert, if_neg hne, hr]
  claim {t} i now hr := by
    have hwaits : ¬ (isDue now.millis r ∧ (r.start now.millis).rule? = none) := by
      simp only [isDue, running, Bool.and_eq_true, decide_eq_true_eq, Status.name_inj]
      rintro ⟨⟨⟨⟩, -⟩, -⟩
    rw [(t.claim_statement i now).2, Keyed.get?_update, hr, Option.map_some, statementChange,
      if_neg hwaits, ite_self]
  complete {t} receipt d now hr := by
    -- even the end of its attempt would be one attempt too many
    have hbroken : (r.settle d now.millis).rule? = some .ceiling := by
      rw [Row.rule?_settle (t.kept r (Keyed.get?_eq_some_iff.mp hr).1), if_neg (by omega)]
    have hkept : ¬ (isUnderway receipt r ∧ (r.settle d now.millis).rule? = none) := by
      rw [hbroken]
      rintro ⟨-, ⟨⟩⟩
    rw [(t.complete_statement receipt d now).2, Keyed.get?_update, hr, Option.map_some,
      statementChange, if_neg hkept, ite_self]
  recoverStale {t} staleBefore now hr := by
    by_cases hfree : ∀ r ∈ t.stale staleBefore, r.attempts < r.maxAttempts
    · obtain ⟨t', hrows, hdone⟩ := recoverStale_granted now hfree
      have hfresh : ¬ isStale staleBefore.millis r := fun hstale => by
        have hlt := hfree r (List.mem_filter.mpr ⟨(Keyed.get?_eq_some_iff.mp hr).1, hstale⟩)
        omega
      rw [hdone]
      show t'.rows.get? k = some r
      rw [hrows, Keyed.get?_update, hr, Option.map_some, if_neg hfresh]
    · rw [recoverStale_refused hfree]
      exact hr
  purgeSucceeded {t} olderThan hr := by
    have hpurgeable : isPurgeable olderThan.millis r = false := by
      rw [isPurgeable, running]
      rfl
    show (t.delete (isPurgeable olderThan.millis)).rows.get? k = some r
    rw [delete, Keyed.get?_filter, hr, Option.filter_some, hpurgeable]
    rfl

/-- **One row that is used up stops recoveries for good:** after any calls, they are refused as
soon as they come across it. -/
theorem recoveries_stay_refused {r : Row} (hr : r ∈ t.stale staleBefore)
    (hused : r.maxAttempts ≤ r.attempts) (calls : List StoreCall) {later : Instant}
    (hlater : staleBefore.millis ≤ later.millis) (now : Instant) :
    JobStore.recoverStale later now (current t (replay t calls)) =
      (refused (.check .ceiling), current t (replay t calls)) := by
  obtain ⟨hmem, running, hupdated⟩ := mem_stale.mp hr
  have hget := (isKept_usedUp running hused).calls calls (fun _ _ => trivial) (Keyed.get?_key hmem)
  refine recoverStale_refused fun hfree => ?_
  have hlt := hfree r (mem_stale.mpr ⟨(Keyed.get?_eq_some_iff.mp hget).1, running, by omega⟩)
  omega

end Table

/-- **Callers that decide by the rule of decisions are safe:** after their calls, a recovery can
only fail for payloads that cannot be read. -/
theorem History.recovers {past : List (Exchange Table)} (h : History Table.empty past)
    {staleBefore : Instant} (now : Instant)
    (hlegible : ∀ r ∈ (current Table.empty past).stale staleBefore,
      ∃ p, Row.readPayload r.payload = .ok p) :
    (current Table.empty past).Recovers staleBefore now := by
  obtain ⟨m, hm⟩ := h.tracks
  have hholds : (current Table.empty past).Holds m := hm.keeps
  have hjobs : ∀ r ∈ (current Table.empty past).stale staleBefore,
      ∃ j ∈ m.jobs.toList, Row.ofJob j = r ∧ j.status = .running := by
    intro r hr
    obtain ⟨hmem, running, -⟩ := Table.mem_stale.mp hr
    rw [hholds.rows] at hmem
    obtain ⟨j, hj, rfl⟩ := List.mem_map.mp hmem
    exact ⟨j, hj, rfl, Status.name_inj.mp running⟩
  have hfree : ∀ r ∈ (current Table.empty past).stale staleBefore, r.attempts < r.maxAttempts := by
    intro r hr
    obtain ⟨j, hj, rfl, running⟩ := hjobs r hr
    exact ((hm.sound j hj).open_ (.inr running)).1
  have hwritten : ∀ r ∈ (current Table.empty past).stale staleBefore, Table.IsWritten r := by
    intro r hr
    obtain ⟨j, hj, rfl, -⟩ := hjobs r hr
    exact Table.isWritten_ofJob (hholds.whole j hj)
  exact ⟨(Table.answers_iff hwritten).mpr fun r hr => ⟨hfree r hr, hlegible r hr⟩,
    Table.clears_iff.mpr hfree⟩

/-! ## All or none -/

/-- **A recovery takes back all stale attempts or none.** Here is a table after any calls from its
start on. A recovery succeeds exactly if the row of each stale attempt is not used up, and has a
payload that can be read. It clears all stale attempts exactly if no row of them is used up; else
the database refuses it, and everything stays as it is. -/
theorem recoveries_take_back_all_or_none (calls : List StoreCall) (staleBefore now : Instant) :
    let t := current Table.empty (replay .empty calls)
    (t.Recovers staleBefore now ↔ ∀ r ∈ t.stale staleBefore,
      r.attempts < r.maxAttempts ∧ ∃ p, Row.readPayload r.payload = .ok p) ∧
    ((JobStore.recoverStale staleBefore now t).2.stale staleBefore = [] ↔
      ∀ r ∈ t.stale staleBefore, r.attempts < r.maxAttempts) ∧
    (JobStore.recoverStale staleBefore now t = (Table.refused (.check .ceiling), t) ↔
      ∃ r ∈ t.stale staleBefore, r.attempts = r.maxAttempts) := by
  intro t
  have ht : ∀ r ∈ t.stale staleBefore, Table.IsWritten r := by
    intro r hr
    have hall : t.AllFiled fun _ => True := Table.allFiled fun _ _ => trivial
    obtain ⟨j, hj, -, rfl⟩ := hall r (Table.mem_stale.mp hr).1
    exact Table.isWritten_ofJob hj
  refine ⟨⟨fun h => (Table.answers_iff ht).mp h.answers, fun h => ⟨?_, ?_⟩⟩, Table.clears_iff,
    Table.refused_iff.trans ?_⟩
  · exact (Table.answers_iff ht).mpr h
  · exact Table.clears_iff.mpr fun r hr => (h r hr).1
  · simp only [not_forall, exists_prop]
    refine exists_congr fun r => and_congr_right fun hr => ?_
    -- no row has more attempts than it may have
    have hceiling := Row.ceiling_of_rule? (t.kept r (Table.mem_stale.mp hr).1)
    omega

/-! ## A job that stops the recovery of another -/

/-- Two jobs are queued and claimed. The only attempt of the first one is settled with a retry
nevertheless, and it is claimed again. -/
def usedUpCalls : List StoreCall :=
  [.claim ⟨1⟩ .epoch, .complete ⟨⟨1⟩, 0⟩ (.retry .epoch "") .epoch, .claim ⟨2⟩ .epoch,
    .claim ⟨1⟩ .epoch, .enqueue { NewJob.plain with id := ⟨2⟩ }, .enqueue .plain]

/-- A store after these calls. -/
def Ledger.usedUp (σ : Type) [Ledger σ] : σ := current start (replay start usedUpCalls)

/-- **One job stops the recovery of another:** the database refuses to take back the two attempts,
and both jobs go on running. The store in memory takes them back. -/
theorem one_job_stops_recovery :
    (JobStore.recoverStale .epoch .epoch (Ledger.usedUp Table) =
        (Table.refused (.check .ceiling), Ledger.usedUp Table) ∧
      ((Ledger.usedUp Table).stale .epoch).map (fun r => (r.attempts, r.maxAttempts)) =
        [(1, 1), (0, 1)] ∧
      ¬ (Ledger.usedUp Table).Recovers .epoch .epoch) ∧
    ((Ledger.usedUp Memory).jobs.toList.filter (Memory.isStale .epoch)).map Job.id = [⟨1⟩, ⟨2⟩] ∧
      (JobStore.recoverStale .epoch .epoch (Ledger.usedUp Memory)).2.jobs.toList.map Job.status =
        [.deadLetter, .deadLetter] := by
  have hstale : ((Ledger.usedUp Table).stale .epoch).map (fun r => (r.attempts, r.maxAttempts)) =
      [(1, 1), (0, 1)] := by decide +kernel
  have hused : ¬ ∀ r ∈ (Ledger.usedUp Table).stale .epoch, r.attempts < r.maxAttempts := by
    decide +kernel
  refine ⟨⟨Table.recoverStale_refused hused, hstale, fun h => hused (Table.clears_iff.mp h.clears)⟩,
    by decide +kernel, by decide +kernel⟩

end SyncJobs
