import SyncJobs.Proofs.Fencing
import SyncJobs.Proofs.Shelf

/-!
# Due jobs are listed in line

`Line` says what the answer to a question for due jobs owes to their order. It holds jobs that are
stored and due, in dispatch order, and with a job all due jobs of its account that precede it:
both the cap and the limit cut off the end of the line.

The store in memory answers so in any state (`Memory.line_dueJobs`). The table compares texts, so
it does if its ids are spelled as ids are written (`Table.SpellsIds`); nothing else is asked of its
rows, which may even be unreadable (`Table.line_dueJobs`).
-/

namespace SyncJobs

section Lists

variable {α : Type} {R : α → α → Prop}

/-- What stands before an item is cut off later than the item. -/
theorem mem_take_of_rel {l : List α} {n : Nat} {a b : α} (hl : l.Pairwise R)
    (hanti : ∀ a ∈ l, ∀ b ∈ l, R a b → R b a → a = b) (hb : b ∈ l.take n) (ha : a ∈ l)
    (hab : R a b) : a ∈ l.take n := by
  rw [← List.take_append_drop n l, List.mem_append] at ha
  rcases ha with ha | ha
  · exact ha
  · rw [← List.take_append_drop n l, List.pairwise_append] at hl
    have hba := hl.2.2 b hb a ha
    rwa [hanti a (List.mem_of_mem_drop ha) b (List.mem_of_mem_take hb) hab hba]

end Lists

/-- **A list of due jobs that passes nobody over.** -/
structure Line {σ : Type} [JobStore σ] (s : σ) (now : Instant) (js : List Job) : Prop where
  /-- whatever is listed is stored and due -/
  stored : ∀ j ∈ js, JobStore.peek s j.id = .ok (some j) ∧ j.isDue now
  distinct : (js.map Job.id).Nodup
  sorted : js.Pairwise fun k j => k.precedes j
  /-- with a job, the due jobs of its account that precede it are listed -/
  closed : ∀ j ∈ js, ∀ k, JobStore.peek s k.id = .ok (some k) → k.isDue now →
    k.account = j.account → k.precedes j → k ∈ js

/-! ## The store in memory -/

/-- Who precedes a job of the same account has no later place. -/
theorem Job.placeIn_le_placeIn {jobs : List Job} {j k : Job} (haccount : k.account = j.account)
    (h : k.precedes j) : Job.placeIn jobs k ≤ Job.placeIn jobs j := by
  refine (List.monotone_filter_right _ fun l hl => ?_).length_le
  rw [Bool.and_eq_true, decide_eq_true_eq] at hl ⊢
  exact ⟨hl.1.trans haccount, Job.precedes_trans l k j hl.2 h⟩

/-- **The store in memory lists due jobs in line.** -/
theorem Memory.line_dueJobs (m : Memory) (now : Instant) (limit : Nat) (cap : Option Nat) :
    Line m now (m.dueJobs now limit cap) := by
  let due := m.jobs.toList.filter (·.isDue now)
  let ranked := due.filter fun j => cap.all fun c => Job.placeIn due j ≤ c
  have hids : (due.map Job.id).Nodup := m.jobs.nodup.sublist (List.filter_sublist.map _)
  have hwindow : m.dueJobs now limit cap = (ranked.mergeSort Job.precedes).take limit :=
    takeWindow_eq hids limit
  have hranked : ((ranked.mergeSort Job.precedes).map Job.id).Nodup :=
    (((List.mergeSort_perm _ _).map _).nodup_iff).mpr (hids.sublist (List.filter_sublist.map _))
  refine ⟨fun j hj => of_mem_dueJobs hj |>.imp_left (congrArg Except.ok), ?_, ?_, ?_⟩
  · rw [hwindow]
    exact hranked.sublist ((List.take_sublist _ _).map _)
  · rw [hwindow]
    exact (Job.pairwise_mergeSort ranked).sublist (List.take_sublist _ _)
  · intro j hj k hk hdue haccount hkj
    have hget : m.jobs.get? k.id = some k := Except.ok.inj hk
    have hkdue : k ∈ due := List.mem_filter.mpr ⟨(Keyed.get?_eq_some_iff.mp hget).1, hdue⟩
    rw [hwindow] at hj ⊢
    obtain ⟨-, hplace⟩ := List.mem_filter.mp (List.mem_mergeSort.mp (List.mem_of_mem_take hj))
    have hkranked : k ∈ ranked := by
      refine List.mem_filter.mpr ⟨hkdue, ?_⟩
      rw [Option.all_eq_true] at hplace ⊢
      intro c hc
      exact decide_eq_true (Nat.le_trans (Job.placeIn_le_placeIn haccount hkj)
        (of_decide_eq_true (hplace c hc)))
    refine mem_take_of_rel (Job.pairwise_mergeSort ranked) ?_ hj (List.mem_mergeSort.mpr hkranked)
      hkj
    intro a ha b hb hab hba
    let sorted : Keyed Job.id := ⟨_, hranked⟩
    exact Keyed.eq_of_key_eq (c := sorted) ha hb (Job.id_eq_of_precedes hab hba)

/-! ## Reading rows -/

namespace Row

/-- Dispatch order of rows as a lexicographic order. -/
theorem precedes_iff {a b : Row} : a.precedes b ↔
    a.runAfter < b.runAfter ∨ a.runAfter = b.runAfter ∧
      (a.createdAt < b.createdAt ∨ a.createdAt = b.createdAt ∧ a.id ≤ b.id) := by
  rw [precedes]
  by_cases hr : a.runAfter = b.runAfter
  · by_cases hc : a.createdAt = b.createdAt
    · simp [hr, hc]
    · simp [hr, hc]
  · simp [hr]

theorem precedes_trans (a b c : Row) (hab : a.precedes b) (hbc : b.precedes c) : a.precedes c := by
  rw [precedes_iff] at *
  rcases hab with hab | ⟨hab, hab'⟩
  · rcases hbc with hbc | ⟨hbc, -⟩ <;> exact .inl (by omega)
  rcases hbc with hbc | ⟨hbc, hbc'⟩
  · exact .inl (by omega)
  refine .inr ⟨hab.trans hbc, ?_⟩
  rcases hab' with hab' | ⟨hab', hid⟩
  · rcases hbc' with hbc' | ⟨hbc', -⟩ <;> exact .inl (by omega)
  rcases hbc' with hbc' | ⟨hbc', hid'⟩
  · exact .inl (by omega)
  · exact .inr ⟨hab'.trans hbc', String.le_trans hid hid'⟩

theorem precedes_total (a b : Row) : a.precedes b || b.precedes a := by
  rw [Bool.or_eq_true, precedes_iff, precedes_iff]
  rcases Int.lt_trichotomy a.runAfter b.runAfter with hr | hr | hr
  · exact .inl (.inl hr)
  · rcases Int.lt_trichotomy a.createdAt b.createdAt with hc | hc | hc
    · exact .inl (.inr ⟨hr, .inl hc⟩)
    · exact (String.le_total a.id b.id).imp (fun h => .inr ⟨hr, .inr ⟨hc, h⟩⟩)
        fun h => .inr ⟨hr.symm, .inr ⟨hc.symm, h⟩⟩
    · exact .inr (.inr ⟨hr.symm, .inl hc⟩)
  · exact .inr (.inl hr)

/-- Of two rows with distinct ids only one precedes the other. -/
theorem id_eq_of_precedes {a b : Row} (hab : a.precedes b) (hba : b.precedes a) : a.id = b.id := by
  rw [precedes_iff] at *
  rcases hab with hab | ⟨hr, hab | ⟨hc, hab⟩⟩
  · rcases hba with hba | ⟨hba, -⟩ <;> omega
  · rcases hba with hba | ⟨-, hba | ⟨hba, -⟩⟩ <;> omega
  · rcases hba with hba | ⟨-, hba | ⟨-, hba⟩⟩
    · omega
    · omega
    · exact String.le_antisymm hab hba

/-- The job of a row that can be read. -/
def job (r : Row) : Job := r.toJob?.toOption.getD default

theorem job_eq {r : Row} {j : Job} (h : r.toJob? = .ok j) : r.job = j := by
  rw [job, h]
  rfl

/-- A chain of readings yields something only if its first reading does. -/
theorem exists_of_bind_eq_ok {ε α β : Type} {x : Except ε α} {f : α → Except ε β} {b : β}
    (h : x >>= f = .ok b) : ∃ a, x = .ok a ∧ f a = .ok b := by
  cases x with
  | error e => cases h
  | ok a => exact ⟨a, rfl, h⟩

theorem ofName?_of_readName {α : Type} {row : String} {fault : String → RowFault}
    {ofName? : String → Option α} {text : String} {a : α}
    (h : readName row fault ofName? text = .ok a) : ofName? text = some a := by
  rw [readName] at h
  split at h
  · rename_i hname
    rw [hname, Except.ok.inj h]
  · cases h

/-- A time that is read is one of whole milliseconds. -/
theorem millis_of_readTime {row column : String} {ms : Int} {t : Instant}
    (h : readTime row column ms = .ok t) : ms = t.millis ∧ t.floor = t := by
  have hnanos : t.nanos = ms * 1000000 := by
    rw [readTime] at h
    split at h
    · rename_i hread
      rw [Except.ok.inj h] at hread
      rw [Instant.ofMillis?, Instant.ofNanos?] at hread
      split at hread
      · exact (congrArg Instant.nanos (Option.some.inj hread)).symm
      · cases hread
    · cases h
  have hmillis : ms = t.millis := by
    rw [Instant.millis, hnanos, Int.fdiv_eq_ediv_of_nonneg _ (by decide)]
    omega
  exact ⟨hmillis, Instant.ext (by rw [Instant.nanos_floor, ← hmillis, hnanos])⟩

/-- **What is read off a row:** times and status as they are written. -/
theorem of_toJob? {r : Row} {j : Job} (h : r.toJob? = .ok j) :
    j.IsWhole ∧ r.status = j.status.name ∧ r.runAfter = j.runAfter.millis ∧
      r.createdAt = j.createdAt.millis := by
  rw [toJob?] at h
  obtain ⟨id, -, h⟩ := exists_of_bind_eq_ok h
  obtain ⟨account, -, h⟩ := exists_of_bind_eq_ok h
  obtain ⟨domain, -, h⟩ := exists_of_bind_eq_ok h
  obtain ⟨status, hstatus, h⟩ := exists_of_bind_eq_ok h
  obtain ⟨payload, -, h⟩ := exists_of_bind_eq_ok h
  obtain ⟨attempts, -, h⟩ := exists_of_bind_eq_ok h
  obtain ⟨maxAttempts, -, h⟩ := exists_of_bind_eq_ok h
  obtain ⟨runAfter, hrun, h⟩ := exists_of_bind_eq_ok h
  obtain ⟨createdAt, hcreated, h⟩ := exists_of_bind_eq_ok h
  obtain ⟨updatedAt, hupdated, h⟩ := exists_of_bind_eq_ok h
  obtain rfl := Except.ok.inj h
  obtain ⟨hrun, hrun'⟩ := millis_of_readTime hrun
  obtain ⟨hcreated, hcreated'⟩ := millis_of_readTime hcreated
  obtain ⟨-, hupdated'⟩ := millis_of_readTime hupdated
  refine ⟨Job.isWhole_of hrun' hcreated' hupdated', ?_, hrun, hcreated⟩
  have hname := List.find?_some (ofName?_of_readName hstatus)
  exact (of_decide_eq_true hname).symm

end Row

/-- A whole time is not later than another one if it is not so by milliseconds. -/
theorem Instant.millis_le_iff {s t : Instant} (h : s.floor = s) : s.millis ≤ t.millis ↔ s ≤ t := by
  have hs : s.nanos = s.millis * 1000000 := (congrArg nanos h).symm
  rw [le_def, hs, millis, millis, Int.fdiv_eq_ediv_of_nonneg _ (by decide),
    Int.fdiv_eq_ediv_of_nonneg _ (by decide)]
  omega

namespace Table

variable {t : Table}

/-- **Ids are spelled as they are written:** a row that can be read holds the texts of the ids of
its job and its account. -/
def SpellsIds (t : Table) : Prop :=
  ∀ r ∈ t.rows.toList, ∀ j, r.toJob? = .ok j →
    r.id = j.id.storage ∧ r.account = j.account.storage

/-- What is read are the jobs of the rows. -/
theorem readAll_eq_map {rows : List Row} {js : List Job} (h : readAll rows = .ok js) :
    js = rows.map Row.job ∧ ∀ r ∈ rows, r.toJob? = .ok r.job := by
  have hread := readAll_eq_ok h
  clear h
  induction hread with
  | nil => exact ⟨rfl, nofun⟩
  | @cons r j rows js hr _ ih =>
    obtain ⟨rfl, hrows⟩ := ih
    have hjob : r.job = j := Row.job_eq hr
    refine ⟨by rw [List.map_cons, hjob], fun r' hr' => ?_⟩
    rcases List.mem_cons.mp hr' with rfl | hr'
    · rw [hjob, hr]
    · exact hrows r' hr'

/-- A row is due if its job is. -/
theorem isDue_of_toJob? {r : Row} {j : Job} (h : r.toJob? = .ok j) (now : Instant) :
    isDue now.millis r = j.isDue now := by
  obtain ⟨hwhole, hstatus, hrun, -⟩ := Row.of_toJob? h
  simp only [isDue, Job.isDue, hstatus, hrun, Status.name_inj,
    Instant.millis_le_iff hwhole.runAfter]

/-- Rows with well-spelled ids are ordered as their jobs. -/
theorem precedes_of_toJob? {r s : Row} {j k : Job} (hr : r.toJob? = .ok j) (hs : s.toJob? = .ok k)
    (hrid : r.id = j.id.storage) (hsid : s.id = k.id.storage) : s.precedes r = k.precedes j := by
  obtain ⟨hwhole, -, hrun, hcreated⟩ := Row.of_toJob? hr
  obtain ⟨hwhole', -, hrun', hcreated'⟩ := Row.of_toJob? hs
  rw [← Row.precedes_ofJob hwhole' hwhole, Bool.eq_iff_iff, Row.precedes_iff, Row.precedes_iff]
  simp only [Row.ofJob, hrun, hrun', hcreated, hcreated', hrid, hsid]

/-- Who precedes a row of the same account has no later place. -/
theorem rankIn_le_rankIn {rows : List Row} {r s : Row} (haccount : s.account = r.account)
    (h : s.precedes r) : rankIn rows s ≤ rankIn rows r := by
  refine (List.monotone_filter_right _ fun l hl => ?_).length_le
  rw [Bool.and_eq_true, decide_eq_true_eq] at hl ⊢
  exact ⟨hl.1.trans haccount, Row.precedes_trans l s r hl.2 h⟩

/-- The window of due rows is a beginning of a line of rows. -/
theorem mem_dueRows_of_precedes {now : Int} {limit : Nat} {cap : Option Nat} {r s : Row}
    (hr : r ∈ t.dueRows now limit cap) (hs : s ∈ t.rows.toList) (hdue : isDue now s)
    (haccount : s.account = r.account) (h : s.precedes r) : s ∈ t.dueRows now limit cap := by
  let due := t.rows.toList.filter (isDue now)
  let ranked := due.filter fun r => rankIn due r ≤ (cap.getD largest).min largest
  have hids : ((ranked.mergeSort Row.precedes).map Row.id).Nodup :=
    (((List.mergeSort_perm _ _).map _).nodup_iff).mpr (t.rows.nodup.sublist
      ((List.filter_sublist.trans List.filter_sublist).map _))
  obtain ⟨-, hplace⟩ := List.mem_filter.mp (List.mem_mergeSort.mp (List.mem_of_mem_take hr))
  have hranked : s ∈ ranked := by
    refine List.mem_filter.mpr ⟨List.mem_filter.mpr ⟨hs, hdue⟩, decide_eq_true ?_⟩
    exact Nat.le_trans (rankIn_le_rankIn haccount h) (of_decide_eq_true hplace)
  refine mem_take_of_rel (List.pairwise_mergeSort Row.precedes_trans Row.precedes_total ranked)
    ?_ hr (List.mem_mergeSort.mpr hranked) h
  intro a ha b hb hab hba
  let sorted : Keyed Row.id := ⟨_, hids⟩
  exact Keyed.eq_of_key_eq (c := sorted) ha hb (Row.id_eq_of_precedes hab hba)

theorem mem_rows_of_mem_dueRows {now : Int} {limit : Nat} {cap : Option Nat} {r : Row}
    (hr : r ∈ t.dueRows now limit cap) : r ∈ t.rows.toList ∧ isDue now r :=
  List.mem_filter.mp (List.mem_filter.mp (List.mem_mergeSort.mp (List.mem_of_mem_take hr))).1

/-- **The table lists due jobs in line,** if ids are spelled as they are written. -/
theorem line_dueJobs (ht : t.SpellsIds) {now : Instant} {limit : Nat} {cap : Option Nat}
    {js : List Job} (h : readAll (t.dueRows now.millis limit cap) = .ok js) : Line t now js := by
  obtain ⟨rfl, hread⟩ := readAll_eq_map h
  have hrow : ∀ r ∈ t.dueRows now.millis limit cap,
      r.id = r.job.id.storage ∧ r.account = r.job.account.storage := fun r hr =>
    ht r (mem_rows_of_mem_dueRows hr).1 r.job (hread r hr)
  refine ⟨fun j hj => ?_, ?_, ?_, fun j hj k hk hdue haccount hkj => ?_⟩
  · obtain ⟨r, hr, rfl⟩ := List.mem_map.mp hj
    obtain ⟨hmem, hdue⟩ := mem_rows_of_mem_dueRows hr
    have hget : t.rows.get? r.job.id.storage = some r :=
      Keyed.get?_eq_some_iff.mpr ⟨hmem, (hrow r hr).1⟩
    refine ⟨?_, isDue_of_toJob? (hread r hr) now ▸ hdue⟩
    show t.get r.job.id = .ok (some r.job)
    simp only [get, hget, hread r hr, Except.map]
  · have hids : ((t.dueRows now.millis limit cap).map Row.id).Nodup :=
      (((List.mergeSort_perm _ _).map _).nodup_iff.mpr (t.rows.nodup.sublist
        ((List.filter_sublist.trans List.filter_sublist).map _))).sublist
          ((List.take_sublist _ _).map _)
    have hsame : (t.dueRows now.millis limit cap).map Row.id =
        (((t.dueRows now.millis limit cap).map Row.job).map Job.id).map Id.storage := by
      rw [List.map_map, List.map_map]
      exact List.map_congr_left fun r hr => (hrow r hr).1
    rw [hsame] at hids
    exact List.Pairwise.of_map Id.storage (fun _ _ hne hid => hne (congrArg _ hid)) hids
  · have hsorted : (t.dueRows now.millis limit cap).Pairwise fun a b => a.precedes b :=
      (List.pairwise_mergeSort Row.precedes_trans Row.precedes_total _).sublist
        (List.take_sublist _ _)
    refine List.pairwise_map.mpr (hsorted.imp_of_mem fun {a b} ha hb hab => ?_)
    rwa [← precedes_of_toJob? (hread b hb) (hread a ha) (hrow b hb).1 (hrow a ha).1]
  · obtain ⟨r, hr, rfl⟩ := List.mem_map.mp hj
    have hk' : t.get k.id = .ok (some k) := hk
    rw [get] at hk'
    cases hs : t.rows.get? k.id.storage with
    | none =>
      rw [hs] at hk'
      cases hk'
    | some s =>
      obtain ⟨hmem, hid⟩ := Keyed.get?_eq_some_iff.mp hs
      have hjob : s.toJob? = .ok k := by
        simp only [hs] at hk'
        cases hsj : s.toJob? with
        | error e => rw [hsj] at hk'; cases hk'
        | ok k' =>
          rw [hsj] at hk'
          exact congrArg Except.ok (Option.some.inj (Except.ok.inj hk'))
      have hsmem : s ∈ t.dueRows now.millis limit cap := by
        refine mem_dueRows_of_precedes hr hmem (isDue_of_toJob? hjob now ▸ hdue) ?_ ?_
        · rw [(ht s hmem k hjob).2, (hrow r hr).2, haccount]
        · rwa [precedes_of_toJob? (hread r hr) hjob (hrow r hr).1 hid]
      exact List.mem_map.mpr ⟨s, hsmem, Row.job_eq hjob⟩

end Table

end SyncJobs
