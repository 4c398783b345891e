import SyncJobs.Proofs.Apart
import SyncJobs.Proofs.Overtaking
import SyncJobs.Proofs.Ranks
import SyncJobs.Proofs.Refinement

/-!
# Handing out due jobs

A `Dispenser` is a store that lists its due jobs and hands them out one by one. Its laws speak of
nothing but what the store shows under an id (`JobStore.peek`):

* a list is in line (`Line`), no longer than its limit, and whoever is left out of it finds it full,
  or finds the cap filled by jobs of his account (`Dispenser.left_out`);
* a claim of a job that is shown hands it out if it is due, and leaves all other jobs alone.

The store in memory is a dispenser in any state. The table is one if its ids are spelled as they are
written and its rows can be counted (`Table.IsOrderly`); rows that cannot be read are allowed, and
can only make a look fail.
-/

namespace SyncJobs

/-! ## Dispensers -/

/-- **A store that hands its due jobs out one by one.** -/
class Dispenser (σ : Type) extends JobStore σ where
  /-- what the store makes of a time -/
  round : Instant → Instant
  /-- the states that the laws are about -/
  IsOrderly : σ → Prop
  /-- the states in which every job can be read -/
  IsLegible : σ → Prop
  /-- a look changes nothing -/
  dueJobs_same (now : Instant) (limit : Nat) (cap : Option Nat) (s : σ) :
    (JobStore.dueJobs now limit cap s).2 = s
  dueJobs_ok {s : σ} (now : Instant) (limit : Nat) (cap : Option Nat) : IsLegible s →
    ∃ js, (JobStore.dueJobs now limit cap s).1 = .ok js
  line_dueJobs {s : σ} {now : Instant} {limit : Nat} {cap : Option Nat} {js : List Job} :
    IsOrderly s → (JobStore.dueJobs now limit cap s).1 = .ok js → Line s now js
  length_dueJobs {s : σ} {now : Instant} {limit : Nat} {cap : Option Nat} {js : List Job} :
    (JobStore.dueJobs now limit cap s).1 = .ok js → js.length ≤ limit
  /-- who is left out finds the list full, or the cap filled by jobs of his account -/
  left_out {s : σ} {now : Instant} {limit : Nat} {cap : Option Nat} {js : List Job} {j : Job} :
    IsOrderly s → (JobStore.dueJobs now limit cap s).1 = .ok js →
    JobStore.peek s j.id = .ok (some j) → j.isDue now → j ∉ js →
    limit ≤ js.length ∨ ∃ c, cap = some c ∧ c ≤ js.countP fun k => k.account = j.account
  /-- a job that is due is started and handed out -/
  claim_due {s : σ} {i : JobId} {j : Job} {now : Instant} : IsOrderly s →
    JobStore.peek s i = .ok (some j) → j.isDue now →
    (JobStore.claim i now s).1 = .ok (some (j.start (round now))) ∧
      JobStore.peek (JobStore.claim i now s).2 i = .ok (some (j.start (round now))) ∧
      IsOrderly (JobStore.claim i now s).2
  /-- a job that is not due is left alone -/
  claim_not_due {s : σ} {i : JobId} {j : Job} {now : Instant} :
    JobStore.peek s i = .ok (some j) → ¬ j.isDue now → JobStore.claim i now s = (.ok none, s)
  /-- and so are all others -/
  claim_others {s : σ} {i k : JobId} (now : Instant) : i ≠ k →
    JobStore.peek (JobStore.claim i now s).2 k = JobStore.peek s k
  claim_legible {s : σ} (i : JobId) (now : Instant) : IsLegible s →
    IsLegible (JobStore.claim i now s).2
  /-- the jobs that wait are counted -/
  counts_pending {s : σ} : IsOrderly s → ∃ n, (JobStore.counts s).1 = .ok n ∧
    ∀ js : List Job, (js.map Job.id).Nodup →
      (∀ j ∈ js, JobStore.peek s j.id = .ok (some j) ∧ j.status = .pending) → js.length ≤ n.pending

/-- Counting statuses one by one. -/
theorem Counts.of_ofStatuses (l : List Status) (t : Status) :
    (Counts.ofStatuses l).of t = l.countP (· = t) := by
  have hcount : ∀ (l : List Status) (c : Counts),
      (l.foldl (fun c s => c.add 1 s) c).of t = c.of t + l.countP (· = t) := by
    intro l
    induction l with
    | nil => exact fun c => rfl
    | cons s l ih =>
      intro c
      rw [List.foldl_cons, ih, of_add, List.countP_cons]
      simp only [decide_eq_true_eq]
      omega
  refine (hcount l {}).trans ?_
  cases t <;> exact Nat.zero_add _

/-! ## The store in memory -/

namespace Memory

variable {m : Memory} {now : Instant} {limit : Nat} {cap : Option Nat} {j : Job}

theorem dueJobs_eq_take (m : Memory) (now : Instant) (limit : Nat) (cap : Option Nat) :
    m.dueJobs now limit cap =
      (((m.jobs.toList.filter (·.isDue now)).filter fun j => cap.all fun c =>
        Job.placeIn (m.jobs.toList.filter (·.isDue now)) j ≤ c).mergeSort Job.precedes).take limit :=
  takeWindow_eq (m.jobs.nodup.sublist (List.filter_sublist.map _)) limit

/-- The due jobs can be ranked. -/
theorem rankable_due (m : Memory) (now : Instant) :
    Rankable Job.precedes (m.jobs.toList.filter (·.isDue now)) where
  nodup := (m.jobs.nodup.of_map _).filter _
  trans := Job.precedes_trans
  total := Job.precedes_total
  anti _ ha _ hb hab hba := Keyed.eq_of_key_eq (List.mem_filter.mp ha).1 (List.mem_filter.mp hb).1
    (Job.id_eq_of_precedes hab hba)

theorem rankedPrefix_dueJobs (m : Memory) (now : Instant) (limit : Nat) (cap : Option Nat) :
    RankedPrefix Job.account Job.precedes limit cap (m.jobs.toList.filter (·.isDue now))
      (m.dueJobs now limit cap) := by
  rw [dueJobs_eq_take]
  exact (m.rankable_due now).rankedPrefix Job.account limit cap

theorem peek_eq_ok_iff {i : JobId} {found : Option Job} :
    JobStore.peek m i = .ok found ↔ m.jobs.get? i = found :=
  ⟨Except.ok.inj, congrArg Except.ok⟩

end Memory

/-- **The store in memory hands its due jobs out,** whatever state it is in. -/
instance : Dispenser Memory where
  round t := t
  IsOrderly _ := True
  IsLegible _ := True
  dueJobs_same := Custodian.dueJobs_same
  dueJobs_ok {m} now limit cap _ := ⟨m.dueJobs now limit cap, rfl⟩
  line_dueJobs {m now limit cap js} _ h := by
    obtain rfl : m.dueJobs now limit cap = js := Except.ok.inj h
    exact m.line_dueJobs now limit cap
  length_dueJobs {m now limit cap js} h := by
    obtain rfl : m.dueJobs now limit cap = js := Except.ok.inj h
    exact (m.rankedPrefix_dueJobs now limit cap).length_le
  left_out {m now limit cap js j} _ h hj hdue hout := by
    obtain rfl : m.dueJobs now limit cap = js := Except.ok.inj h
    have hj := (Keyed.get?_eq_some_iff.mp (Memory.peek_eq_ok_iff.mp hj)).1
    exact (m.rankedPrefix_dueJobs now limit cap).full_or_filled
      (List.mem_filter.mpr ⟨hj, hdue⟩) hout
  claim_due {m i j now} _ hj hdue := by
    have hget := Memory.peek_eq_ok_iff.mp hj
    show (Except.ok (m.claim i now).1 : Except StoreError (Option Job)) = _ ∧
      JobStore.peek (m.claim i now).2 i = _ ∧ _
    simp only [Memory.claim, hget, hdue, if_true, Memory.peek_eq_ok_iff, Memory.get?_modify,
      Option.map_some, and_self]
  claim_not_due {m i j now} hj hdue := by
    have hget := Memory.peek_eq_ok_iff.mp hj
    have hclaim : m.claim i now = (none, m) := by
      simp only [Memory.claim, hget, hdue, Bool.false_eq_true, if_false]
    show ((Except.ok (m.claim i now).1, (m.claim i now).2) : Except StoreError (Option Job) × _) = _
    rw [hclaim]
  claim_others {m i k} now hik := by
    refine congrArg Except.ok ?_
    have hview := (Memory.soloClaim i now).view_eq m
    exact (congrArg (·.get? k) hview).trans (Keyed.get?_update_of_ne _ hik _ _)
  claim_legible _ _ _ := trivial
  counts_pending {m} _ := by
    refine ⟨m.counts, rfl, fun js hids hjs => ?_⟩
    have hcount : m.counts.pending = (m.jobs.toList.filter fun j => j.status = .pending).length := by
      refine (Counts.of_ofStatuses (m.jobs.toList.map Job.status) .pending).trans ?_
      rw [List.countP_map, List.countP_eq_length_filter]
      rfl
    rw [hcount]
    refine (hids.of_map _).length_le_of_subset fun j hj => ?_
    obtain ⟨hget, pending⟩ := hjs j hj
    exact List.mem_filter.mpr ⟨(Keyed.get?_eq_some_iff.mp (Memory.peek_eq_ok_iff.mp hget)).1,
      decide_eq_true pending⟩

/-! ## The table -/

/-- No rule is broken exactly if all are kept. -/
theorem Row.rule?_eq_none_iff {r : Row} : r.rule? = none ↔ ∀ rule, r.keeps rule := by
  have hall : ∀ rule, rule ∈ rules := by
    intro rule
    cases rule <;> decide
  simp [rule?, hall]

namespace Table

variable {t : Table} {now : Instant} {limit : Nat} {cap : Option Nat} {j : Job}

/-- **A table in good order:** its ids are spelled as they are written, and its rows can be
counted. The database numbers the rows of a table by signed numbers of 64 bits, so there are never
more of them. -/
structure IsOrderly (t : Table) : Prop where
  spelled : t.SpellsIds
  fits : t.rows.toList.length ≤ largest

/-- Every row can be read. -/
def IsLegible (t : Table) : Prop := ∀ r ∈ t.rows.toList, ∃ j, r.Reads j

/-- Rows that can be read one by one can be read together. -/
theorem exists_readAll {rows : List Row} (h : ∀ r ∈ rows, ∃ j, r.Reads j) :
    ∃ js, readAll rows = .ok js := by
  induction rows with
  | nil => exact ⟨[], rfl⟩
  | cons r rows ih =>
    obtain ⟨j, hj⟩ := h r List.mem_cons_self
    obtain ⟨js, hjs⟩ := ih fun s hs => h s (List.mem_cons_of_mem r hs)
    refine ⟨j :: js, ?_⟩
    rw [readAll] at hjs ⊢
    rw [List.mapM_cons, Row.toJob?_eq_ok_iff.mpr hj, hjs]
    rfl

/-- With few rows enough, the largest number cuts nothing off. -/
theorem dueRows_eq_take (hfits : t.rows.toList.length ≤ largest) (now : Int) (limit : Nat)
    (cap : Option Nat) :
    t.dueRows now limit cap =
      (((t.rows.toList.filter (isDue now)).filter fun r => cap.all fun c =>
        rankIn (t.rows.toList.filter (isDue now)) r ≤ c).mergeSort Row.precedes).take limit := by
  have hdue : (t.rows.toList.filter (isDue now)).length ≤ largest :=
    (List.length_filter_le _ _).trans hfits
  have hcap : ∀ r, decide (rankIn (t.rows.toList.filter (isDue now)) r ≤
      (cap.getD largest).min largest) =
        cap.all fun c => rankIn (t.rows.toList.filter (isDue now)) r ≤ c := by
    intro r
    have hrank : rankIn (t.rows.toList.filter (isDue now)) r ≤ largest :=
      (List.length_filter_le _ _).trans hdue
    rw [Bool.eq_iff_iff, decide_eq_true_eq, Nat.le_min]
    cases cap with
    | none => simp [hrank]
    | some c => simp [hrank]
  have hsorted : ((List.filter (fun r => decide (rankIn (t.rows.toList.filter (isDue now)) r ≤
      (cap.getD largest).min largest)) (t.rows.toList.filter (isDue now))).mergeSort
        Row.precedes).length ≤ largest := by
    rw [(List.mergeSort_perm _ _).length_eq]
    exact (List.length_filter_le _ _).trans hdue
  refine (take_min_largest hsorted limit).trans ?_
  simp only [hcap]

/-- The due rows can be ranked. -/
theorem rankable_due (t : Table) (now : Int) :
    Rankable Row.precedes (t.rows.toList.filter (isDue now)) where
  nodup := (t.rows.nodup.of_map _).filter _
  trans := Row.precedes_trans
  total := Row.precedes_total
  anti _ ha _ hb hab hba := Keyed.eq_of_key_eq (List.mem_filter.mp ha).1 (List.mem_filter.mp hb).1
    (Row.id_eq_of_precedes hab hba)

theorem rankedPrefix_dueRows (hfits : t.rows.toList.length ≤ largest) (now : Int) (limit : Nat)
    (cap : Option Nat) :
    RankedPrefix Row.account Row.precedes limit cap (t.rows.toList.filter (isDue now))
      (t.dueRows now limit cap) := by
  rw [dueRows_eq_take hfits]
  exact (t.rankable_due now).rankedPrefix Row.account limit cap

/-- Who is left out finds the list full, or the cap filled. -/
theorem left_out (ht : t.IsOrderly) {js : List Job}
    (h : readAll (t.dueRows now.millis limit cap) = .ok js)
    (hj : JobStore.peek t j.id = .ok (some j)) (hdue : j.isDue now) (hout : j ∉ js) :
    limit ≤ js.length ∨ ∃ c, cap = some c ∧ c ≤ js.countP fun k => k.account = j.account := by
  obtain ⟨r, hr, hreads⟩ := peek_eq_ok_iff.mp hj
  have hread := Row.toJob?_eq_ok_iff.mpr hreads
  obtain ⟨hmem, -⟩ := Keyed.get?_eq_some_iff.mp hr
  obtain ⟨rfl, hrows⟩ := readAll_eq_map h
  have hrout : r ∉ t.dueRows now.millis limit cap := fun hin =>
    hout (List.mem_map.mpr ⟨r, hin, Row.job_eq hread⟩)
  have hcount : ((t.dueRows now.millis limit cap).map Row.job).countP
      (fun k => k.account = j.account) =
        (t.dueRows now.millis limit cap).countP fun s => s.account = r.account := by
    rw [List.countP_map]
    refine List.countP_congr fun s hs => ?_
    have hspelled := ht.spelled s (mem_rows_of_mem_dueRows hs).1 s.job (hrows s hs)
    rw [Function.comp, decide_eq_true_eq, decide_eq_true_eq, (ht.spelled r hmem j hread).2,
      hspelled.2, Id.storage_inj]
  rw [List.length_map, hcount]
  refine (rankedPrefix_dueRows ht.fits now.millis limit cap).full_or_filled
    (List.mem_filter.mpr ⟨hmem, ?_⟩) hrout
  exact isDue_of_toJob? hread now ▸ hdue

/-! ### Claims -/

/-- A row that keeps the rules keeps them when it is started. -/
theorem rule?_start {r : Row} (h : r.rule? = none) (now : Int) : (r.start now).rule? = none := by
  refine Row.rule?_eq_none_iff.mpr fun rule => ?_
  have hkept := Row.rule?_eq_none_iff.mp h rule
  cases rule with
  | status => exact List.any_eq_true.mpr ⟨_, Status.mem_all .running, decide_eq_true rfl⟩
  | domain | attempts | maxAttempts | ceiling => exact hkept

/-- What becomes of the row with an id when it is claimed. -/
theorem mem_rows_claim {i : JobId} {r' : Row} (h : r' ∈ (t.claim i now).2.rows.toList) :
    r' ∈ t.rows.toList ∨ ∃ r ∈ t.rows.toList, r.id = i.storage ∧ r' = r.start now.millis := by
  rw [(t.claim_statement i now).2, Keyed.toList_update, List.mem_map] at h
  obtain ⟨r, hr, rfl⟩ := h
  split
  · rename_i hid
    rw [statementChange]
    split
    · exact .inr ⟨r, hr, of_decide_eq_true hid, rfl⟩
    · exact .inl hr
  · exact .inl hr

theorem length_rows_claim (i : JobId) :
    (t.claim i now).2.rows.toList.length = t.rows.toList.length := by
  rw [(t.claim_statement i now).2, Keyed.toList_update, List.length_map]

/-- **A claim of a row that is due** starts it and hands it out. -/
theorem claim_due {i : JobId} (hj : JobStore.peek t i = .ok (some j)) (hdue : j.isDue now) :
    (t.claim i now).1 = .ok (some (j.start now.floor)) ∧
      JobStore.peek (t.claim i now).2 i = .ok (some (j.start now.floor)) := by
  obtain ⟨r, hr, hreads⟩ := peek_eq_ok_iff.mp hj
  have hdue : isDue now.millis r := isDue_of_toJob? (Row.toJob?_eq_ok_iff.mpr hreads) now ▸ hdue
  have hrule := rule?_start (t.kept r (Keyed.get?_eq_some_iff.mp hr).1) now.millis
  have hstarted := hreads.start now
  obtain ⟨hanswer, hrows⟩ := t.claim_statement i now
  constructor
  · rw [hanswer, hr, statementAnswer, Option.filter_some, if_pos hdue]
    simp only [hrule, Row.toJob?_eq_ok_iff.mpr hstarted, Except.map]
  · refine peek_eq_ok_iff.mpr ⟨r.start now.millis, ?_, hstarted⟩
    have hid : r.id = i.storage := (Keyed.get?_eq_some_iff.mp hr).2
    rw [hrows, Keyed.get?_update, hr, Option.map_some, if_pos (decide_eq_true hid), statementChange,
      if_pos ⟨hdue, hrule⟩]

/-- A claim of a row that is not due does nothing. -/
theorem claim_not_due {i : JobId} (hj : JobStore.peek t i = .ok (some j)) (hdue : ¬ j.isDue now) :
    t.claim i now = (.ok none, t) := by
  obtain ⟨r, hr, hreads⟩ := peek_eq_ok_iff.mp hj
  have hdue : ¬ isDue now.millis r :=
    isDue_of_toJob? (Row.toJob?_eq_ok_iff.mpr hreads) now ▸ hdue
  have hfind : t.rows.toList.find? (fun r => r.id = i.storage && isDue now.millis r) = none := by
    rw [Keyed.find?_key_and, hr, Option.filter_some, if_neg hdue]
  simp only [claim, hfind]

/-! ### Counts -/

/-- The status of a row that keeps the rules is the name of one. -/
theorem exists_status {r : Row} (h : r.rule? = none) : ∃ s : Status, s.name = r.status := by
  obtain ⟨s, -, hs⟩ := List.any_eq_true.mp (Row.rule?_eq_none_iff.mp h .status)
  exact ⟨s, of_decide_eq_true hs⟩

/-- The statuses of rows that keep the rules are counted. -/
theorem counts_eq (t : Table) : ∃ statuses : List Status,
    statuses.map Status.name = t.rows.toList.map Row.status ∧
      t.counts = .ok (Counts.ofStatuses statuses) := by
  have hread : ∀ rows : List Row, (∀ r ∈ rows, r.rule? = none) → ∃ statuses : List Status,
      statuses.map Status.name = rows.map Row.status ∧
        rows.mapM (fun r => Row.readName "<aggregate>" .status Status.ofName? r.status) =
          .ok statuses := by
    intro rows hrows
    induction rows with
    | nil => exact ⟨[], rfl, rfl⟩
    | cons r rows ih =>
      obtain ⟨s, hs⟩ := exists_status (hrows r List.mem_cons_self)
      obtain ⟨statuses, hnames, hread⟩ := ih fun r' hr' => hrows r' (List.mem_cons_of_mem r hr')
      refine ⟨s :: statuses, by rw [List.map_cons, List.map_cons, hs, hnames], ?_⟩
      rw [List.mapM_cons, hread, ← hs, Row.readName_status]
      rfl
  obtain ⟨statuses, hnames, hread⟩ := hread t.rows.toList t.kept
  exact ⟨statuses, hnames, by rw [counts, hread]; rfl⟩

end Table

/-- **The table hands its due jobs out** if it is in good order. -/
instance : Dispenser Table where
  round := Instant.floor
  IsOrderly := Table.IsOrderly
  IsLegible := Table.IsLegible
  dueJobs_same := Custodian.dueJobs_same
  dueJobs_ok {t} now limit cap ht :=
    Table.exists_readAll fun r hr => ht r (Table.mem_rows_of_mem_dueRows hr).1
  line_dueJobs ht h := Table.line_dueJobs ht.spelled h
  length_dueJobs {t now limit cap js} h := by
    obtain ⟨rfl, -⟩ := Table.readAll_eq_map h
    rw [List.length_map]
    exact (List.length_take_le _ _).trans (Nat.min_le_left _ _)
  left_out ht h hj hdue hout := Table.left_out ht h hj hdue hout
  claim_due {t i j now} ht hj hdue := by
    obtain ⟨hanswer, hshown⟩ := Table.claim_due hj hdue
    refine ⟨hanswer, hshown, ⟨fun r' hr' k hk => ?_, ?_⟩⟩
    · obtain hsame | ⟨r, hr, hid, rfl⟩ := Table.mem_rows_claim hr'
      · exact ht.spelled r' hsame k hk
      -- the row that was started could be read before
      · obtain ⟨r', hr', hreads⟩ := Table.peek_eq_ok_iff.mp hj
        obtain rfl := Option.some.inj (hr'.symm.trans (Keyed.get?_eq_some_iff.mpr ⟨hr, hid⟩))
        have hstarted := Row.toJob?_eq_ok_iff.mpr (hreads.start now)
        obtain rfl := Except.ok.inj (hk.symm.trans hstarted)
        exact ht.spelled r' hr j (Row.toJob?_eq_ok_iff.mpr hreads)
    · exact (Table.length_rows_claim i).trans_le ht.fits
  claim_not_due hj hdue := Table.claim_not_due hj hdue
  claim_others {t i k} now hik := by
    have hne : i.storage ≠ k.storage := fun h => hik (Id.storage_inj.mp h)
    have hrow : (t.claim i now).2.rows.get? k.storage = t.rows.get? k.storage := by
      rw [(t.claim_statement i now).2, Keyed.get?_update_of_ne _ hne]
    show (t.claim i now).2.get k = t.get k
    rw [Table.get, Table.get, hrow]
  claim_legible {t} i now ht := by
    intro r' hr'
    obtain hsame | ⟨r, hr, -, rfl⟩ := Table.mem_rows_claim hr'
    · exact ht r' hsame
    · obtain ⟨j, hj⟩ := ht r hr
      exact ⟨_, hj.start now⟩
  counts_pending {t} ht := by
    obtain ⟨statuses, hnames, hcounts⟩ := t.counts_eq
    refine ⟨_, hcounts, fun js hids hjs => ?_⟩
    have hpending : (Counts.ofStatuses statuses).pending =
        (t.rows.toList.filter fun r => r.status = Status.pending.name).length := by
      refine (Counts.of_ofStatuses statuses .pending).trans ?_
      have hcount := congrArg (List.countP fun name => name = Status.pending.name) hnames
      rw [List.countP_map, List.countP_map] at hcount
      simp only [Function.comp_def, Status.name_inj] at hcount
      rw [hcount, List.countP_eq_length_filter]
    have hrows : (js.map fun j => j.id.storage) ⊆
        (t.rows.toList.filter fun r => r.status = Status.pending.name).map Row.id := by
      intro id hid
      obtain ⟨j, hj, rfl⟩ := List.mem_map.mp hid
      obtain ⟨hshown, pending⟩ := hjs j hj
      obtain ⟨r, hr, hreads⟩ := Table.peek_eq_ok_iff.mp hshown
      obtain ⟨hmem, hrid⟩ := Keyed.get?_eq_some_iff.mp hr
      refine List.mem_map.mpr ⟨r, List.mem_filter.mpr ⟨hmem, ?_⟩, hrid⟩
      rw [decide_eq_true_eq, hreads.status_eq, pending]
    have hnodup : (js.map fun j => j.id.storage).Nodup := by
      have hmap := hids.map fun _ _ h => Id.storage_inj.mp h
      rwa [List.map_map] at hmap
    have hle := hnodup.length_le_of_subset hrows
    rwa [List.length_map, List.length_map, ← hpending] at hle

/-- A table that came about by calls is in good order. -/
theorem Table.isOrderly {past : List (Exchange Table)} (h : History Table.empty past)
    (hpast : past.length ≤ Table.largest) : (current Table.empty past).IsOrderly :=
  ⟨Table.spellsIds h, (length_rows_le h).trans hpast⟩

end SyncJobs
