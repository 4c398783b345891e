import SyncJobs.Store.Memory

/-!
# The window of due jobs

The store in memory walks through the due jobs in dispatch order and counts what it takes
(`takeWindow`). The table gives each due job a place in its account and keeps the jobs whose place
is within the cap. Both come to the same (`takeWindow_eq`): on the way through, an account was
taken from as often as it occurred, up to the cap.

Dispatch order is a linear order on jobs with distinct ids, so that it does not matter in which
order the jobs were stored (`Job.mergeSort_filter`).
-/

namespace SyncJobs

namespace Job

/-! ## Dispatch order -/

/-- Dispatch order as a lexicographic order. -/
theorem precedes_iff {a b : Job} : a.precedes b ↔
    a.runAfter.nanos < b.runAfter.nanos ∨ a.runAfter.nanos = b.runAfter.nanos ∧
      (a.createdAt.nanos < b.createdAt.nanos ∨
        a.createdAt.nanos = b.createdAt.nanos ∧ a.id.rank ≤ b.id.rank) := by
  rw [precedes]
  by_cases hr : a.runAfter.nanos = b.runAfter.nanos
  · by_cases hc : a.createdAt.nanos = b.createdAt.nanos
    · simp [hr, hc]
    · simp [hr, hc]
  · simp [hr]

theorem precedes_refl (a : Job) : a.precedes a := by
  rw [precedes_iff]
  omega

theorem precedes_trans (a b c : Job) (hab : a.precedes b) (hbc : b.precedes c) : a.precedes c := by
  rw [precedes_iff] at *
  omega

theorem precedes_total (a b : Job) : a.precedes b || b.precedes a := by
  rw [Bool.or_eq_true, precedes_iff, precedes_iff]
  omega

/-- Of two jobs with distinct ids only one precedes the other. -/
theorem id_eq_of_precedes {a b : Job} (hab : a.precedes b) (hba : b.precedes a) : a.id = b.id := by
  rw [precedes_iff] at *
  exact Id.rank_injective (by omega)

/-- Jobs in dispatch order. -/
theorem pairwise_mergeSort (l : List Job) :
    (l.mergeSort precedes).Pairwise fun a b => a.precedes b :=
  List.pairwise_mergeSort precedes_trans precedes_total l

/-- **Sorting the jobs that pass a test** is keeping those of the sorted jobs that pass it. -/
theorem mergeSort_filter {l : List Job} (hl : (l.map Job.id).Nodup) (p : Job → Bool) :
    (l.filter p).mergeSort precedes = (l.mergeSort precedes).filter p := by
  refine List.Perm.eq_of_pairwise ?_ (pairwise_mergeSort _)
    ((pairwise_mergeSort l).sublist List.filter_sublist) ?_
  · intro a b ha hb hab hba
    have hal : a ∈ l := (List.mem_filter.mp (List.mem_mergeSort.mp ha)).1
    have hbl : b ∈ l := List.mem_mergeSort.mp (List.mem_filter.mp hb).1
    let jobs : Keyed Job.id := ⟨l, hl⟩
    exact Keyed.eq_of_key_eq (c := jobs) hal hbl (id_eq_of_precedes hab hba)
  · exact (List.mergeSort_perm _ _).trans ((List.mergeSort_perm l precedes).filter p).symm

/-! ## Places -/

/-- The place of a job among the jobs of its account, the first one having place one. -/
def placeIn (jobs : List Job) (j : Job) : Nat :=
  (jobs.filter fun k => k.account = j.account && k.precedes j).length

/-- Places do not depend on how jobs are listed. -/
theorem placeIn_perm {l l' : List Job} (h : l.Perm l') (j : Job) : placeIn l j = placeIn l' j :=
  (h.filter _).length_eq

theorem placeIn_le_length (l : List Job) (j : Job) : placeIn l j ≤ l.length :=
  List.length_filter_le _ _

/-- In dispatch order, the place of a job follows the jobs of its account before it. -/
theorem placeIn_append {before after : List Job} {j : Job}
    (hsorted : (before ++ j :: after).Pairwise fun a b => a.precedes b)
    (hids : ((before ++ j :: after).map Job.id).Nodup) :
    placeIn (before ++ j :: after) j = (before.map Job.account).count j.account + 1 := by
  obtain ⟨-, -, hbefore⟩ := List.pairwise_append.mp hsorted
  have hafter := (List.pairwise_cons.mp (List.pairwise_append.mp hsorted).2.1).1
  have hbefore' : before.filter (fun k => k.account = j.account && k.precedes j) =
      before.filter (fun k => k.account = j.account) := by
    refine List.filter_congr fun k hk => ?_
    rw [hbefore k hk j List.mem_cons_self, Bool.and_true]
  have hafter' : after.filter (fun k => k.account = j.account && k.precedes j) = [] := by
    refine List.filter_eq_nil_iff.mpr fun k hk hkj => ?_
    have hid := id_eq_of_precedes (hafter k hk) (Bool.and_eq_true_iff.mp hkj).2
    rw [List.map_append, List.map_cons, List.nodup_append, List.nodup_cons] at hids
    exact hids.2.1.1 (hid ▸ List.mem_map_of_mem hk)
  have hcount : (before.map Job.account).count j.account =
      (before.filter fun k => k.account = j.account).length := by
    rw [List.count_eq_countP, List.countP_map, List.countP_eq_length_filter]
    rfl
  simp only [placeIn, List.filter_append, List.filter_cons, hbefore', hafter', hcount,
    precedes_refl, decide_true, Bool.and_self, if_true, List.length_append, List.length_cons,
    List.length_nil]

end Job

/-! ## The window -/

/-- How many of `n` jobs of an account a cap lets through. -/
def capped (cap : Option Nat) (n : Nat) : Nat := cap.elim n fun c => min c n

variable {cap : Option Nat} {n : Nat}

/-- Whether the next job is let through, by its place and by what was let through. -/
theorem all_place_eq : (cap.all fun c => n + 1 ≤ c) = !(cap.any fun c => c ≤ capped cap n) := by
  cases cap with
  | none => rfl
  | some c =>
    simp only [capped, Option.all_some, Option.any_some, Option.elim_some]
    by_cases h : n + 1 ≤ c
    · simp [h, show ¬ c ≤ min c n by omega]
    · simp [h, show c ≤ min c n by omega]

theorem capped_succ_of_held (h : cap.any fun c => c ≤ capped cap n) :
    capped cap (n + 1) = capped cap n := by
  cases cap with
  | none => cases h
  | some c =>
    have hheld : c ≤ min c n := of_decide_eq_true h
    show min c (n + 1) = min c n
    omega

theorem capped_succ_of_passed (h : (cap.any fun c => c ≤ capped cap n) = false) :
    capped cap (n + 1) = capped cap n + 1 := by
  cases cap with
  | none => rfl
  | some c =>
    have hpassed : ¬ c ≤ min c n := of_decide_eq_false h
    show min c (n + 1) = min c n + 1
    omega

/-- **The window by places.** After the jobs `before` were passed, of which `taken` tells the
accounts that were taken, the rest of the window are the jobs within the cap. -/
theorem takeWindow_append {limit : Nat} {before l : List Job} {taken : List AccountId}
    (hsorted : (before ++ l).Pairwise fun a b => a.precedes b)
    (hids : ((before ++ l).map Job.id).Nodup)
    (htaken : ∀ a, taken.count a = capped cap ((before.map Job.account).count a)) :
    takeWindow limit cap taken l =
      (l.filter fun j => cap.all fun c => Job.placeIn (before ++ l) j ≤ c).take
        (limit - taken.length) := by
  induction l generalizing before taken with
  | nil => simp [takeWindow]
  | cons j l ih =>
    have happend : before ++ j :: l = (before ++ [j]) ++ l := by simp
    have hseen : ∀ a, ((before ++ [j]).map Job.account).count a =
        (before.map Job.account).count a + if j.account = a then 1 else 0 := by
      intro a
      rw [List.map_append, List.count_append, List.map_singleton, List.count_singleton]
      simp only [beq_iff_eq]
    rw [takeWindow, List.filter_cons, Job.placeIn_append hsorted hids, all_place_eq,
      ← htaken j.account]
    split
    · rename_i hfull
      rw [Nat.sub_eq_zero_of_le hfull, List.take_zero]
    rename_i hroom
    split
    -- the account is at its cap: the job is passed over, and nothing is counted
    · rename_i hheld
      have htaken' : ∀ a, taken.count a =
          capped cap (((before ++ [j]).map Job.account).count a) := by
        intro a
        rw [hseen a, htaken a]
        split
        · rename_i ha
          rw [htaken, ha] at hheld
          exact (capped_succ_of_held hheld).symm
        · rfl
      rw [ih (happend ▸ hsorted) (happend ▸ hids) htaken', ← happend, hheld]
      rfl
    -- the job is taken, and counts for its account
    · rename_i hpassed
      have hpassed := Bool.eq_false_iff.mpr hpassed
      have htaken' : ∀ a, (j.account :: taken).count a =
          capped cap (((before ++ [j]).map Job.account).count a) := by
        intro a
        rw [hseen a, List.count_cons, htaken a]
        simp only [beq_iff_eq]
        split
        · rename_i ha
          rw [htaken, ha] at hpassed
          exact (capped_succ_of_passed hpassed).symm
        · rfl
      have hleft : limit - taken.length = limit - (j.account :: taken).length + 1 := by
        rw [List.length_cons]
        omega
      rw [ih (happend ▸ hsorted) (happend ▸ hids) htaken', ← happend, hpassed, hleft]
      rfl

/-- **The window of sorted jobs** are the jobs within the cap by their places, sorted, up to the
limit. -/
theorem takeWindow_eq {jobs : List Job} (hids : (jobs.map Job.id).Nodup) (limit : Nat) :
    takeWindow limit cap [] (jobs.mergeSort Job.precedes) =
      ((jobs.filter fun j => cap.all fun c => Job.placeIn jobs j ≤ c).mergeSort
        Job.precedes).take limit := by
  have hperm := List.mergeSort_perm jobs Job.precedes
  have hids' : ((jobs.mergeSort Job.precedes).map Job.id).Nodup :=
    ((hperm.map Job.id).nodup_iff).mpr hids
  have hnone : ∀ a : AccountId, ([] : List AccountId).count a =
      capped cap ((([] : List Job).map Job.account).count a) := by
    intro a
    cases cap <;> simp [capped]
  have hwindow := @takeWindow_append cap limit [] (jobs.mergeSort Job.precedes) []
    (Job.pairwise_mergeSort jobs) hids' hnone
  rw [hwindow, Job.mergeSort_filter hids]
  simp only [List.nil_append, Job.placeIn_perm hperm, List.length_nil, Nat.sub_zero]

end SyncJobs
