import Mathlib.Data.List.Pairwise
import SyncJobs.Proofs.Groups

/-!
# Accounts take turns in rounds

Among candidates, each job has a *turn*: its round is the number of jobs of its account before it,
and its seat is the place at which its account is first seen. Taking turns is sorting by round and
seat (`interleave_eq_mergeSort`).

* Each account has a list of turns, with rounds that count up and one seat. The lists stand by seat:
  they are *dealt* (`Dealt`), and peeling them leaves lists that are dealt from the next round on.
* So the turns come out in order (`Dealt.pairwise_takeTurns`). No two turns have the same round and
  seat, thus there is one way to sort them.

Everything else is read off the turns: an account is never two rounds ahead of one that has jobs
left (`no_account_runs_ahead`).
-/

namespace SyncJobs

/-- **A turn** of a job among candidates. -/
structure Turn where
  /-- how many jobs of its account come before it -/
  round : Nat
  /-- the place at which its account is first seen -/
  seat : Nat
  job : Job

namespace Turn

/-- Strictly earlier: in an earlier round, or in the same round with an earlier seat. -/
def Before (s t : Turn) : Prop := s.round < t.round ∨ s.round = t.round ∧ s.seat < t.seat

/-- Turns come by round, and by seat within a round. -/
def precedes (s t : Turn) : Bool := s.round < t.round ∨ s.round = t.round ∧ s.seat ≤ t.seat

theorem Before.precedes {s t : Turn} (h : s.Before t) : s.precedes t :=
  decide_eq_true (h.imp_right fun ⟨hround, hseat⟩ => ⟨hround, hseat.le⟩)

theorem not_before_of_precedes {s t : Turn} (h : t.precedes s) : ¬ s.Before t := by
  have ht := of_decide_eq_true h
  intro hs
  rw [Before] at hs
  omega

theorem precedes_trans (s t u : Turn) (hst : s.precedes t) (htu : t.precedes u) :
    s.precedes u := by
  simp only [precedes, decide_eq_true_eq] at *
  omega

theorem precedes_total (s t : Turn) : s.precedes t || t.precedes s := by
  simp only [precedes, Bool.or_eq_true, decide_eq_true_eq]
  omega

end Turn

/-- **The turns** of the jobs, as the jobs stand. -/
def turns (jobs : List Job) : List Turn :=
  jobs.zipIdx.map fun (j, i) =>
    ⟨(jobs.take i).countP (·.account = j.account), (jobs.map Job.account).idxOf j.account, j⟩

/-- A job more has a turn behind those of its account, and changes no other turn. -/
theorem turns_concat (jobs : List Job) (j : Job) :
    turns (jobs ++ [j]) = turns jobs ++ [⟨jobs.countP (·.account = j.account),
      ((jobs ++ [j]).map Job.account).idxOf j.account, j⟩] := by
  rw [turns, List.zipIdx_append, List.map_append, turns]
  congr 1
  · refine List.map_congr_left fun (k, i) hk => ?_
    obtain ⟨-, hi, hki⟩ := List.mem_zipIdx hk
    have hmem : k.account ∈ jobs.map Job.account := by
      rw [hki]
      exact List.mem_map_of_mem (List.getElem_mem _)
    have htake : (jobs ++ [j]).take i = jobs.take i :=
      List.take_append_of_le_length (by omega)
    simp only [htake, List.map_append, List.idxOf_append_of_mem hmem]
  · simp

theorem map_job_turns (jobs : List Job) : (turns jobs).map Turn.job = jobs := by
  rw [turns, List.map_map]
  exact List.zipIdx_map_fst 0 jobs

theorem seat_eq {jobs : List Job} {t : Turn} (h : t ∈ turns jobs) :
    t.seat = (jobs.map Job.account).idxOf t.job.account := by
  obtain ⟨⟨j, i⟩, -, rfl⟩ := List.mem_map.mp h
  rfl

/-- **Rounds count up** along the turns of each account. -/
def Numbered (ts : List Turn) : Prop :=
  ∀ a : AccountId, (ts.filter (·.job.account = a)).map Turn.round =
    List.range (ts.filter (·.job.account = a)).length

theorem numbered_turns (jobs : List Job) : Numbered (turns jobs) := by
  intro a
  induction jobs using List.reverseRecOn with
  | nil => rfl
  | append_singleton jobs j ih =>
    rw [turns_concat, List.filter_append, List.map_append, ih, List.length_append]
    by_cases ha : j.account = a
    · have hcount : jobs.countP (·.account = a) =
          ((turns jobs).filter (·.job.account = a)).length := by
        rw [← List.countP_eq_length_filter]
        conv_lhs => rw [← map_job_turns jobs, List.countP_map]
        rfl
      simp [ha, hcount, List.range_succ]
    · simp [ha]

/-- In such a list, the round of a turn tells how many turns of its account stand before it. -/
theorem Numbered.round_eq {before after : List Turn} {t : Turn}
    (h : Numbered (before ++ t :: after)) :
    t.round = before.countP (·.job.account = t.job.account) := by
  have hrounds := congrArg
    (fun l => l[(before.filter (·.job.account = t.job.account)).length]?) (h t.job.account)
  simp only [List.filter_append, decide_true, List.filter_cons_of_pos, List.map_append,
    List.map_cons, List.length_append, List.length_cons] at hrounds
  rw [List.getElem?_append_right (by simp), List.length_map, Nat.sub_self,
    List.getElem?_cons_zero, List.getElem?_range (by omega)] at hrounds
  rw [List.countP_eq_length_filter]
  exact Option.some.inj hrounds

/-! ## Turns come out in order -/

/-- **Lists of turns that are dealt** from a round on: in each list, rounds count up from there, and
the seats of a list come before those of the next. -/
structure Dealt (r : Nat) (ls : List (List Turn)) : Prop where
  rounds : ∀ l ∈ ls, l.map Turn.round = List.range' r l.length
  seats : ls.Pairwise fun l l' => ∀ t ∈ l, ∀ t' ∈ l', t.seat < t'.seat

namespace Dealt

variable {r : Nat} {l : List Turn} {ls : List (List Turn)}

theorem tail (h : Dealt r (l :: ls)) : Dealt r ls :=
  ⟨fun m hm => h.rounds m (List.mem_cons_of_mem _ hm), (List.pairwise_cons.mp h.seats).2⟩

/-- **The peel** of dealt lists is the round, by seat. The rest is dealt from the next round on. -/
theorem peeled (h : Dealt r ls) : (∀ t ∈ (peel ls).1, t.round = r) ∧
    (peel ls).1.Pairwise (fun t t' => t.seat < t'.seat) ∧
    Dealt (r + 1) (peel ls).2 := by
  induction ls with
  | nil => exact ⟨List.forall_mem_nil _, List.Pairwise.nil, List.forall_mem_nil _, List.Pairwise.nil⟩
  | cons l ls ih =>
    obtain ⟨hround, hseats, hrest⟩ := ih h.tail
    cases l with
    | nil => exact ⟨hround, hseats, hrest⟩
    | cons t ts =>
      have hts := h.rounds (t :: ts) List.mem_cons_self
      rw [List.map_cons, List.length_cons, List.range'_succ, List.cons.injEq] at hts
      -- what was peeled and what is left stood in later lists, whose seats are later
      have hmem := (peel_perm ls).subset
      have hlater : ∀ u ∈ ls.flatten, ∀ s ∈ t :: ts, s.seat < u.seat := by
        intro u hu s hs
        obtain ⟨m, hm, hu⟩ := List.mem_flatten.mp hu
        exact (List.pairwise_cons.mp h.seats).1 m hm s hs u hu
      refine ⟨?_, ?_, ?_, ?_⟩
      · intro u hu
        rcases List.mem_cons.mp hu with rfl | hu
        · exact hts.1
        · exact hround u hu
      · refine List.pairwise_cons.mpr ⟨fun u hu => ?_, hseats⟩
        exact hlater u (hmem (List.mem_append_left _ hu)) t List.mem_cons_self
      · intro m hm
        rcases List.mem_cons.mp hm with rfl | hm
        · exact hts.2
        · exact hrest.rounds m hm
      · refine List.pairwise_cons.mpr ⟨fun m hm s hs u hu => ?_, hrest.seats⟩
        have hu : u ∈ (peel ls).2.flatten := List.mem_flatten.mpr ⟨m, hm, hu⟩
        exact hlater u (hmem (List.mem_append_right _ hu)) s (List.mem_cons_of_mem _ hs)

/-- **Dealt turns come out in order,** from this round on. -/
theorem pairwise_takeTurns (h : Dealt r ls) :
    (takeTurns ls).Pairwise Turn.Before ∧ ∀ t ∈ takeTurns ls, r ≤ t.round := by
  induction ls using takeTurns.induct generalizing r with
  | case1 ls hnone =>
    rw [takeTurns_of_nil hnone]
    exact ⟨List.Pairwise.nil, List.forall_mem_nil _⟩
  | case2 ls hsome ih =>
    obtain ⟨hround, hseats, hrest⟩ := h.peeled
    obtain ⟨hpairs, hlater⟩ := ih hrest
    rw [takeTurns_eq]
    refine ⟨List.pairwise_append.mpr ⟨?_, hpairs, fun s hs t ht => .inl ?_⟩, fun t ht => ?_⟩
    · refine hseats.imp_of_mem fun hs ht hst => .inr ⟨?_, hst⟩
      rw [hround _ hs, hround _ ht]
    · rw [hround s hs]
      exact hlater t ht
    · rcases List.mem_append.mp ht with ht | ht
      · rw [hround t ht]
      · exact (Nat.le_succ r).trans (hlater t ht)

end Dealt

/-- The turns by account. -/
theorem dealt_groups (jobs : List Job) :
    Dealt 0 (groupByKey (fun t : Turn => t.job.account) (turns jobs)) := by
  have haccounts : (turns jobs).map (fun t => t.job.account) = jobs.map Job.account := by
    conv_rhs => rw [← map_job_turns jobs, List.map_map]
    rfl
  rw [groupByKey_eq, haccounts]
  refine ⟨fun l hl => ?_, List.pairwise_map.mpr ?_⟩
  · obtain ⟨a, -, rfl⟩ := List.mem_map.mp hl
    rw [← List.range_eq_range']
    exact numbered_turns jobs a
  · refine (pairwise_idxOf_eraseDups _).imp fun {a b} hab s hs t ht => ?_
    obtain ⟨hs, hsa⟩ := List.mem_filter.mp hs
    obtain ⟨ht, htb⟩ := List.mem_filter.mp ht
    rw [seat_eq hs, seat_eq ht, of_decide_eq_true hsa, of_decide_eq_true htb]
    exact hab

/-- The turns in the order in which they are taken. -/
def turnsTaken (jobs : List Job) : List Turn :=
  takeTurns (groupByKey (fun t => t.job.account) (turns jobs))

theorem map_job_turnsTaken (jobs : List Job) :
    (turnsTaken jobs).map Turn.job = interleave jobs := by
  conv_rhs => rw [← map_job_turns jobs, interleave, groupByKey_map, takeTurns_map]
  rfl

theorem pairwise_turnsTaken (jobs : List Job) : (turnsTaken jobs).Pairwise Turn.Before :=
  (dealt_groups jobs).pairwise_takeTurns.1

theorem numbered_turnsTaken (jobs : List Job) : Numbered (turnsTaken jobs) := by
  intro a
  rw [turnsTaken, filter_takeTurns_groupByKey]
  exact numbered_turns jobs a

theorem turnsTaken_eq_mergeSort (jobs : List Job) :
    turnsTaken jobs = (turns jobs).mergeSort Turn.precedes := by
  have hperm : (turnsTaken jobs).Perm ((turns jobs).mergeSort Turn.precedes) :=
    (takeTurns_groupByKey_perm _).trans (List.mergeSort_perm _ _).symm
  have hsorted := List.pairwise_mergeSort Turn.precedes_trans Turn.precedes_total (turns jobs)
  have hpairs := pairwise_turnsTaken jobs
  -- two turns of the same round and seat are the same turn
  have hsymm : Std.Symm fun s t : Turn => s.Before t ∨ t.Before s := ⟨fun s t h => h.symm⟩
  have hapart : (turnsTaken jobs).Pairwise fun s t => s.Before t ∨ t.Before s := hpairs.imp .inl
  refine hperm.eq_of_pairwise (fun s t hs ht hst hts => ?_)
    (hpairs.imp fun h => h.precedes) hsorted
  by_contra hne
  rcases hapart.forall hs (hperm.symm.subset ht) hne with hbefore | hbefore
  · exact Turn.not_before_of_precedes hts hbefore
  · exact Turn.not_before_of_precedes hst hbefore

/-- **Taking turns is sorting** by round and seat. -/
theorem interleave_eq_mergeSort (jobs : List Job) :
    interleave jobs = ((turns jobs).mergeSort Turn.precedes).map Turn.job := by
  rw [← turnsTaken_eq_mergeSort, map_job_turnsTaken]

/-! ## No account runs ahead -/

/-- **No account runs ahead:** where a job stands, any other account had its turn as often as the
account of the job, unless it ran out of jobs. -/
theorem no_account_runs_ahead {jobs before after : List Job} {j : Job}
    (h : interleave jobs = before ++ j :: after) (a : AccountId) :
    min (before.countP (·.account = j.account)) (jobs.countP (·.account = a)) ≤
      before.countP (·.account = a) := by
  rw [← map_job_turnsTaken] at h
  obtain ⟨ts, us, hturns, rfl, hus⟩ := List.map_eq_append_iff.mp h
  obtain ⟨t, us, rfl, rfl, rfl⟩ := List.map_eq_cons_iff.mp hus
  have hnumbered := numbered_turnsTaken jobs
  have hpairs := pairwise_turnsTaken jobs
  rw [hturns] at hnumbered hpairs
  have hcount : jobs.countP (·.account = a) = (ts ++ t :: us).countP (·.job.account = a) := by
    rw [← hturns, ← (interleave_perm jobs).countP_eq, ← map_job_turnsTaken, List.countP_map]
    rfl
  rw [List.countP_map, List.countP_map, hcount, List.countP_append]
  by_contra hahead
  have ht : t.round = ts.countP (·.job.account = t.job.account) := hnumbered.round_eq
  -- the next turn of the account comes later, but its round is earlier
  have hleft : 0 < (t :: us).countP (·.job.account = a) := by
    simp only [Function.comp_def] at hahead
    omega
  rw [List.countP_eq_length_filter, List.length_pos_iff] at hleft
  obtain ⟨u, rest, hnext⟩ := List.exists_cons_of_ne_nil hleft
  obtain ⟨vs, ws, hsplit, hvs, hu, -⟩ := List.filter_eq_cons_iff.mp hnext
  have hua : u.job.account = a := of_decide_eq_true hu
  have hround : u.round = ts.countP (·.job.account = a) := by
    rw [hsplit, ← List.append_assoc] at hnumbered
    rw [hnumbered.round_eq, hua, List.countP_append, List.countP_eq_zero.mpr hvs, Nat.add_zero]
  have hle : t.round ≤ u.round := by
    have hmem : u ∈ t :: us := by
      rw [hsplit]
      exact List.mem_append_right _ List.mem_cons_self
    rcases List.mem_cons.mp hmem with rfl | hmem
    · exact le_rfl
    · have hlater := (List.pairwise_append.mp hpairs).2.1
      rcases (List.pairwise_cons.mp hlater).1 u hmem with hround | ⟨hround, -⟩
      · exact hround.le
      · exact hround.le
  rw [hround, ht] at hle
  simp only [Function.comp_def] at hahead
  omega

/-! ## Rounds as a whole -/

/-- **Jobs in rounds:** what becomes of the order of jobs when accounts take turns. -/
structure InRounds (jobs out : List Job) : Prop where
  /-- nobody is lost, and nobody comes twice -/
  perm : out.Perm jobs
  /-- the jobs come by round and by seat -/
  sorted : out = ((turns jobs).mergeSort Turn.precedes).map Turn.job
  inOrder : ∀ a : AccountId, out.filter (·.account = a) = jobs.filter (·.account = a)
  /-- a job waits until each other account had as many turns, or has no jobs left -/
  fair : ∀ before j after, out = before ++ j :: after → ∀ a : AccountId,
    min (before.countP (·.account = j.account)) (jobs.countP (·.account = a)) ≤
      before.countP (·.account = a)
  /-- jobs are missing until there were as many rounds as the largest account has jobs -/
  unfinished : ∀ n, (cycles n (groupByKey Job.account jobs)).length < jobs.length ↔
    ∃ a : AccountId, n < jobs.countP (·.account = a)
  /-- when no jobs are missing, the rounds end -/
  finished : ∀ n, jobs.length ≤ (cycles n (groupByKey Job.account jobs)).length →
    cycles n (groupByKey Job.account jobs) = out

theorem length_cycles_lt_length (n : Nat) (jobs : List Job) :
    (cycles n (groupByKey Job.account jobs)).length < jobs.length ↔
      ∃ l ∈ groupByKey Job.account jobs, n < l.length := by
  rw [← length_cycles_lt, (groupByKey_perm jobs).length_eq]

theorem exists_lt_backlog (n : Nat) (jobs : List Job) :
    (∃ l ∈ groupByKey Job.account jobs, n < l.length) ↔
      ∃ a : AccountId, n < jobs.countP (·.account = a) := by
  rw [groupByKey_eq]
  constructor
  · rintro ⟨l, hl, hn⟩
    obtain ⟨a, -, rfl⟩ := List.mem_map.mp hl
    exact ⟨a, List.countP_eq_length_filter ▸ hn⟩
  · rintro ⟨a, hn⟩
    obtain ⟨j, hj, hja⟩ := List.countP_pos_iff.mp (Nat.zero_lt_of_lt hn)
    have ha : a ∈ jobs.map Job.account :=
      List.mem_map.mpr ⟨j, hj, of_decide_eq_true hja⟩
    exact ⟨_, List.mem_map_of_mem (List.mem_eraseDups.mpr ha), List.countP_eq_length_filter ▸ hn⟩

theorem inRounds_interleave (jobs : List Job) : InRounds jobs (interleave jobs) where
  perm := interleave_perm jobs
  sorted := interleave_eq_mergeSort jobs
  inOrder := filter_takeTurns_groupByKey jobs
  fair _ _ _ h a := no_account_runs_ahead h a
  unfinished n := (length_cycles_lt_length n jobs).trans (exists_lt_backlog n jobs)
  finished n h := by
    refine cycles_eq fun l hl => Nat.le_of_not_lt fun hn => ?_
    exact Nat.not_lt.mpr h ((length_cycles_lt_length n jobs).mpr ⟨l, hl, hn⟩)

/-- **Accounts take turns in rounds.** Whatever the jobs, letting accounts take turns ends and sorts
them by round and by seat. To do it again changes nothing, and neither does it if all accounts are
different. -/
theorem accounts_take_turns_in_rounds (jobs : List Job) :
    InRounds jobs (interleave jobs) ∧
    interleave (interleave jobs) = interleave jobs ∧
    ((jobs.map Job.account).Nodup → interleave jobs = jobs) :=
  ⟨inRounds_interleave jobs, takeTurns_groupByKey_idem jobs, takeTurns_groupByKey_of_nodup⟩

/-- Jobs of three accounts, each of an account of its own. -/
def oneJobEach : List Job :=
  [{ (default : Job) with account := ⟨2⟩ }, { (default : Job) with account := ⟨0⟩ },
    { (default : Job) with account := ⟨1⟩ }]

/-- They stay as they are. -/
theorem one_job_each_stays_in_place :
    (oneJobEach.map Job.account).Nodup ∧ interleave oneJobEach = oneJobEach := by
  have hnodup : (oneJobEach.map Job.account).Nodup := by decide
  exact ⟨hnodup, (accounts_take_turns_in_rounds oneJobEach).2.2 hnodup⟩

end SyncJobs
