import SyncJobs.Proofs.Arrangement
import SyncJobs.Proofs.Permits

/-!
# No permit is left idle

A plain pass over candidates (`Pool.sift`) tests each of them in turn against all four limits, and
counts it if it gets a permit. A pool stops its pass early, when no permit is left in total. Nobody
behind that point would be admitted, so both passes come to the same (`Pool.grant_eq_sift`).

Counts only grow in a pass, so what is admitted after it was admitted all along
(`Pool.admits_of_sift`). Whoever was refused on the way is therefore refused at the end as well: of
the permits that are left there is none that a candidate could use (`no_permit_is_left_idle`).
-/

namespace SyncJobs

/-- One permit more keeps the limits that admit it. -/
theorem Usage.Within.acquire {u : Usage} {l : Limits} {x : Permit} (h : u.Within l)
    (hx : u.admits l x) : (u.acquire x).Within l := by
  simp only [admits, Bool.and_eq_true, decide_eq_true_eq] at hx
  obtain ⟨⟨⟨htotal, hdomain⟩, haccount⟩, hpair⟩ := hx
  -- a count that grows is one of those that were tested
  have hkept : ∀ {κ : Type} [DecidableEq κ] {t : Tally κ} {k : κ} {bound : Nat},
      t.count k < bound → (∀ l, t.count l ≤ bound) → ∀ l, (t.increment k).count l ≤ bound := by
    intro κ _ t k bound hlt hle l
    rw [Tally.count_increment]
    split
    · rename_i hl
      rw [hl]
      exact hlt
    · exact hle l
  exact ⟨htotal, hkept hdomain h.byDomain, hkept haccount h.byAccount, hkept hpair h.byPair⟩

/-! ## The plain pass -/

/-- **What a plain pass over candidates comes to.** -/
structure Sifted where
  /-- the candidates that got a permit, in their order -/
  granted : List Job
  /-- the candidates that were refused, in their order -/
  refused : List Job
  /-- the pool afterwards -/
  pool : Pool

namespace Pool

/-- **A plain pass:** each candidate in turn is tested against all limits, and counted if it gets a
permit. -/
def sift (p : Pool) : List Job → Sifted
  | [] => ⟨[], [], p⟩
  | j :: js =>
    if p.admits (permitFor j) then
      let rest := sift (p.acquire (permitFor j)) js
      { rest with granted := j :: rest.granted }
    else
      let rest := sift p js
      { rest with refused := j :: rest.refused }

variable {p : Pool} {jobs : List Job}

/-- With no permit left in total, all are refused. -/
theorem sift_of_full (h : p.available = 0) : p.sift jobs = ⟨[], jobs, p⟩ := by
  induction jobs with
  | nil => rfl
  | cons j jobs ih =>
    have hrefused : ¬ p.admits (permitFor j) := fun hadmits => available_ne_zero hadmits h
    rw [sift, if_neg hrefused, ih]

/-- **Stopping early changes nothing.** -/
theorem grant_eq_sift (p : Pool) (jobs : List Job) :
    p.grant jobs =
      ((p.sift jobs).granted.map fun j => (j, permitFor j), (p.sift jobs).pool) := by
  induction jobs generalizing p with
  | nil => rfl
  | cons j jobs ih =>
    by_cases hfull : p.available = 0
    · rw [sift_of_full hfull, grant, if_pos hfull, List.map_nil]
    · rw [grant, if_neg hfull, sift]
      split
      · rw [ih]
        rfl
      · exact ih p

/-- Every candidate either gets a permit or is refused. -/
theorem sift_perm (p : Pool) (jobs : List Job) :
    ((p.sift jobs).granted ++ (p.sift jobs).refused).Perm jobs := by
  induction jobs generalizing p with
  | nil => exact .refl _
  | cons j jobs ih =>
    rw [sift]
    split
    · exact (ih _).cons j
    · exact List.perm_middle.trans ((ih p).cons j)

theorem limits_sift (p : Pool) (jobs : List Job) : (p.sift jobs).pool.limits = p.limits := by
  induction jobs generalizing p with
  | nil => rfl
  | cons j jobs ih =>
    rw [sift]
    split
    · exact ih (p.acquire (permitFor j))
    · exact ih p

/-- A pass keeps the limits. -/
theorem within_sift (h : p.usage.Within p.limits) (jobs : List Job) :
    (p.sift jobs).pool.usage.Within p.limits := by
  induction jobs generalizing p with
  | nil => exact h
  | cons j jobs ih =>
    rw [sift]
    split
    · rename_i hadmits
      exact ih (p := p.acquire (permitFor j)) (h.acquire hadmits)
    · exact ih h

/-- What is admitted after a pass was admitted before it. -/
theorem admits_of_sift {x : Permit} (h : (p.sift jobs).pool.admits x) : p.admits x := by
  induction jobs generalizing p with
  | nil => exact h
  | cons j jobs ih =>
    rw [sift] at h
    split at h
    · exact admits_of_acquire (ih h)
    · exact ih h

/-- **Who is refused on the way is refused at the end.** -/
theorem not_admits_of_mem_refused {j : Job} (h : j ∈ (p.sift jobs).refused) :
    ¬ (p.sift jobs).pool.admits (permitFor j) := by
  induction jobs generalizing p with
  | nil => cases h
  | cons k jobs ih =>
    rw [sift] at h ⊢
    split at h
    · rename_i hadmits
      rw [if_pos hadmits]
      exact ih h
    · rename_i hrefused
      rw [if_neg hrefused]
      rcases List.mem_cons.mp h with rfl | h
      · exact fun hadmits => hrefused (admits_of_sift hadmits)
      · exact ih h

/-- **The counts of a pool grow by those of some jobs.** -/
structure GrowsBy (p q : Pool) (jobs : List Job) : Prop where
  total : q.usage.total = p.usage.total + jobs.length
  byDomain : ∀ d, q.usage.byDomain.count d =
    p.usage.byDomain.count d + jobs.countP fun j => j.domain = d
  byAccount : ∀ a, q.usage.byAccount.count a =
    p.usage.byAccount.count a + jobs.countP fun j => j.account = a
  byPair : ∀ a d, q.usage.byPair.count (a, d) =
    p.usage.byPair.count (a, d) + jobs.countP fun j => j.account = a ∧ j.domain = d

/-- One job more is counted before all others. -/
theorem GrowsBy.cons {q : Pool} {j : Job} (h : (p.acquire (permitFor j)).GrowsBy q jobs) :
    p.GrowsBy q (j :: jobs) := by
  obtain ⟨htotal, hdomain, haccount, hpair⟩ := h
  simp only [acquire, Usage.acquire, Tally.count_increment, permitFor, Prod.mk.injEq] at *
  refine ⟨?_, fun d => ?_, fun a => ?_, fun a d => ?_⟩
  · rw [htotal, List.length_cons]
    omega
  · simp only [hdomain, List.countP_cons, decide_eq_true_eq, eq_comm (a := d)]
    omega
  · simp only [haccount, List.countP_cons, decide_eq_true_eq, eq_comm (a := a)]
    omega
  · simp only [hpair, List.countP_cons, decide_eq_true_eq, eq_comm (a := a), eq_comm (a := d)]
    omega

/-- A pass counts the jobs that it grants permits to, and nothing else. -/
theorem growsBy_sift (p : Pool) (jobs : List Job) :
    p.GrowsBy (p.sift jobs).pool (p.sift jobs).granted := by
  induction jobs generalizing p with
  | nil => exact ⟨rfl, fun _ => rfl, fun _ => rfl, fun _ _ => rfl⟩
  | cons j jobs ih =>
    rw [sift]
    split
    · exact (ih _).cons
    · exact ih p

/-! ## Allotments -/

/-- **Permits are allotted greedily** to candidates in order. -/
structure Allots (p : Pool) (ordered : List Job) (granted : List (Job × Permit)) (q : Pool) :
    Prop where
  /-- the plain pass grants the same permits, and comes to the same pool -/
  plain : granted = (p.sift ordered).granted.map (fun j => (j, permitFor j)) ∧
    q = (p.sift ordered).pool
  /-- permits go to some of the candidates, in their order -/
  inOrder : (granted.map Prod.fst).Sublist ordered
  /-- each candidate got a permit or was refused -/
  everybody : (granted.map Prod.fst ++ (p.sift ordered).refused).Perm ordered
  /-- what went out is counted -/
  grows : p.GrowsBy q (granted.map Prod.fst)
  limits : q.limits = p.limits
  within : q.usage.Within p.limits
  /-- whoever was refused is refused still -/
  maximal : ∀ j ∈ (p.sift ordered).refused, ¬ q.admits (permitFor j)

end Pool

/-- **Permits are granted greedily, and none is left idle.** Here is a pool within its limits, with
either rule of fairness, and any candidates. They are granted the permits that a plain pass grants
them in the order of the rule; the pool stays within its limits, and in the end it refuses all
candidates that were granted none. -/
theorem no_permit_is_left_idle {p : Pool} (h : p.usage.Within p.limits) (candidates : List Job) :
    p.Allots (p.fairness.arrange candidates) (p.allocate candidates).1
      (p.allocate candidates).2 := by
  have hsift := p.grant_eq_sift (p.fairness.arrange candidates)
  have hgranted : (p.allocate candidates).1.map Prod.fst =
      (p.sift (p.fairness.arrange candidates)).granted := by
    rw [Pool.allocate, hsift, List.map_map]
    exact List.map_id _
  have hpool : (p.allocate candidates).2 = (p.sift (p.fairness.arrange candidates)).pool :=
    congrArg Prod.snd hsift
  refine ⟨⟨congrArg Prod.fst hsift, hpool⟩, p.grant_sublist _, ?_, ?_, ?_, ?_, fun j hj => ?_⟩
  · rw [hgranted]
    exact p.sift_perm _
  · rw [hgranted, hpool]
    exact p.growsBy_sift _
  · rw [hpool]
    exact p.limits_sift _
  · rw [hpool]
    exact Pool.within_sift h _
  · rw [hpool]
    exact Pool.not_admits_of_mem_refused hj

/-- A pool with one permit left in total. -/
def tightPool : Pool := ({ limits := { total := 2 } } : Pool).acquire ⟨⟨0⟩, .email⟩

/-- Three candidates: the first needs the permit that is out, the last is of another account. -/
def threeCandidates : List Job :=
  [default, { (default : Job) with id := ⟨1⟩, domain := .calendar },
    { (default : Job) with id := ⟨2⟩, account := ⟨1⟩ }]

/-- The permit goes to the first candidate that is admitted when accounts take turns. -/
theorem the_last_permit_is_granted : tightPool.usage.Within tightPool.limits ∧
    tightPool.Allots (tightPool.fairness.arrange threeCandidates)
      (tightPool.allocate threeCandidates).1 (tightPool.allocate threeCandidates).2 ∧
    (tightPool.allocate threeCandidates).1.map (fun g => g.1.id) = [⟨2⟩] := by
  have hnone : ({} : Usage).Within tightPool.limits :=
    ⟨Nat.zero_le _, fun _ => Nat.zero_le _, fun _ => Nat.zero_le _, fun _ => Nat.zero_le _⟩
  have hwithin : tightPool.usage.Within tightPool.limits := hnone.acquire (by decide)
  exact ⟨hwithin, no_permit_is_left_idle hwithin threeCandidates, by decide +kernel⟩

end SyncJobs
