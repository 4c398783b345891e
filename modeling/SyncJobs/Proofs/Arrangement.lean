import SyncJobs.Proofs.Groups

/-!
# Arranging and granting keep the order

Taking turns changes the order of candidates of different accounts only
(`Fairness.filter_arrange`): each account has one group, and of each group the first item left is
taken. A pool then grants permits from left to right. As permits only go out meanwhile, a pair of
an account and a domain that was refused once stays refused, so that the candidates of a pair that
are granted permits are the first of them (`Pool.allocate_filter_prefix`). Nothing is assumed of
the pool: its counts may be any.
-/

namespace SyncJobs

/-- **Arranging keeps the order of each account.** -/
theorem Fairness.filter_arrange (f : Fairness) (jobs : List Job) (a : AccountId) :
    (f.arrange jobs).filter (fun j => j.account = a) = jobs.filter fun j => j.account = a := by
  cases f with
  | oldestFirst => rfl
  | takeTurns => exact filter_takeTurns_groupByKey jobs a

/-! ## Refusals last -/

namespace Tally

variable {κ : Type} [DecidableEq κ]

/-- Counting one key more changes its count and no other. -/
theorem count_increment (t : Tally κ) (k l : κ) :
    (t.increment k).count l = t.count l + if l = k then 1 else 0 := by
  obtain ⟨es⟩ := t
  simp only [count, increment]
  induction es with
  | nil =>
    by_cases hl : l = k
    · simp [alter, hl]
    · simp [alter, hl, List.lookup_cons, beq_false_of_ne]
  | cons e es ih =>
    obtain ⟨m, n⟩ := e
    rw [alter]
    by_cases hmk : m = k
    · subst hmk
      by_cases hl : l = m
      · simp [hl]
      · simp [List.lookup_cons, beq_false_of_ne hl, hl]
    · rw [if_neg hmk]
      by_cases hl : l = m
      · subst hl
        simp [hmk]
      · simpa [List.lookup_cons, beq_false_of_ne hl] using ih

end Tally

namespace Pool

/-- A permit is admitted if all four counts are below their limits. -/
theorem admits_iff {p : Pool} {x : Permit} : p.admits x ↔
    p.usage.total < p.limits.total ∧ p.usage.byDomain.count x.domain < p.limits.perDomain ∧
      p.usage.byAccount.count x.account < p.limits.perAccount ∧
      p.usage.byPair.count (x.account, x.domain) < p.limits.perAccountDomain := by
  simp only [admits, Usage.admits, Bool.and_eq_true, decide_eq_true_eq, and_assoc]

/-- Nothing is admitted when no permit is left in total. -/
theorem available_ne_zero {p : Pool} {x : Permit} (h : p.admits x) : p.available ≠ 0 := by
  have hroom := (admits_iff.mp h).1
  rw [available]
  omega

/-- What is admitted after more permits went out was admitted before. -/
theorem admits_of_acquire {p : Pool} {x y : Permit} (h : (p.acquire y).admits x) : p.admits x := by
  rw [admits_iff] at h ⊢
  simp only [acquire, Usage.acquire, Tally.count_increment] at h
  omega

/-- **A permit that is refused once is not granted later on.** -/
theorem permitFor_ne_of_mem_grant {p : Pool} {x : Permit} (hx : p.admits x = false)
    {jobs : List Job} {g : Job × Permit} (hg : g ∈ (p.grant jobs).1) : permitFor g.1 ≠ x := by
  induction jobs generalizing p with
  | nil => cases hg
  | cons j jobs ih =>
    rw [grant] at hg
    split at hg
    · cases hg
    · split at hg
      · rename_i hadmits
        rcases List.mem_cons.mp hg with rfl | hg
        · rintro rfl
          rw [hx] at hadmits
          cases hadmits
        · exact ih (Bool.eq_false_iff.mpr fun h => Bool.eq_false_iff.mp hx (admits_of_acquire h)) hg
      · exact ih hx hg

/-- Permits are granted to some of the candidates, in their order. -/
theorem grant_sublist (p : Pool) (jobs : List Job) :
    ((p.grant jobs).1.map Prod.fst).Sublist jobs := by
  induction jobs generalizing p with
  | nil => exact .slnil
  | cons j jobs ih =>
    rw [grant]
    split
    · exact List.nil_sublist _
    · split
      · exact (ih _).cons_cons j
      · exact (ih _).cons j

/-- **The first candidates of a pair get the permits.** -/
theorem grant_filter_prefix (p : Pool) (jobs : List Job) (x : Permit) :
    ((p.grant jobs).1.map Prod.fst).filter (fun j => permitFor j = x) <+:
      jobs.filter fun j => permitFor j = x := by
  induction jobs generalizing p with
  | nil => exact List.nil_prefix
  | cons j jobs ih =>
    rw [grant]
    split
    · exact List.nil_prefix
    · split
      · simp only [List.map_cons, List.filter_cons]
        split
        · exact List.prefix_cons_inj _ |>.mpr (ih _)
        · exact ih _
      · rename_i hrefused
        rw [List.filter_cons]
        split
        -- the pair was refused, so that nothing is granted to it any more
        · rename_i hj
          have hx : p.admits x = false := by
            rw [← of_decide_eq_true hj]
            exact Bool.eq_false_iff.mpr hrefused
          have hnone : ((p.grant jobs).1.map Prod.fst).filter (fun k => permitFor k = x) = [] := by
            refine List.filter_eq_nil_iff.mpr fun k hk => ?_
            obtain ⟨g, hg, rfl⟩ := List.mem_map.mp hk
            rw [decide_eq_true_eq]
            exact permitFor_ne_of_mem_grant hx hg
          rw [hnone]
          exact List.nil_prefix
        · exact ih p

/-- The first of a pair get the permits, whatever the rule of fairness. -/
theorem allocate_filter_prefix (p : Pool) (jobs : List Job) (x : Permit) :
    ((p.allocate jobs).1.map Prod.fst).filter (fun j => permitFor j = x) <+:
      jobs.filter fun j => permitFor j = x := by
  have hpair : ∀ l : List Job, l.filter (fun j => permitFor j = x) =
      (l.filter fun j => j.account = x.account).filter fun j => j.domain = x.domain := by
    intro l
    rw [List.filter_filter]
    refine List.filter_congr fun j _ => ?_
    obtain ⟨a, d⟩ := x
    simp [permitFor, Bool.and_comm]
  have hprefix := p.grant_filter_prefix (p.fairness.arrange jobs) x
  rwa [hpair (p.fairness.arrange jobs), p.fairness.filter_arrange, ← hpair] at hprefix

end Pool

end SyncJobs
