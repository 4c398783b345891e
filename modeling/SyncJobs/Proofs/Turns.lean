import SyncJobs.Pool

/-!
# Taking turns loses nobody

Whatever the rule of fairness, the candidates are arranged only: `Fairness.arrange_perm`. Taking
turns deals the candidates out by account and takes the first of every account over and over; each
of these moves is a permutation.
-/

namespace SyncJobs

section Lists

variable {α κ : Type} [DecidableEq κ] {key : α → κ}

/-- An item is added to one of the groups. -/
theorem addToGroup_perm (a : α) (groups : List (κ × List α)) :
    ((addToGroup key a groups).map Prod.snd).flatten.Perm (a :: (groups.map Prod.snd).flatten) := by
  induction groups with
  | nil => exact .refl _
  | cons g groups ih =>
    obtain ⟨k, as⟩ := g
    rw [addToGroup]
    split
    · simp only [List.map_cons, List.flatten_cons, List.append_assoc, List.singleton_append]
      exact List.perm_middle
    · simp only [List.map_cons, List.flatten_cons]
      exact (ih.append_left as).trans List.perm_middle

/-- Grouping deals all items out. -/
theorem groupByKey_perm (l : List α) : (groupByKey key l).flatten.Perm l := by
  have hfold : ∀ groups : List (κ × List α),
      ((l.foldl (fun groups a => addToGroup key a groups) groups).map Prod.snd).flatten.Perm
        (l ++ (groups.map Prod.snd).flatten) := by
    induction l with
    | nil => exact fun groups => .refl _
    | cons a l ih =>
      intro groups
      rw [List.foldl_cons]
      exact (ih _).trans (((addToGroup_perm a groups).append_left l).trans List.perm_middle)
  have hl := hfold []
  rwa [List.map_nil, List.flatten_nil, List.append_nil] at hl

omit [DecidableEq κ] in
/-- Peeling takes the first items off. -/
theorem peel_perm (ls : List (List α)) : ((peel ls).1 ++ (peel ls).2.flatten).Perm ls.flatten := by
  induction ls with
  | nil => exact .refl _
  | cons l ls ih =>
    cases l with
    | nil => exact ih
    | cons a as =>
      simp only [peel, List.flatten_cons, List.cons_append]
      refine List.Perm.cons a ?_
      rw [← List.append_assoc]
      refine (List.perm_append_comm.append_right _).trans ?_
      rw [List.append_assoc]
      exact ih.append_left as

omit [DecidableEq κ] in
/-- One item is taken off each list that is left. -/
theorem length_peel_fst (ls : List (List α)) : (peel ls).1.length = (peel ls).2.length := by
  induction ls with
  | nil => rfl
  | cons l ls ih =>
    cases l with
    | nil => exact ih
    | cons a as => exact congrArg (· + 1) ih

omit [DecidableEq κ] in
/-- If there is nothing to peel, no list is left. -/
theorem peel_snd_eq_nil {ls : List (List α)} (h : (peel ls).1 = []) : (peel ls).2 = [] := by
  rw [← List.length_eq_zero_iff, ← length_peel_fst, h, List.length_nil]

omit [DecidableEq κ] in
theorem takeTurns_of_nil {ls : List (List α)} (h : (peel ls).1 = []) : takeTurns ls = [] := by
  rw [takeTurns, dif_pos h]

omit [DecidableEq κ] in
/-- One round, and the rounds after it. -/
theorem takeTurns_eq (ls : List (List α)) :
    takeTurns ls = (peel ls).1 ++ takeTurns (peel ls).2 := by
  by_cases hnone : (peel ls).1 = []
  · rw [takeTurns_of_nil hnone, hnone, peel_snd_eq_nil hnone, takeTurns_of_nil rfl]
    rfl
  · rw [takeTurns, dif_neg hnone]

omit [DecidableEq κ] in
/-- Taking turns takes all items. -/
theorem takeTurns_perm (ls : List (List α)) : (takeTurns ls).Perm ls.flatten := by
  induction ls using takeTurns.induct with
  | case1 ls hnone =>
    rw [takeTurns_of_nil hnone]
    have hperm := peel_perm ls
    rw [hnone, peel_snd_eq_nil hnone] at hperm
    exact hperm
  | case2 ls hsome ih =>
    rw [takeTurns_eq]
    exact (ih.append_left _).trans (peel_perm ls)

end Lists

/-- **Accounts take turns, and nobody is lost.** -/
theorem interleave_perm (jobs : List Job) : (interleave jobs).Perm jobs :=
  (takeTurns_perm _).trans (groupByKey_perm jobs)

/-- **Candidates are arranged only.** -/
theorem Fairness.arrange_perm (f : Fairness) (jobs : List Job) : (f.arrange jobs).Perm jobs := by
  cases f with
  | takeTurns => exact interleave_perm jobs
  | oldestFirst => exact .refl _

/-! ## Grants -/

namespace Pool

/-- A permit is granted to a candidate, and it is the one that the candidate needs. -/
theorem mem_grant {p : Pool} {jobs : List Job} {g : Job × Permit} (h : g ∈ (p.grant jobs).1) :
    g.1 ∈ jobs ∧ g.2 = permitFor g.1 := by
  induction jobs generalizing p with
  | nil =>
    rw [grant] at h
    cases h
  | cons j jobs ih =>
    rw [grant] at h
    split at h
    · cases h
    · split at h
      · rcases List.mem_cons.mp h with rfl | h
        · exact ⟨List.mem_cons_self, rfl⟩
        · exact ⟨List.mem_cons_of_mem _ (ih h).1, (ih h).2⟩
      · exact ⟨List.mem_cons_of_mem _ (ih h).1, (ih h).2⟩

theorem mem_allocate {p : Pool} {jobs : List Job} {g : Job × Permit}
    (h : g ∈ (p.allocate jobs).1) : g.1 ∈ jobs ∧ g.2 = permitFor g.1 := by
  obtain ⟨hmem, hpermit⟩ := mem_grant h
  exact ⟨(p.fairness.arrange_perm jobs).subset hmem, hpermit⟩

/-- If the first candidate is admitted, a permit is granted. -/
theorem allocate_ne_nil {p : Pool} {jobs : List Job} (hjobs : jobs ≠ [])
    (havailable : p.available ≠ 0) (hadmits : ∀ permit, p.admits permit) :
    (p.allocate jobs).1 ≠ [] := by
  intro hnone
  cases harranged : p.fairness.arrange jobs with
  | nil =>
    have hperm := p.fairness.arrange_perm jobs
    rw [harranged] at hperm
    exact hjobs (List.Perm.eq_nil hperm.symm)
  | cons j js =>
    rw [allocate, harranged, grant, if_neg havailable, if_pos (hadmits _)] at hnone
    cases hnone

end Pool

end SyncJobs
