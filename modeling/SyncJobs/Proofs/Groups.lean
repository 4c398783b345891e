import Mathlib.Algebra.GroupWithZero.Nat
import Mathlib.Algebra.Order.BigOperators.Group.List
import Mathlib.Algebra.Order.Group.Nat
import Mathlib.Data.List.Induction
import Mathlib.Data.List.Nodup
import SyncJobs.Proofs.Turns

/-!
# Groups in the order in which they are first seen

Grouping items by a key gives one group for each key, in the order in which the keys are first seen
(`groupByKey_eq`). The groups then take turns. The first round takes the head of every group
(`takeTurns_groupByKey_firsts`), so the keys are first seen in the same order as before, and turns
keep the items of each key and their order (`filter_takeTurns_groupByKey`). Hence the items have the
same groups as before, and taking turns again changes nothing (`takeTurns_groupByKey_idem`).

The number of rounds is the size of the largest group: a round that pops every queue, the empty
ones too, comes to the same items (`cycles_eq`), and some are missing before (`length_cycles_lt`).
-/

namespace SyncJobs

/-! ## First seen, first listed -/

section Firsts

variable {κ : Type} [DecidableEq κ]

theorem eraseDups_concat (l : List κ) (a : κ) :
    (l ++ [a]).eraseDups = if a ∈ l then l.eraseDups else l.eraseDups ++ [a] := by
  rw [List.eraseDups_append]
  split
  · rename_i ha
    have hnone : [a].removeAll l = [] := by simp [List.removeAll, ha]
    rw [hnone]
    exact List.append_nil _
  · rename_i ha
    have hone : [a].removeAll l = [a] := by simp [List.removeAll, ha]
    rw [hone]
    rfl

theorem nodup_eraseDups (l : List κ) : l.eraseDups.Nodup := by
  induction l using List.reverseRecOn with
  | nil => exact List.nodup_nil
  | append_singleton l a ih =>
    rw [eraseDups_concat]
    split
    · exact ih
    · rename_i ha
      refine List.nodup_append.mpr ⟨ih, List.nodup_singleton a, fun b hb c hc hbc => ha ?_⟩
      rw [← List.mem_singleton.mp hc, ← hbc]
      exact List.mem_eraseDups.mp hb

theorem eraseDups_of_nodup {l : List κ} (h : l.Nodup) : l.eraseDups = l := by
  induction l using List.reverseRecOn with
  | nil => rfl
  | append_singleton l a ih =>
    obtain ⟨hl, -, hdisjoint⟩ := List.nodup_append.mp h
    have ha : a ∉ l := fun ha => hdisjoint a ha a (List.mem_singleton_self a) rfl
    rw [eraseDups_concat, if_neg ha, ih hl]

/-- What comes later does not count. -/
theorem eraseDups_append_of_subset {l l' : List κ} (h : l' ⊆ l) :
    (l ++ l').eraseDups = l.eraseDups := by
  have hnone : l'.removeAll l = [] := by
    refine List.filter_eq_nil_iff.mpr fun a ha => ?_
    simpa using h ha
  rw [List.eraseDups_append, hnone]
  exact List.append_nil _

/-- An item that is first seen later has a later place. -/
theorem pairwise_idxOf_eraseDups (l : List κ) :
    l.eraseDups.Pairwise fun a b => l.idxOf a < l.idxOf b := by
  induction l using List.reverseRecOn with
  | nil => exact List.Pairwise.nil
  | append_singleton l a ih =>
    have hold : ∀ b ∈ l.eraseDups, (l ++ [a]).idxOf b = l.idxOf b := fun b hb =>
      List.idxOf_append_of_mem (List.mem_eraseDups.mp hb)
    have hpairs : l.eraseDups.Pairwise fun b c => (l ++ [a]).idxOf b < (l ++ [a]).idxOf c :=
      ih.imp_of_mem fun hb hc hbc => by rwa [hold _ hb, hold _ hc]
    rw [eraseDups_concat]
    split
    · exact hpairs
    · rename_i ha
      refine List.pairwise_append.mpr ⟨hpairs, List.pairwise_singleton _ _, fun b hb c hc => ?_⟩
      rw [List.mem_singleton.mp hc, hold b hb, List.idxOf_append_of_notMem ha]
      have hlt := List.idxOf_lt_length_of_mem (List.mem_eraseDups.mp hb)
      omega

end Firsts

/-! ## Groups -/

section Groups

variable {α β κ : Type} [DecidableEq κ] {key : α → κ}

/-- An item joins the group of its key, or opens one. -/
theorem addToGroup_map (a : α) {ks : List κ} (hks : ks.Nodup) (f : κ → List α) :
    addToGroup key a (ks.map fun k => (k, f k)) =
      if key a ∈ ks then ks.map fun k => (k, if k = key a then f k ++ [a] else f k)
      else ks.map (fun k => (k, f k)) ++ [(key a, [a])] := by
  induction ks with
  | nil => rfl
  | cons k ks ih =>
    obtain ⟨hk, hks⟩ := List.nodup_cons.mp hks
    rw [List.map_cons, addToGroup]
    by_cases hka : k = key a
    · -- the other groups have other keys
      have hrest : ks.map (fun l => (l, if l = key a then f l ++ [a] else f l)) =
          ks.map fun l => (l, f l) := by
        refine List.map_congr_left fun l hl => ?_
        rw [if_neg fun hla => hk (by rw [hka, ← hla]; exact hl)]
      simp only [hka, if_true, List.mem_cons, true_or, List.map_cons]
      rw [← hka, ← hrest, hka]
    · rw [if_neg hka, ih hks]
      by_cases ha : key a ∈ ks
      · simp only [ha, if_true, List.mem_cons, or_true, List.map_cons, hka, if_false]
      · simp only [ha, if_false, List.mem_cons, Ne.symm hka, or_self, List.map_cons,
          List.cons_append]

/-- **The groups of items:** one for each key, in the order in which keys are first seen, with the
items of this key. -/
theorem groupByKey_eq (l : List α) :
    groupByKey key l = (l.map key).eraseDups.map fun k => l.filter fun a => key a = k := by
  have hgroups : l.foldl (fun groups a => addToGroup key a groups) [] =
      (l.map key).eraseDups.map fun k => (k, l.filter fun a => key a = k) := by
    induction l using List.reverseRecOn with
    | nil => rfl
    | append_singleton l a ih =>
      rw [List.foldl_append, ih, List.foldl_cons, List.foldl_nil,
        addToGroup_map a (nodup_eraseDups _), List.map_append, List.map_singleton, eraseDups_concat]
      simp only [List.mem_eraseDups, List.filter_append]
      split
      · refine List.map_congr_left fun k _ => ?_
        by_cases hk : k = key a
        · simp [hk]
        · simp [hk, Ne.symm hk]
      · rename_i ha
        have hnone : l.filter (fun b => key b = key a) = [] := by
          refine List.filter_eq_nil_iff.mpr fun b hb hba => ha ?_
          rw [← of_decide_eq_true hba]
          exact List.mem_map_of_mem hb
        rw [List.map_append, List.map_singleton]
        congr 1
        · refine List.map_congr_left fun k hk => ?_
          have hka : key a ≠ k := fun h => ha (List.mem_eraseDups.mp (h ▸ hk))
          simp [hka]
        · simp [hnone]
  rw [groupByKey, hgroups, List.map_map]
  rfl

/-- Groups of items that are brought into another form. -/
theorem groupByKey_map (g : β → α) (l : List β) :
    groupByKey key (l.map g) = (groupByKey (fun b => key (g b)) l).map (List.map g) := by
  rw [groupByKey_eq, groupByKey_eq, List.map_map, List.map_map]
  refine List.map_congr_left fun k _ => ?_
  rw [List.filter_map]
  rfl

theorem peel_map (g : β → α) (ls : List (List β)) :
    peel (ls.map (List.map g)) = ((peel ls).1.map g, (peel ls).2.map (List.map g)) := by
  induction ls with
  | nil => rfl
  | cons l ls ih =>
    cases l with
    | nil => exact ih
    | cons b bs =>
      simp only [List.map_cons, peel, ih]

/-- Turns do not depend on the form of the items. -/
theorem takeTurns_map (g : β → α) (ls : List (List β)) :
    takeTurns (ls.map (List.map g)) = (takeTurns ls).map g := by
  induction ls using takeTurns.induct with
  | case1 ls hnone =>
    have hnone' : (peel (ls.map (List.map g))).1 = [] := by rw [peel_map, hnone, List.map_nil]
    rw [takeTurns_of_nil hnone, takeTurns_of_nil hnone', List.map_nil]
  | case2 ls hsome ih =>
    rw [takeTurns_eq ls, takeTurns_eq (ls.map _), peel_map, List.map_append, ih]

/-! ### Turns keep the order under a key -/

/-- The lists hold no common key. -/
def Apart (key : α → κ) (ls : List (List α)) : Prop :=
  ls.Pairwise fun l l' => ∀ a ∈ l, ∀ b ∈ l', key a ≠ key b

theorem apart_groupByKey (l : List α) : Apart key (groupByKey key l) := by
  rw [groupByKey_eq]
  refine List.pairwise_map.mpr ((nodup_eraseDups _).imp fun {k k'} hne a ha b hb => ?_)
  rw [of_decide_eq_true (List.mem_filter.mp ha).2, of_decide_eq_true (List.mem_filter.mp hb).2]
  exact hne

theorem filter_flatten_groups (l : List α) {ks : List κ} (hks : ks.Nodup) (k : κ) :
    (ks.map fun k' => l.filter fun a => key a = k').flatten.filter (fun a => key a = k) =
      if k ∈ ks then l.filter fun a => key a = k else [] := by
  induction ks with
  | nil => rfl
  | cons k' ks ih =>
    obtain ⟨hk', hks⟩ := List.nodup_cons.mp hks
    rw [List.map_cons, List.flatten_cons, List.filter_append, ih hks, List.filter_filter]
    by_cases hk : k = k'
    · subst hk
      simp [hk']
    · have hnone : l.filter (fun a => decide (key a = k) && decide (key a = k')) = [] := by
        refine List.filter_eq_nil_iff.mpr fun a _ ha => hk ?_
        simp only [Bool.and_eq_true, decide_eq_true_eq] at ha
        rw [← ha.1, ha.2]
      simp [hnone, hk]

/-- Grouping keeps the items of a key and their order. -/
theorem filter_groupByKey (l : List α) (k : κ) :
    (groupByKey key l).flatten.filter (fun a => key a = k) = l.filter fun a => key a = k := by
  rw [groupByKey_eq, filter_flatten_groups l (nodup_eraseDups _)]
  split
  · rfl
  · rename_i hk
    refine (List.filter_eq_nil_iff.mpr fun a ha hak => hk ?_).symm
    rw [List.mem_eraseDups, ← of_decide_eq_true hak]
    exact List.mem_map_of_mem ha

omit [DecidableEq κ] in
/-- What is left after peeling was there before. -/
theorem exists_of_mem_peel_snd {ls : List (List α)} {l' : List α} (h : l' ∈ (peel ls).2) :
    ∃ l ∈ ls, l' ⊆ l := by
  induction ls with
  | nil => cases h
  | cons l ls ih =>
    have hrest : l' ∈ (peel ls).2 → ∃ m ∈ l :: ls, l' ⊆ m := fun h => by
      obtain ⟨m, hm, hsub⟩ := ih h
      exact ⟨m, List.mem_cons_of_mem _ hm, hsub⟩
    cases l with
    | nil => exact hrest h
    | cons a as =>
      rcases List.mem_cons.mp h with rfl | h
      · exact ⟨a :: l', List.mem_cons_self, List.subset_cons_self a l'⟩
      · exact hrest h

omit [DecidableEq κ] in
theorem Apart.peel {ls : List (List α)} (h : Apart key ls) : Apart key (peel ls).2 := by
  induction ls with
  | nil => exact List.Pairwise.nil
  | cons l ls ih =>
    obtain ⟨hl, hls⟩ := List.pairwise_cons.mp h
    cases l with
    | nil => exact ih hls
    | cons a as =>
      refine List.pairwise_cons.mpr ⟨fun l' hl' b hb c hc => ?_, ih hls⟩
      obtain ⟨m, hm, hsub⟩ := exists_of_mem_peel_snd hl'
      exact hl m hm b (List.mem_cons_of_mem _ hb) c (hsub hc)

/-- **Peeling keeps the order under a key,** if no two lists share one. -/
theorem Apart.filter_peel {ls : List (List α)} (h : Apart key ls) (k : κ) :
    ((SyncJobs.peel ls).1 ++ (SyncJobs.peel ls).2.flatten).filter (fun b => key b = k) =
      ls.flatten.filter fun b => key b = k := by
  induction ls with
  | nil => rfl
  | cons l ls ih =>
    obtain ⟨hl, hls⟩ := List.pairwise_cons.mp h
    have hrest := ih hls
    cases l with
    | nil => exact hrest
    | cons a as =>
      -- either the first list holds the key, and the others do not, or it does not
      by_cases hkey : ∃ b ∈ a :: as, key b = k
      · obtain ⟨b, hb, rfl⟩ := hkey
        have hnone : ls.flatten.filter (fun c => key c = key b) = [] := by
          refine List.filter_eq_nil_iff.mpr fun c hc => ?_
          obtain ⟨m, hm, hc⟩ := List.mem_flatten.mp hc
          rw [decide_eq_true_eq]
          exact Ne.symm (hl m hm b hb c hc)
        rw [hnone, List.filter_append, List.append_eq_nil_iff] at hrest
        simp only [SyncJobs.peel, List.flatten_cons, List.cons_append, List.filter_cons,
          List.filter_append, hrest.1, hrest.2, hnone, List.nil_append]
      · have hnone : ∀ b ∈ a :: as, ¬ key b = k := fun b hb hk => hkey ⟨b, hb, hk⟩
        have ha : ¬ key a = k := hnone a List.mem_cons_self
        have has : as.filter (fun b => key b = k) = [] := List.filter_eq_nil_iff.mpr fun b hb => by
          rw [decide_eq_true_eq]
          exact hnone b (List.mem_cons_of_mem _ hb)
        simp only [List.filter_append] at hrest
        simp only [SyncJobs.peel, List.flatten_cons, List.cons_append, List.filter_cons,
          List.filter_append, has, ha, decide_false, Bool.false_eq_true, if_false,
          List.nil_append, hrest]

/-- **Taking turns keeps the order under a key,** if no two lists share one. -/
theorem filter_takeTurns {ls : List (List α)} (h : Apart key ls) (k : κ) :
    (takeTurns ls).filter (fun b => key b = k) = ls.flatten.filter fun b => key b = k := by
  induction ls using takeTurns.induct with
  | case1 ls hnone =>
    rw [takeTurns_of_nil hnone, ← h.filter_peel k, hnone, peel_snd_eq_nil hnone]
    rfl
  | case2 ls hsome ih =>
    rw [takeTurns_eq, List.filter_append, ih h.peel, ← List.filter_append,
      h.filter_peel]

/-- **Taking turns keeps the items of a key** and their order. -/
theorem filter_takeTurns_groupByKey (l : List α) (k : κ) :
    (takeTurns (groupByKey key l)).filter (fun a => key a = k) = l.filter fun a => key a = k :=
  (filter_takeTurns (apart_groupByKey l) k).trans (filter_groupByKey l k)

theorem takeTurns_groupByKey_perm (l : List α) : (takeTurns (groupByKey key l)).Perm l :=
  (takeTurns_perm _).trans (groupByKey_perm l)

/-! ### Turns again -/

/-- Each group gives an item of its key. -/
theorem map_key_peel {l : List α} {ks : List κ} (h : ks ⊆ l.map key) :
    (peel (ks.map fun k => l.filter fun a => key a = k)).1.map key = ks := by
  induction ks with
  | nil => rfl
  | cons k ks ih =>
    obtain ⟨hk, hks⟩ := List.cons_subset.mp h
    obtain ⟨a, ha, hak⟩ := List.mem_map.mp hk
    have hmem : a ∈ l.filter fun a => key a = k := List.mem_filter.mpr ⟨ha, decide_eq_true hak⟩
    rw [List.map_cons]
    cases hgroup : l.filter fun a => key a = k with
    | nil =>
      rw [hgroup] at hmem
      cases hmem
    | cons b bs =>
      have hb : b ∈ l.filter fun a => key a = k := hgroup ▸ List.mem_cons_self
      rw [peel, List.map_cons, ih hks, of_decide_eq_true (List.mem_filter.mp hb).2]

variable (key) in
/-- **The first round** takes the first item of every key. -/
theorem takeTurns_groupByKey_firsts (l : List α) :
    ∃ firsts rest, takeTurns (groupByKey key l) = firsts ++ rest ∧
      firsts.map key = (l.map key).eraseDups := by
  refine ⟨_, _, takeTurns_eq _, ?_⟩
  rw [groupByKey_eq]
  exact map_key_peel fun k hk => List.mem_eraseDups.mp hk

/-- Keys are first seen in the same order after they took turns. -/
theorem eraseDups_takeTurns_groupByKey (l : List α) :
    ((takeTurns (groupByKey key l)).map key).eraseDups = (l.map key).eraseDups := by
  obtain ⟨firsts, rest, hout, hfirsts⟩ := takeTurns_groupByKey_firsts key l
  have hrest : rest.map key ⊆ firsts.map key := by
    intro k hk
    have hmem : k ∈ (takeTurns (groupByKey key l)).map key := by
      rw [hout, List.map_append]
      exact List.mem_append_right _ hk
    rw [hfirsts, List.mem_eraseDups]
    exact ((takeTurns_groupByKey_perm l).map key).subset hmem
  rw [hout, List.map_append, eraseDups_append_of_subset hrest, hfirsts]
  exact eraseDups_of_nodup (nodup_eraseDups _)

/-- **Taking turns twice** is taking turns. -/
theorem takeTurns_groupByKey_idem (l : List α) :
    takeTurns (groupByKey key (takeTurns (groupByKey key l))) = takeTurns (groupByKey key l) := by
  have hgroups : groupByKey key (takeTurns (groupByKey key l)) = groupByKey key l := by
    rw [groupByKey_eq, eraseDups_takeTurns_groupByKey, groupByKey_eq l]
    exact List.map_congr_left fun k _ => by rw [← groupByKey_eq, filter_takeTurns_groupByKey]
  rw [hgroups]

/-- **Items of different keys** stay as they are: one round takes them all. -/
theorem takeTurns_groupByKey_of_nodup {l : List α} (h : (l.map key).Nodup) :
    takeTurns (groupByKey key l) = l := by
  obtain ⟨firsts, rest, hout, hfirsts⟩ := takeTurns_groupByKey_firsts key l
  rw [eraseDups_of_nodup h] at hfirsts
  have hperm : (takeTurns (groupByKey key l)).Perm l := takeTurns_groupByKey_perm l
  have hrest : rest = [] := by
    have hall := hperm.length_eq
    have hsame := congrArg List.length hfirsts
    rw [hout, List.length_append] at hall
    rw [List.length_map, List.length_map] at hsame
    exact List.length_eq_zero_iff.mp (by omega)
  rw [hout, hrest, List.append_nil] at hperm ⊢
  -- both lists have the same keys, and keys stand by the place at which they are first seen
  have hplaces : (l.map key).Pairwise fun a b => (l.map key).idxOf a < (l.map key).idxOf b := by
    have hpairs := pairwise_idxOf_eraseDups (l.map key)
    rwa [eraseDups_of_nodup h] at hpairs
  have hplaces' : (firsts.map key).Pairwise fun a b =>
      (l.map key).idxOf a < (l.map key).idxOf b := by
    rw [hfirsts]
    exact hplaces
  exact hperm.eq_of_pairwise (fun a b _ _ hab hba => absurd hab (Nat.lt_asymm hba))
    (hplaces'.of_map key fun _ _ hab => hab) (hplaces.of_map key fun _ _ hab => hab)

end Groups

/-! ## How many rounds it takes -/

section Cycles

variable {α : Type}

/-- **Rounds over queues:** each round pops every queue. A queue that is empty gives nothing. -/
def cycles : Nat → List (List α) → List α
  | 0, _ => []
  | n + 1, queues => queues.filterMap List.head? ++ cycles n (queues.map List.tail)

theorem peel_fst (ls : List (List α)) : (peel ls).1 = ls.filterMap List.head? := by
  induction ls with
  | nil => rfl
  | cons l ls ih =>
    cases l with
    | nil => exact ih
    | cons a as => exact congrArg (a :: ·) ih

/-- Queues that ran empty need not be kept. -/
theorem peel_tails (ls : List (List α)) : peel (ls.map List.tail) = peel (peel ls).2 := by
  induction ls with
  | nil => rfl
  | cons l ls ih =>
    cases l with
    | nil => exact ih
    | cons a as =>
      cases as with
      | nil => exact ih
      | cons b bs => simp only [List.map_cons, List.tail_cons, peel, ih]

theorem takeTurns_eq_tails (ls : List (List α)) :
    takeTurns ls = ls.filterMap List.head? ++ takeTurns (ls.map List.tail) := by
  rw [takeTurns_eq, takeTurns_eq (peel ls).2, takeTurns_eq (ls.map List.tail), peel_tails, peel_fst]

/-- **As many rounds as the longest queue has items** are enough. -/
theorem cycles_eq {n : Nat} {queues : List (List α)} (h : ∀ l ∈ queues, l.length ≤ n) :
    cycles n queues = takeTurns queues := by
  induction n generalizing queues with
  | zero =>
    have hall : queues.flatten = [] := List.flatten_eq_nil_iff.mpr fun l hl =>
      List.length_eq_zero_iff.mp (Nat.le_zero.mp (h l hl))
    have hperm := takeTurns_perm queues
    rw [hall] at hperm
    rw [hperm.eq_nil]
    rfl
  | succ n ih =>
    rw [cycles, takeTurns_eq_tails, ih]
    intro l hl
    obtain ⟨queue, hqueue, rfl⟩ := List.mem_map.mp hl
    rw [List.length_tail]
    exact Nat.sub_le_of_le_add (h queue hqueue)

/-- Each queue was popped once in every round, as long as it had items. -/
theorem length_cycles (n : Nat) (queues : List (List α)) :
    (cycles n queues).length = (queues.map fun l => min n l.length).sum := by
  induction n generalizing queues with
  | zero => simp [cycles]
  | succ n ih =>
    rw [cycles, List.length_append, ih, List.map_map]
    induction queues with
    | nil => rfl
    | cons l ls ih =>
      cases l with
      | nil => simpa [List.filterMap_cons] using ih
      | cons a as =>
        simp only [List.filterMap_cons, List.head?_cons, List.length_cons, List.map_cons,
          Function.comp_apply, List.tail_cons, List.sum_cons] at ih ⊢
        omega

/-- **Items are missing** as long as there were fewer rounds than a queue has items. -/
theorem length_cycles_lt (n : Nat) (queues : List (List α)) :
    (cycles n queues).length < queues.flatten.length ↔ ∃ l ∈ queues, n < l.length := by
  rw [length_cycles, List.length_flatten]
  induction queues with
  | nil => simp
  | cons l ls ih =>
    have hle : (ls.map fun l => min n l.length).sum ≤ (ls.map List.length).sum :=
      List.sum_le_sum fun l _ => Nat.min_le_right _ _
    simp only [List.map_cons, List.sum_cons, List.exists_mem_cons_iff]
    rw [← ih]
    omega

end Cycles

end SyncJobs
