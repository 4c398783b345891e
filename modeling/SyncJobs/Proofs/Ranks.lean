import Mathlib.Algebra.Order.Group.Nat
import Mathlib.Data.List.Nodup
import Mathlib.Data.List.Perm.Basic

/-!
# Ranked prefixes

Items have accounts and an order. Each has a *rank* among the items of its account (`rankOf`). A
ranked prefix takes the items whose rank is within a cap, in order, up to a limit
(`RankedPrefix.exactly`). Whoever is left out finds it full:

* if his rank is within the cap, the prefix was full before him (`Rankable.cut_off`);
* if not, as many items of his account as the cap come before him and have a rank within the cap
  (`Rankable.cap_filled`). They are all taken, or the prefix was full before one of them.

Items that are not taken might as well not be there: without them, ranks are the same up to the cap,
as far as it matters (`RankedPrefix.filter`).
-/

namespace SyncJobs

section Ranks

variable {α β κ : Type} [DecidableEq κ] {account : α → κ} {le : α → α → Bool} {due out : List α}
  {limit : Nat} {cap : Option Nat}

/-- **A list that can be ranked:** no item stands in it twice, and the order is linear on it. -/
structure Rankable (le : α → α → Bool) (l : List α) : Prop where
  nodup : l.Nodup
  trans : ∀ a b c, le a b → le b c → le a c
  total : ∀ a b, le a b || le b a
  anti : ∀ a ∈ l, ∀ b ∈ l, le a b → le b a → a = b

/-- The rank of an item among the items of its account, the first one having rank one. -/
def rankOf (account : α → κ) (le : α → α → Bool) (due : List α) (a : α) : Nat :=
  (due.filter fun b => account b = account a && le b a).length

/-- Whether the rank of an item is within the cap, if there is one. -/
def isWithin (account : α → κ) (le : α → α → Bool) (cap : Option Nat) (due : List α) (a : α) :
    Bool :=
  cap.all fun c => rankOf account le due a ≤ c

/-- **A ranked prefix** of due items, and what it means for those that are left out. -/
structure RankedPrefix (account : α → κ) (le : α → α → Bool) (limit : Nat) (cap : Option Nat)
    (due out : List α) : Prop where
  /-- the items within the cap, in order, up to the limit -/
  exactly : out = ((due.filter (isWithin account le cap due)).mergeSort le).take limit
  /-- earlier items of its account fill the cap, or earlier items fill the list -/
  left_out : ∀ a ∈ due, a ∉ out →
    (∃ c, cap = some c ∧ c ≤ out.countP fun b => account b = account a && le b a) ∨
      limit ≤ out.countP fun b => le b a
  /-- an item within the cap makes way for earlier items within the cap only -/
  crowded_out : ∀ a ∈ due, isWithin account le cap due a → a ∉ out →
    limit ≤ out.countP fun b => le b a && isWithin account le cap due b

omit [DecidableEq κ] in
/-- What is cut off a list finds the list full. -/
theorem le_length_take_of_not_mem {l : List α} {n : Nat} {a : α} (ha : a ∈ l) (hout : a ∉ l.take n) :
    n ≤ (l.take n).length := by
  by_contra hshort
  rw [List.length_take] at hshort
  rw [List.take_of_length_le (by omega)] at hout
  exact hout ha

namespace Rankable

theorem filter (h : Rankable le due) (p : α → Bool) : Rankable le (due.filter p) :=
  ⟨h.nodup.filter p, h.trans, h.total, fun a ha b hb =>
    h.anti a (List.mem_filter.mp ha).1 b (List.mem_filter.mp hb).1⟩

theorem refl (h : Rankable le due) (a : α) : le a a := by
  simpa using h.total a a

theorem pairwise_mergeSort (h : Rankable le due) (l : List α) :
    (l.mergeSort le).Pairwise fun a b => le a b :=
  List.pairwise_mergeSort h.trans h.total l

/-- A list that is not empty has a least item. -/
theorem exists_least (h : Rankable le due) {l : List α} (hl : l ≠ []) :
    ∃ m ∈ l, ∀ b ∈ l, le m b := by
  have hperm := List.mergeSort_perm l le
  have hsorted := h.pairwise_mergeSort l
  cases hsort : l.mergeSort le with
  | nil =>
    rw [hsort] at hperm
    exact absurd hperm.nil_eq.symm hl
  | cons m rest =>
    rw [hsort] at hperm hsorted
    refine ⟨m, hperm.subset List.mem_cons_self, fun b hb => ?_⟩
    rcases List.mem_cons.mp (hperm.symm.subset hb) with rfl | hb
    · exact h.refl b
    · exact (List.pairwise_cons.mp hsorted).1 b hb

/-- **A cap is filled before anybody is held back by it.** If the rank of an item is beyond the cap,
as many as the cap come before it in its account and have a rank within the cap. -/
theorem cap_filled (h : Rankable le due) {a : α} (ha : a ∈ due) {c : Nat}
    (hc : c < rankOf account le due a) :
    c ≤ due.countP fun b => (account b = account a && le b a) && rankOf account le due b ≤ c := by
  -- the first item that is held back has only items before it that are not
  let held := due.filter fun b => account b = account a && c < rankOf account le due b
  have hheld : ∀ b, b ∈ held ↔
      b ∈ due ∧ account b = account a ∧ c < rankOf account le due b := by
    intro b
    rw [List.mem_filter, Bool.and_eq_true, decide_eq_true_eq, decide_eq_true_eq]
  have hamem : a ∈ held := (hheld a).mpr ⟨ha, rfl, hc⟩
  obtain ⟨m, hm, hleast⟩ := h.exists_least (List.ne_nil_of_mem hamem)
  obtain ⟨hml, haccount, hmc⟩ := (hheld m).mp hm
  have hsub : (due.filter fun b => account b = account m && le b m) ⊆ m :: due.filter fun b =>
      (account b = account a && le b a) && rankOf account le due b ≤ c := by
    intro b hb
    obtain ⟨hbl, hb⟩ := List.mem_filter.mp hb
    rw [Bool.and_eq_true, decide_eq_true_eq] at hb
    by_cases hbc : c < rankOf account le due b
    · have hmb := hleast b ((hheld b).mpr ⟨hbl, hb.1.trans haccount, hbc⟩)
      exact List.mem_cons.mpr (.inl (h.anti b hbl m hml hb.2 hmb))
    · refine List.mem_cons_of_mem m (List.mem_filter.mpr ⟨hbl, ?_⟩)
      rw [Bool.and_eq_true, Bool.and_eq_true, decide_eq_true_eq, decide_eq_true_eq]
      exact ⟨⟨hb.1.trans haccount, h.trans b m a hb.2 (hleast a hamem)⟩, Nat.le_of_not_lt hbc⟩
  have hlength := (h.nodup.filter _).length_le_of_subset hsub
  rw [List.length_cons] at hlength
  rw [rankOf] at hmc
  rw [List.countP_eq_length_filter]
  omega

/-- **What is cut off a sorted list** comes after a full list. -/
theorem cut_off (h : Rankable le due) {l : List α} {a : α} (ha : a ∈ l)
    (hout : a ∉ (l.mergeSort le).take limit) :
    limit ≤ ((l.mergeSort le).take limit).countP fun b => le b a := by
  have hsorted := h.pairwise_mergeSort l
  have ha : a ∈ l.mergeSort le := List.mem_mergeSort.mpr ha
  have hfull := le_length_take_of_not_mem ha hout
  rw [← List.take_append_drop limit (l.mergeSort le)] at hsorted ha
  have hrest := (List.mem_append.mp ha).resolve_left hout
  rwa [List.countP_eq_length.mpr fun b hb => (List.pairwise_append.mp hsorted).2.2 b hb a hrest]

/-- **Ranked prefixes.** -/
theorem rankedPrefix (h : Rankable le due) (account : α → κ) (limit : Nat) (cap : Option Nat) :
    RankedPrefix account le limit cap due
      (((due.filter (isWithin account le cap due)).mergeSort le).take limit) := by
  let out := ((due.filter (isWithin account le cap due)).mergeSort le).take limit
  have hcut : ∀ a ∈ due, isWithin account le cap due a → a ∉ out →
      limit ≤ out.countP fun b => le b a :=
    fun a ha hwithin => h.cut_off (List.mem_filter.mpr ⟨ha, hwithin⟩)
  constructor
  case exactly => rfl
  case left_out =>
    intro a ha hout
    by_cases hwithin : isWithin account le cap due a
    · exact .inr (hcut a ha hwithin hout)
    obtain ⟨c, rfl⟩ : ∃ c, cap = some c := by
      cases cap with
      | none => exact absurd rfl hwithin
      | some c => exact ⟨c, rfl⟩
    have hc : c < rankOf account le due a := by simpa [isWithin] using hwithin
    have hfilled := h.cap_filled ha hc
    rw [List.countP_eq_length_filter] at hfilled
    by_cases hlisted : (due.filter fun b =>
        (account b = account a && le b a) && rankOf account le due b ≤ c) ⊆ out
    · refine .inl ⟨c, rfl, hfilled.trans ?_⟩
      rw [List.countP_eq_length_filter]
      refine (h.nodup.filter _).length_le_of_subset fun b hb => List.mem_filter.mpr ⟨hlisted hb, ?_⟩
      exact (Bool.and_eq_true_iff.mp (List.mem_filter.mp hb).2).1
    -- the list was full before one of them, so it was before this one
    · obtain ⟨b, hb, hbout⟩ : ∃ b ∈ due.filter fun b =>
          (account b = account a && le b a) && rankOf account le due b ≤ c, b ∉ out := by
        by_contra hnone
        exact hlisted fun b hb => by_contra fun hbout => hnone ⟨b, hb, hbout⟩
      obtain ⟨hb, hbefore⟩ := List.mem_filter.mp hb
      rw [Bool.and_eq_true, Bool.and_eq_true] at hbefore
      refine .inr ((hcut b hb hbefore.2 hbout).trans (List.countP_mono_left fun d _ hdb => ?_))
      exact h.trans d b a hdb hbefore.1.2
  case crowded_out =>
    intro a ha hwithin hout
    refine (hcut a ha hwithin hout).trans (List.countP_mono_left fun b hb hba => ?_)
    have hmem := List.mem_mergeSort.mp (List.mem_of_mem_take hb)
    rw [hba, (List.mem_filter.mp hmem).2]
    rfl

end Rankable

namespace RankedPrefix

/-- Whoever is listed is due and within the cap. -/
theorem mem_filter (h : RankedPrefix account le limit cap due out) {a : α} (ha : a ∈ out) :
    a ∈ due.filter (isWithin account le cap due) := by
  rw [h.exactly] at ha
  exact List.mem_mergeSort.mp (List.mem_of_mem_take ha)

theorem length_le (h : RankedPrefix account le limit cap due out) : out.length ≤ limit := by
  rw [h.exactly]
  exact List.length_take_le _ _

/-- Whoever is left out finds the list full, or the cap filled by items of his account. -/
theorem full_or_filled (h : RankedPrefix account le limit cap due out) {a : α} (ha : a ∈ due)
    (hout : a ∉ out) :
    limit ≤ out.length ∨ ∃ c, cap = some c ∧ c ≤ out.countP fun b => account b = account a := by
  obtain ⟨c, hcap, hfilled⟩ | hfull := h.left_out a ha hout
  · refine .inr ⟨c, hcap, hfilled.trans (List.countP_mono_left fun b _ hb => ?_)⟩
    exact (Bool.and_eq_true_iff.mp hb).1
  · exact .inl (hfull.trans List.countP_le_length)

theorem pairwise (h : RankedPrefix account le limit cap due out) (hdue : Rankable le due) :
    out.Pairwise fun a b => le a b := by
  rw [h.exactly]
  exact (hdue.pairwise_mergeSort _).sublist (List.take_sublist _ _)

theorem nodup (h : RankedPrefix account le limit cap due out) (hdue : Rankable le due) :
    out.Nodup := by
  rw [h.exactly]
  refine List.Nodup.sublist (List.take_sublist _ _) ?_
  exact (List.mergeSort_perm _ _).nodup_iff.mpr (hdue.nodup.filter _)

/-- Among fewer items, ranks are no higher. -/
theorem isWithin_filter {keep : α → Bool} {a : α} (h : isWithin account le cap due a) :
    isWithin account le cap (due.filter keep) a := by
  cases cap with
  | none => rfl
  | some c =>
    have hle : rankOf account le (due.filter keep) a ≤ rankOf account le due a :=
      (List.filter_sublist.filter _).length_le
    exact decide_eq_true (hle.trans (of_decide_eq_true h))

/-- **Whoever is left out while all that are listed are kept** comes after a full list, or is beyond
the cap among those that are kept. -/
theorem full_of_left_out (h : RankedPrefix account le limit cap due out) (hdue : Rankable le due)
    {keep : α → Bool} (hkeep : ∀ b ∈ out, keep b) {a : α} (ha : a ∈ due) (hakeep : keep a)
    (hwithin : isWithin account le cap (due.filter keep) a) (hout : a ∉ out) :
    limit ≤ out.countP fun b => le b a := by
  refine (h.left_out a ha hout).resolve_left fun ⟨c, hcap, hfilled⟩ => ?_
  subst hcap
  have hrank : rankOf account le (due.filter keep) a ≤ c := of_decide_eq_true hwithin
  -- the item itself and those that fill the cap
  have hsub : a :: (out.filter fun b => account b = account a && le b a) ⊆
      (due.filter keep).filter fun b => account b = account a && le b a := by
    refine List.cons_subset.mpr ⟨?_, fun b hb => ?_⟩
    · exact List.mem_filter.mpr ⟨List.mem_filter.mpr ⟨ha, hakeep⟩, by simp [hdue.refl a]⟩
    · obtain ⟨hb, hbefore⟩ := List.mem_filter.mp hb
      have hbdue := (List.mem_filter.mp (h.mem_filter hb)).1
      exact List.mem_filter.mpr ⟨List.mem_filter.mpr ⟨hbdue, hkeep b hb⟩, hbefore⟩
  have hnodup : (a :: (out.filter fun b => account b = account a && le b a)).Nodup :=
    List.nodup_cons.mpr ⟨fun hmem => hout (List.mem_filter.mp hmem).1, (h.nodup hdue).filter _⟩
  have hlength := hnodup.length_le_of_subset hsub
  rw [List.length_cons, ← List.countP_eq_length_filter] at hlength
  rw [rankOf] at hrank
  omega

/-- **Items that are not listed might as well not be due.** -/
theorem filter (h : RankedPrefix account le limit cap due out) (hdue : Rankable le due)
    {keep : α → Bool} (hkeep : ∀ b ∈ out, keep b) :
    RankedPrefix account le limit cap (due.filter keep) out := by
  classical
  let kept := (due.filter keep).filter (isWithin account le cap (due.filter keep))
  let rest := kept.filter fun a => a ∉ out
  have hrest : ∀ a ∈ rest, limit ≤ out.countP fun b => le b a := by
    intro a ha
    obtain ⟨hakept, hout⟩ := List.mem_filter.mp ha
    obtain ⟨ha, hwithin⟩ := List.mem_filter.mp hakept
    obtain ⟨ha, hakeep⟩ := List.mem_filter.mp ha
    exact h.full_of_left_out hdue hkeep ha hakeep hwithin (of_decide_eq_true hout)
  have hlisted : out.Perm (kept.filter fun a => a ∈ out) := by
    refine (List.perm_ext_iff_of_nodup (h.nodup hdue)
      (((hdue.nodup.filter _).filter _).filter _)).mpr fun a => ?_
    rw [List.mem_filter, decide_eq_true_eq]
    refine ⟨fun ha => ⟨?_, ha⟩, And.right⟩
    obtain ⟨hadue, hwithin⟩ := List.mem_filter.mp (h.mem_filter ha)
    exact List.mem_filter.mpr
      ⟨List.mem_filter.mpr ⟨hadue, hkeep a ha⟩, isWithin_filter hwithin⟩
  have hperm : (kept.mergeSort le).Perm (out ++ rest.mergeSort le) := by
    refine (List.mergeSort_perm _ _).trans (List.Perm.symm ?_)
    refine (hlisted.append (List.mergeSort_perm rest le)).trans ?_
    have hnot : rest = kept.filter fun a => !decide (a ∈ out) :=
      List.filter_congr fun a _ => by rw [decide_not]
    rw [hnot]
    exact List.filter_append_perm _ _
  have hsorted : (out ++ rest.mergeSort le).Pairwise fun a b => le a b := by
    refine List.pairwise_append.mpr
      ⟨h.pairwise hdue, hdue.pairwise_mergeSort _, fun b hb a ha => ?_⟩
    have hfull := hrest a (List.mem_mergeSort.mp ha)
    have hall := Nat.le_antisymm List.countP_le_length (h.length_le.trans hfull)
    exact List.countP_eq_length.mp hall b hb
  have hsort : kept.mergeSort le = out ++ rest.mergeSort le := by
    refine hperm.eq_of_pairwise (fun a b ha hb hab hba => ?_)
      (hdue.pairwise_mergeSort _) hsorted
    have hmem : ∀ d ∈ kept.mergeSort le, d ∈ due := fun d hd =>
      (List.mem_filter.mp (List.mem_filter.mp (List.mem_mergeSort.mp hd)).1).1
    exact hdue.anti a (hmem a ha) b (hmem b (hperm.symm.subset hb)) hab hba
  have hexactly : (kept.mergeSort le).take limit = out := by
    rw [hsort, List.take_append, List.take_of_length_le h.length_le]
    cases hnone : rest with
    | nil => simp
    | cons a as =>
      have hfull := hrest a (hnone ▸ List.mem_cons_self)
      have hle := hfull.trans List.countP_le_length
      rw [Nat.sub_eq_zero_of_le hle, List.take_zero, List.append_nil]
  rw [← hexactly]
  exact (hdue.filter keep).rankedPrefix account limit cap

variable {κ' : Type} [DecidableEq κ'] {account' : β → κ'} {le' : β → β → Bool}
  {g : α → β}

/-- Items that are brought into another form, which changes neither accounts nor order. -/
theorem rankOf_map (haccount : ∀ a ∈ due, ∀ b ∈ due, account' (g a) = account' (g b) ↔
      account a = account b)
    (hle : ∀ a ∈ due, ∀ b ∈ due, le' (g a) (g b) = le a b) {a : α} (ha : a ∈ due) :
    rankOf account' le' (due.map g) (g a) = rankOf account le due a := by
  rw [rankOf, rankOf, List.filter_map, List.length_map]
  refine congrArg List.length (List.filter_congr fun b hb => ?_)
  simp only [Function.comp, haccount b hb a ha, hle b hb a ha]

theorem map (h : RankedPrefix account le limit cap due out)
    (haccount : ∀ a ∈ due, ∀ b ∈ due, account' (g a) = account' (g b) ↔ account a = account b)
    (hle : ∀ a ∈ due, ∀ b ∈ due, le' (g a) (g b) = le a b) :
    RankedPrefix account' le' limit cap (due.map g) (out.map g) := by
  have hmem : ∀ b ∈ out, b ∈ due := fun b hb => (List.mem_filter.mp (h.mem_filter hb)).1
  have hwithin : ∀ a ∈ due,
      isWithin account' le' cap (due.map g) (g a) = isWithin account le cap due a := by
    intro a ha
    rw [isWithin, isWithin, rankOf_map haccount hle ha]
  constructor
  case exactly =>
    have hfilter : (due.map g).filter (isWithin account' le' cap (due.map g)) =
        (due.filter (isWithin account le cap due)).map g := by
      rw [List.filter_map]
      exact congrArg (List.map g) (List.filter_congr hwithin)
    rw [hfilter, ← List.map_mergeSort, ← List.map_take, ← h.exactly]
    exact fun a ha b hb => (hle a (List.mem_filter.mp ha).1 b (List.mem_filter.mp hb).1).symm
  case left_out =>
    intro a' ha' hout
    obtain ⟨a, ha, rfl⟩ := List.mem_map.mp ha'
    have hleft := h.left_out a ha fun hin => hout (List.mem_map_of_mem hin)
    have hbefore : ∀ b ∈ out, le' (g b) (g a) = le b a := fun b hb => hle b (hmem b hb) a ha
    have hsame : ∀ b ∈ out, decide (account' (g b) = account' (g a)) =
        decide (account b = account a) :=
      fun b hb => decide_eq_decide.mpr (haccount b (hmem b hb) a ha)
    rw [List.countP_map, List.countP_map]
    refine hleft.imp (fun ⟨c, hcap, hfilled⟩ => ⟨c, hcap, hfilled.trans (le_of_eq ?_)⟩)
      fun hfull => hfull.trans (le_of_eq ?_)
    · exact List.countP_congr fun b hb => by rw [Function.comp, hsame b hb, hbefore b hb]
    · exact List.countP_congr fun b hb => by rw [Function.comp, hbefore b hb]
  case crowded_out =>
    intro a' ha' hwithin' hout
    obtain ⟨a, ha, rfl⟩ := List.mem_map.mp ha'
    rw [hwithin a ha] at hwithin'
    have hcrowded := h.crowded_out a ha hwithin' fun hin => hout (List.mem_map_of_mem hin)
    rw [List.countP_map]
    refine hcrowded.trans (le_of_eq (List.countP_congr fun b hb => ?_))
    rw [Function.comp, hle b (hmem b hb) a ha, hwithin b (hmem b hb)]

end RankedPrefix

end Ranks

end SyncJobs
