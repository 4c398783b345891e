import Mathlib.Data.List.Perm.Basic
import SyncJobs.Pool

/-!
# Permits are counted exactly

A pool grants permits, one at a time or to a list of candidates, and gets them back in any order.
`Loan` puts a pool together with the permits that are out. Whatever is asked of the pool, and
whoever asks (handles of a pool share it, so their calls make one list), `Loan.Exact` holds: all
four counts are those of the permits that are out, and within their limits.

Subtractions in the pool stop at zero, which would hide a permit that was never counted. They
never have to stop: a permit that is out is counted in all four ways (`Loan.Exact.counted`).
-/

namespace SyncJobs

/-! ## Tallies -/

namespace Tally

variable {κ : Type} [DecidableEq κ]

/-- **The tally counts the items of a list,** and has entries for them only. -/
structure Counts (t : Tally κ) (l : List κ) : Prop where
  /-- one entry a key -/
  nodup : (t.entries.map Prod.fst).Nodup
  /-- an entry says how often its key occurs, and the key does occur -/
  mem_entries : ∀ k n, (k, n) ∈ t.entries ↔ n = l.count k ∧ n ≠ 0

theorem lookup_eq_some_iff {es : List (κ × Nat)} (h : (es.map Prod.fst).Nodup) {k : κ} {n : Nat} :
    es.lookup k = some n ↔ (k, n) ∈ es := by
  induction es with
  | nil => simp
  | cons e es ih =>
    obtain ⟨l, m⟩ := e
    obtain ⟨hl, hes⟩ := List.nodup_cons.mp h
    rw [List.lookup_cons, List.mem_cons]
    by_cases hk : k = l
    · subst hk
      rw [beq_self_eq_true]
      constructor
      · intro he
        exact .inl (congrArg (Prod.mk k) (Option.some.inj he).symm)
      · rintro (he | hmem)
        · exact congrArg some (congrArg Prod.snd he).symm
        · exact absurd (List.mem_map_of_mem hmem) hl
    · rw [beq_false_of_ne hk, ih hes]
      constructor
      · exact .inr
      · rintro (he | hmem)
        · exact absurd (congrArg Prod.fst he) hk
        · exact hmem

/-- The entries after the count of one key was changed. -/
theorem mem_alter {es : List (κ × Nat)} (h : (es.map Prod.fst).Nodup) (k : κ) (f : Nat → Nat)
    (l : κ) (n : Nat) : (l, n) ∈ alter k f es ↔
      if l = k then n = f ((es.lookup k).getD 0) ∧ n ≠ 0 else (l, n) ∈ es := by
  induction es with
  | nil =>
    rw [alter]
    by_cases hl : l = k
    · subst hl
      split
      · rename_i hzero
        simp [hzero]
      · rename_i hpos
        simp only [List.mem_singleton, Prod.mk.injEq, true_and, if_true, List.lookup_nil,
          Option.getD_none]
        exact ⟨fun hn => ⟨hn, hn ▸ hpos⟩, And.left⟩
    · split <;> simp [hl]
  | cons e es ih =>
    obtain ⟨m, c⟩ := e
    obtain ⟨hm, hes⟩ := List.nodup_cons.mp h
    -- keys occur once, so there is no second entry for this one
    have habsent : ∀ n, (m, n) ∉ es := fun n hn => hm (List.mem_map.mpr ⟨_, hn, rfl⟩)
    rw [alter]
    by_cases hmk : m = k
    · subst hmk
      rw [if_pos rfl, List.lookup_cons, beq_self_eq_true]
      by_cases hl : l = m
      · subst hl
        split
        · rename_i hzero
          simp [hzero, habsent]
        · rename_i hpos
          simp only [List.mem_cons, Prod.mk.injEq, true_and, habsent, or_false, if_true,
            Option.getD_some]
          exact ⟨fun hn => ⟨hn, hn ▸ hpos⟩, And.left⟩
      · split <;> simp [hl]
    · have hkm : (k == m) = false := beq_false_of_ne (Ne.symm hmk)
      rw [if_neg hmk, List.mem_cons, ih hes, List.lookup_cons, hkm]
      by_cases hl : l = k
      · subst hl
        simp [Ne.symm hmk]
      · simp [hl]

theorem nodup_alter {es : List (κ × Nat)} (h : (es.map Prod.fst).Nodup) (k : κ) (f : Nat → Nat) :
    ((alter k f es).map Prod.fst).Nodup := by
  induction es with
  | nil =>
    rw [alter]
    split <;> simp
  | cons e es ih =>
    obtain ⟨m, c⟩ := e
    obtain ⟨hm, hes⟩ := List.nodup_cons.mp h
    rw [alter]
    by_cases hmk : m = k
    · rw [if_pos hmk]
      split
      · exact hes
      · exact List.nodup_cons.mpr ⟨hmk ▸ hm, hes⟩
    · rw [if_neg hmk]
      refine List.nodup_cons.mpr ⟨fun hmem => ?_, ih hes⟩
      obtain ⟨⟨l, n⟩, hln, rfl⟩ := List.mem_map.mp hmem
      rw [mem_alter hes, if_neg hmk] at hln
      exact hm (List.mem_map.mpr ⟨_, hln, rfl⟩)

variable {t : Tally κ} {l l' : List κ}

theorem counts_empty : (empty : Tally κ).Counts [] := by
  refine ⟨List.nodup_nil, fun k n => ?_⟩
  rw [List.count_nil]
  constructor
  · intro h
    cases h
  · rintro ⟨hn, hpos⟩
    exact absurd hn hpos

/-- The order of what is counted does not matter. -/
theorem Counts.perm (h : t.Counts l) (hl : l.Perm l') : t.Counts l' :=
  ⟨h.nodup, fun k n => hl.count_eq k ▸ h.mem_entries k n⟩

/-- **Counts are right.** -/
theorem Counts.count_eq (h : t.Counts l) (k : κ) : t.count k = l.count k := by
  rw [count]
  cases hk : t.entries.lookup k with
  | some n => exact ((h.mem_entries k n).mp ((lookup_eq_some_iff h.nodup).mp hk)).1
  | none =>
    -- a key that occurs has an entry
    refine Decidable.byContradiction fun hne => ?_
    have hmem := (h.mem_entries k (l.count k)).mpr ⟨rfl, fun hzero => hne (by simp [hzero])⟩
    rw [(lookup_eq_some_iff h.nodup).mpr hmem] at hk
    cases hk

/-- A tally of nothing has no entries. -/
theorem Counts.eq_empty (h : t.Counts []) : t = empty := by
  obtain ⟨es⟩ := t
  cases es with
  | nil => rfl
  | cons e es =>
    obtain ⟨hn, hpos⟩ := (h.mem_entries e.1 e.2).mp List.mem_cons_self
    rw [List.count_nil] at hn
    exact absurd hn hpos

theorem Counts.increment (h : t.Counts l) (k : κ) : (t.increment k).Counts (k :: l) := by
  have hcount : (t.entries.lookup k).getD 0 = l.count k := h.count_eq k
  refine ⟨nodup_alter h.nodup k _, fun k' n => ?_⟩
  rw [Tally.increment, mem_alter h.nodup]
  by_cases hk : k' = k
  · subst hk
    rw [if_pos rfl, hcount, List.count_cons_self]
  · rw [if_neg hk, List.count_cons_of_ne (Ne.symm hk)]
    exact h.mem_entries k' n

theorem Counts.decrement {k : κ} (h : t.Counts (k :: l)) : (t.decrement k).Counts l := by
  have hcount : (t.entries.lookup k).getD 0 = (k :: l).count k := h.count_eq k
  refine ⟨nodup_alter h.nodup k _, fun k' n => ?_⟩
  rw [Tally.decrement, mem_alter h.nodup]
  by_cases hk : k' = k
  · subst hk
    rw [if_pos rfl, hcount, List.count_cons_self, Nat.add_sub_cancel]
  · rw [if_neg hk, h.mem_entries k' n, List.count_cons_of_ne (Ne.symm hk)]

/-- What occurs is counted. -/
theorem Counts.count_pos {k : κ} (h : t.Counts l) (hk : k ∈ l) : 0 < t.count k := by
  rw [h.count_eq]
  exact List.count_pos_iff.mpr hk

variable {bound : Nat}

/-- A bound that is not yet reached is kept by one count more. -/
theorem Counts.increment_le {k : κ} (h : t.Counts l) (hlt : t.count k < bound)
    (hle : ∀ k', t.count k' ≤ bound) (k' : κ) : (t.increment k).count k' ≤ bound := by
  rw [(h.increment k).count_eq]
  by_cases hk : k' = k
  · rw [hk, List.count_cons_self, ← h.count_eq]
    exact hlt
  · rw [List.count_cons_of_ne (Ne.symm hk), ← h.count_eq]
    exact hle k'

theorem Counts.decrement_le {k : κ} (h : t.Counts (k :: l)) (hle : ∀ k', t.count k' ≤ bound)
    (k' : κ) : (t.decrement k).count k' ≤ bound := by
  have hcount := hle k'
  rw [h.count_eq] at hcount
  rw [h.decrement.count_eq]
  exact Nat.le_trans List.count_le_count_cons hcount

end Tally

/-! ## Usage -/

namespace Usage

/-- **The counts are those of a list of permits.** -/
structure Counts (u : Usage) (out : List Permit) : Prop where
  total : u.total = out.length
  byDomain : u.byDomain.Counts (out.map Permit.domain)
  byAccount : u.byAccount.Counts (out.map Permit.account)
  byPair : u.byPair.Counts (out.map fun p => (p.account, p.domain))

/-- The counts are within limits. -/
structure Within (u : Usage) (l : Limits) : Prop where
  total : u.total ≤ l.total
  byDomain : ∀ d, u.byDomain.count d ≤ l.perDomain
  byAccount : ∀ a, u.byAccount.count a ≤ l.perAccount
  byPair : ∀ k, u.byPair.count k ≤ l.perAccountDomain

variable {u : Usage} {out out' : List Permit} {p : Permit} {l : Limits}

theorem counts_empty : ({} : Usage).Counts [] :=
  ⟨rfl, Tally.counts_empty, Tally.counts_empty, Tally.counts_empty⟩

theorem Counts.perm (h : u.Counts out) (hout : out.Perm out') : u.Counts out' :=
  ⟨h.total.trans hout.length_eq, h.byDomain.perm (hout.map _), h.byAccount.perm (hout.map _),
    h.byPair.perm (hout.map _)⟩

theorem Counts.acquire (h : u.Counts out) (p : Permit) : (u.acquire p).Counts (p :: out) :=
  ⟨congrArg (· + 1) h.total, h.byDomain.increment _, h.byAccount.increment _,
    h.byPair.increment _⟩

theorem Counts.release (h : u.Counts (p :: out)) : (u.release p).Counts out :=
  ⟨congrArg (· - 1) h.total, h.byDomain.decrement, h.byAccount.decrement, h.byPair.decrement⟩

theorem Counts.eq_empty (h : u.Counts []) : u = {} := by
  obtain ⟨total, byDomain, byAccount, byPair⟩ := u
  obtain rfl : total = 0 := h.total
  obtain rfl := h.byDomain.eq_empty
  obtain rfl := h.byAccount.eq_empty
  obtain rfl := h.byPair.eq_empty
  rfl

/-- What is admitted keeps the limits. -/
theorem Counts.within_acquire (h : u.Counts out) (hw : u.Within l) (ha : u.admits l p) :
    (u.acquire p).Within l := by
  simp only [admits, Bool.and_eq_true, decide_eq_true_eq] at ha
  obtain ⟨⟨⟨htotal, hdomain⟩, haccount⟩, hpair⟩ := ha
  exact ⟨htotal, h.byDomain.increment_le hdomain hw.byDomain,
    h.byAccount.increment_le haccount hw.byAccount, h.byPair.increment_le hpair hw.byPair⟩

/-- What comes back keeps the limits. -/
theorem Counts.within_release (h : u.Counts (p :: out)) (hw : u.Within l) :
    (u.release p).Within l :=
  ⟨Nat.le_trans (Nat.sub_le _ _) hw.total, h.byDomain.decrement_le hw.byDomain,
    h.byAccount.decrement_le hw.byAccount, h.byPair.decrement_le hw.byPair⟩

end Usage

/-! ## Loans -/

/-- **A pool and the permits that are out,** oldest first. -/
structure Loan where
  pool : Pool
  out : List Permit

/-- What may be asked of a pool. -/
inductive PoolCall where
  /-- a permit -/
  | tryAcquire (p : Permit)
  /-- permits for candidates -/
  | allocate (candidates : List Job)
  /-- to take back the permit at a place among those that are out -/
  | takeBack (place : Nat)

namespace Loan

/-- Asks the pool. -/
def step (s : Loan) : PoolCall → Loan
  | .tryAcquire p => match s.pool.tryAcquire p with
    | some pool => ⟨pool, s.out ++ [p]⟩
    | none => s
  | .allocate candidates =>
    ⟨(s.pool.allocate candidates).2, s.out ++ (s.pool.allocate candidates).1.map Prod.snd⟩
  | .takeBack place => match s.out[place]? with
    | some p => ⟨s.pool.release p, s.out.eraseIdx place⟩
    | none => s

/-- A new pool with no permits out. -/
def start (l : Limits) (f : Fairness) : Loan := ⟨⟨l, f, {}⟩, []⟩

/-- What a new pool comes to by a list of calls. -/
def run (l : Limits) (f : Fairness) (calls : List PoolCall) : Loan := calls.foldl step (start l f)

/-- **The pool counts exactly** under its limits. -/
structure Exact (l : Limits) (s : Loan) : Prop where
  limits : s.pool.limits = l
  /-- the counts are those of the permits that are out -/
  counts : s.pool.usage.Counts s.out
  within : s.pool.usage.Within l
  /-- what is left and what is out make up the total limit -/
  available : s.pool.available + s.out.length = l.total
  /-- with no permits out, the pool is as it was at the start -/
  empty : s.out = [] → s.pool.usage = {}
  /-- a permit that is out is counted in all four ways, so taking it back never stops at zero -/
  counted : ∀ p ∈ s.out, 0 < s.pool.usage.total ∧ 0 < s.pool.usage.byDomain.count p.domain ∧
    0 < s.pool.usage.byAccount.count p.account ∧
    0 < s.pool.usage.byPair.count (p.account, p.domain)

/-- The counts and their limits carry the rest. -/
theorem exact_of {l : Limits} {s : Loan} (hl : s.pool.limits = l) (hc : s.pool.usage.Counts s.out)
    (hw : s.pool.usage.Within l) : Exact l s where
  limits := hl
  counts := hc
  within := hw
  available := by
    rw [Pool.available, hl, ← hc.total]
    exact Nat.sub_add_cancel hw.total
  empty h := Usage.Counts.eq_empty (h ▸ hc)
  counted p hp :=
    ⟨hc.total ▸ List.length_pos_of_mem hp, hc.byDomain.count_pos (List.mem_map_of_mem hp),
      hc.byAccount.count_pos (List.mem_map_of_mem hp),
      hc.byPair.count_pos (List.mem_map_of_mem (f := fun p => (p.account, p.domain)) hp)⟩

variable {l : Limits} {s : Loan}

/-- One permit more. -/
theorem Exact.acquire (h : Exact l s) {p : Permit} (ha : s.pool.admits p) :
    Exact l ⟨s.pool.acquire p, s.out ++ [p]⟩ := by
  have ha' : s.pool.usage.admits l p := h.limits ▸ ha
  refine exact_of h.limits ?_ (h.counts.within_acquire h.within ha')
  exact (h.counts.acquire p).perm (List.perm_append_singleton p s.out).symm

/-- Permits for candidates in a given order. -/
theorem Exact.grant (h : Exact l s) (jobs : List Job) :
    Exact l ⟨(s.pool.grant jobs).2, s.out ++ (s.pool.grant jobs).1.map Prod.snd⟩ := by
  induction jobs generalizing s with
  | nil =>
    rw [Pool.grant, List.map_nil, List.append_nil]
    exact h
  | cons j jobs ih =>
    rw [Pool.grant]
    split
    · rw [List.map_nil, List.append_nil]
      exact h
    · split
      · rename_i ha
        have hrest := ih (h.acquire ha)
        simp only [List.append_assoc, List.singleton_append] at hrest
        exact hrest
      · exact ih h

/-- One permit back. -/
theorem Exact.takeBack (h : Exact l s) {place : Nat} {p : Permit} (hp : s.out[place]? = some p) :
    Exact l ⟨s.pool.release p, s.out.eraseIdx place⟩ := by
  have hperm : s.out.Perm (p :: s.out.eraseIdx place) := by
    obtain ⟨hlt, rfl⟩ := List.getElem?_eq_some_iff.mp hp
    exact (List.getElem_cons_eraseIdx_perm hlt).symm
  have hcounts := h.counts.perm hperm
  exact exact_of h.limits hcounts.release (hcounts.within_release h.within)

/-- **Every call keeps the counts exact.** -/
theorem Exact.step (h : Exact l s) (c : PoolCall) : Exact l (s.step c) := by
  cases c with
  | tryAcquire p =>
    rw [Loan.step, Pool.tryAcquire]
    by_cases ha : s.pool.admits p
    · simp only [ha, if_true]
      exact h.acquire ha
    · simp only [ha, Bool.false_eq_true, if_false]
      exact h
  | allocate candidates => exact h.grant _
  | takeBack place =>
    rw [Loan.step]
    cases hp : s.out[place]? with
    | none => exact h
    | some p => exact h.takeBack hp

/-- **Permits are counted exactly,** for all limits, both rules of fairness, and all calls. -/
theorem run_is_exact (l : Limits) (f : Fairness) (calls : List PoolCall) :
    Exact l (run l f calls) := by
  have hrun : ∀ s, Exact l s → Exact l (calls.foldl Loan.step s) := by
    induction calls with
    | nil => exact fun s h => h
    | cons c calls ih => exact fun s h => ih _ (h.step c)
  refine hrun _ (exact_of rfl Usage.counts_empty ?_)
  exact ⟨Nat.zero_le _, fun _ => Nat.zero_le _, fun _ => Nat.zero_le _, fun _ => Nat.zero_le _⟩

end Loan

end SyncJobs
