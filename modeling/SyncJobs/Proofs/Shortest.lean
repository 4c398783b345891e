import Mathlib.Algebra.Order.Field.Basic
import SyncJobs.Binary64.Shortest
import SyncJobs.Proofs.Rounding

/-!
# The shortest decimal is not much larger than its number

The shortest decimal of `m · 2 ^ e` lies between the ends of the interval of reals that round to
the number, so it is at most half a unit of its last place above it (`Binary64.value_shortest_le`).
For this, a decimal has to be found at all: if the number is whole and above one, one of its two
neighbours with 17 digits lies in the interval (`Binary64.isSome_candidate?`).
-/

namespace SyncJobs

namespace Binary64

/-! ## Decimals -/

/-- The number that a decimal stands for. -/
def Decimal.value (d : Decimal) : ℚ := d.digits * 10 ^ d.exponent

/-- Zeros at the end of the digits can be told by the exponent. -/
theorem Decimal.value_trim (fuel : Nat) (d : Decimal) : (d.trim fuel).value = d.value := by
  induction fuel generalizing d with
  | zero => rfl
  | succ fuel ih =>
    rw [trim]
    split
    · rename_i hzero
      rw [ih, value, value, zpow_add_one₀ (by norm_num)]
      have hdigits : ((d.digits / 10 * 10 : Nat) : ℚ) = d.digits := by
        rw [Nat.div_mul_cancel (Nat.dvd_of_mod_eq_zero hzero.2)]
      push_cast at hdigits
      rw [← hdigits]
      ring
    · rfl

theorem Decimal.digits_trim_pos (fuel : Nat) {d : Decimal} (h : 0 < d.digits) :
    0 < (d.trim fuel).digits := by
  induction fuel generalizing d with
  | zero => exact h
  | succ fuel ih =>
    rw [trim]
    split
    · rename_i hzero
      exact ih (by dsimp only; omega)
    · exact h

/-! ## Powers as ratios -/

/-- **A power as the ratio of two natural numbers.** -/
structure IsPower (base : Nat) (exponent : Int) (r : Nat × Nat) : Prop where
  num_pos : 0 < r.1
  den_pos : 0 < r.2
  ratio : (base : ℚ) ^ exponent * r.2 = r.1

/-- One of the two numbers is one. -/
theorem isPower (base : Nat) (h : 0 < base) (exponent : Int) : IsPower base exponent
    (if 0 ≤ exponent then (Nat.pow base exponent.toNat, 1)
      else (1, Nat.pow base (-exponent).toNat)) := by
  have hbase : (base : ℚ) ≠ 0 := by exact_mod_cast h.ne'
  split
  · rename_i he
    obtain ⟨n, rfl⟩ := Int.eq_ofNat_of_zero_le he
    refine ⟨Nat.pow_pos h, Nat.one_pos, ?_⟩
    show (base : ℚ) ^ (n : Int) * ((1 : Nat) : ℚ) = ((base ^ n : Nat) : ℚ)
    push_cast
    rw [zpow_natCast, mul_one]
  · rename_i he
    obtain ⟨n, rfl⟩ : ∃ n : Nat, exponent = -n := ⟨(-exponent).toNat, by omega⟩
    rw [Int.neg_neg]
    refine ⟨Nat.one_pos, Nat.pow_pos h, ?_⟩
    show (base : ℚ) ^ (-n : Int) * ((base ^ n : Nat) : ℚ) = ((1 : Nat) : ℚ)
    push_cast
    rw [zpow_neg, zpow_natCast]
    exact inv_mul_cancel₀ (pow_ne_zero n hbase)

/-! ## Candidates -/

/-- What lies in an interval is not above its end. -/
theorem Interval.le_high {i : Interval} {num den : Nat} (h : i.contains num den) :
    num * i.den ≤ i.high * den := by
  rw [contains] at h
  split at h
  · exact (of_decide_eq_true h).2
  · exact (of_decide_eq_true h).2.le

/-- A point of the grid in the interval. -/
theorem value_le_of_contains {i : Interval} {exponent : Int} {digits up down : Nat}
    (hgrid : IsPower 10 exponent (up, down)) (h : i.contains (digits * up) down) :
    Decimal.value ⟨digits, exponent⟩ * i.den ≤ i.high := by
  have hle := Interval.le_high h
  have hdown : (0 : ℚ) < down := by exact_mod_cast hgrid.den_pos
  have hcast : (digits : ℚ) * up * i.den ≤ i.high * down := by exact_mod_cast hle
  have hratio : (10 : ℚ) ^ exponent * down = up := by exact_mod_cast hgrid.ratio
  rw [← hratio] at hcast
  refine le_of_mul_le_mul_right ?_ hdown
  calc Decimal.value ⟨digits, exponent⟩ * i.den * down
      = digits * (10 ^ exponent * down) * i.den := by
        rw [Decimal.value]
        ring
    _ ≤ i.high * down := hcast

/-- **Candidates lie in the interval.** -/
theorem candidate?_le {i : Interval} {lead : Int} {n : Nat} {d : Decimal}
    (h : candidate? i lead n = some d) : 0 < d.digits ∧ d.value * i.den ≤ i.high := by
  have hgrid := isPower 10 (by decide) (lead - (n - 1 : Nat))
  simp only [candidate?] at h
  generalize lead - (n - 1 : Nat) = exponent at h hgrid
  generalize (if 0 ≤ exponent then (Nat.pow 10 exponent.toNat, 1)
      else (1, Nat.pow 10 (-exponent).toNat)) = grid at h hgrid
  obtain ⟨up, down⟩ := grid
  dsimp only at h
  generalize i.value * down / (i.den * up) = below at h
  have hbelow : below ≠ 0 ∧ i.contains (below * up) down →
      0 < below ∧ Decimal.value ⟨below, exponent⟩ * i.den ≤ i.high := fun hhit =>
    ⟨Nat.pos_of_ne_zero hhit.1, value_le_of_contains hgrid hhit.2⟩
  have habove : i.contains ((below + 1) * up) down →
      0 < below + 1 ∧ Decimal.value ⟨below + 1, exponent⟩ * i.den ≤ i.high := fun hhit =>
    ⟨below.succ_pos, value_le_of_contains hgrid hhit⟩
  split at h
  · rename_i hboth
    split at h
    · obtain rfl := Option.some.inj h
      exact hbelow hboth.1
    · split at h
      · obtain rfl := Option.some.inj h
        exact habove hboth.2
      · split at h
        · obtain rfl := Option.some.inj h
          exact hbelow hboth.1
        · obtain rfl := Option.some.inj h
          exact habove hboth.2
  · split at h
    · rename_i hhit
      obtain rfl := Option.some.inj h
      exact hbelow hhit
    · split at h
      · rename_i hhit
        obtain rfl := Option.some.inj h
        exact habove hhit
      · cases h

/-- A candidate is found if one of the two neighbours lies in the interval. -/
theorem isSome_candidate?_of_contains {i : Interval} {lead : Int} {n : Nat} {grid : Nat × Nat}
    (hgrid : grid = if 0 ≤ lead - (n - 1 : Nat) then (Nat.pow 10 (lead - (n - 1 : Nat)).toNat, 1)
      else (1, Nat.pow 10 (-(lead - (n - 1 : Nat))).toNat))
    (h : (i.value * grid.2 / (i.den * grid.1) ≠ 0 ∧
        i.contains (i.value * grid.2 / (i.den * grid.1) * grid.1) grid.2) ∨
      i.contains ((i.value * grid.2 / (i.den * grid.1) + 1) * grid.1) grid.2) :
    (candidate? i lead n).isSome := by
  simp only [candidate?, ← hgrid]
  split
  · split
    · rfl
    · split
      · rfl
      · split <;> rfl
  · rename_i hnot
    split
    · rfl
    · rename_i hbelow
      rw [if_pos (h.resolve_left hbelow)]
      rfl

/-- The logarithm is not too large. -/
theorem pow_log10_le (fuel : Nat) {n : Nat} (h : 0 < n) : 10 ^ log10 fuel n ≤ n := by
  induction fuel generalizing n with
  | zero => exact h
  | succ fuel ih =>
    rw [log10]
    split
    · exact h
    · have hle := ih (n := n / 10) (by omega)
      rw [Nat.pow_succ]
      omega

/-- The neighbours of a number on a grid that is fine enough: the one that is nearer lies between
the ends of an interval. -/
theorem between_of_neighbour {m c value up q : Nat} (hm : 0 < m) (hvalue : value = m * q)
    (hfine : 2 * up < c * q) (hc : c ≤ 2) (hup : 0 < up) :
    ((4 * m - c) * q < value / up * up * 4 ∧ value / up * up * 4 < (4 * m + 2) * q) ∨
      ((4 * m - c) * q < (value / up + 1) * up * 4 ∧
        (value / up + 1) * up * 4 < (4 * m + 2) * q) := by
  have hdiv : up * (value / up) + value % up = value := Nat.div_add_mod value up
  have hmod : value % up < up := Nat.mod_lt value hup
  have hlow : (4 * m - c) * q = 4 * value - c * q := by
    rw [Nat.sub_mul, Nat.mul_assoc, hvalue]
  have hhigh : (4 * m + 2) * q = 4 * value + 2 * q := by
    rw [Nat.add_mul, Nat.mul_assoc, hvalue]
  have hcq : c * q ≤ 2 * q := Nat.mul_le_mul_right q hc
  have hq : q ≤ value := hvalue ▸ Nat.le_mul_of_pos_left q hm
  rw [hlow, hhigh, Nat.add_mul, Nat.one_mul, Nat.mul_comm (value / up) up]
  omega

/-- How far an interval goes down, in quarters of a unit. -/
def gap (m : Nat) (e : Int) : Nat := if m = highestBit ∧ minExponent < e then 1 else 2

/-- The interval of a whole number. -/
theorem interval_natCast (m k : Nat) : interval m k =
    ⟨4 * m * 2 ^ k, (4 * m - gap m k) * 2 ^ k, (4 * m + 2) * 2 ^ k, 4, decide (m % 2 = 0)⟩ := by
  have hk : (0 : Int) ≤ k := Int.natCast_nonneg k
  simp only [interval, gap, hk, if_true, Int.toNat_natCast]
  rfl

/-- What lies strictly between the ends lies in the interval. -/
theorem Interval.contains_of_lt {i : Interval} {num den : Nat}
    (h : i.low * den < num * i.den ∧ num * i.den < i.high * den) : i.contains num den := by
  rw [contains]
  split
  · exact decide_eq_true ⟨h.1.le, h.2.le⟩
  · exact decide_eq_true h

/-- The grid of decimals with 17 digits is finer than the interval of a number. -/
theorem two_mul_lt_gap_mul {m k up q : Nat} (hlt : m < 2 ^ 53) (hq : 0 < q)
    (h : up * 10 ^ 16 ≤ m * q) : 2 * up < gap m k * q := by
  rw [gap]
  split
  · rename_i hnarrow
    obtain rfl : m = 2 ^ 52 := hnarrow.1
    omega
  · have hle : m * q ≤ 2 ^ 53 * q := Nat.mul_le_mul_right q hlt.le
    omega

/-- **Whole numbers have candidates with 17 digits.** -/
theorem isSome_candidate? {m : Nat} (hm : 0 < m) (hlt : m < 2 ^ 53) (k : Nat) :
    (candidate? (interval m k) (leadingPower (interval m k).value (interval m k).den)
      17).isSome := by
  have hwhole : 0 < m * 2 ^ k := Nat.mul_pos hm (Nat.two_pow_pos k)
  have hlead : leadingPower (4 * m * 2 ^ k) 4 = log10 (m * 2 ^ k) (m * 2 ^ k) := by
    have hdiv : 4 * m * 2 ^ k / 4 = m * 2 ^ k := by
      rw [Nat.mul_assoc, Nat.mul_div_cancel_left _ (by decide)]
    rw [leadingPower, hdiv, if_pos (by rw [Nat.mul_assoc]; omega)]
  rw [interval_natCast, hlead]
  have hlog := pow_log10_le (m * 2 ^ k) hwhole
  generalize log10 (m * 2 ^ k) (m * 2 ^ k) = lead at hlog
  have hgrid := isPower 10 (by decide) ((lead : Int) - (17 - 1 : Nat))
  generalize hpair : (if 0 ≤ (lead : Int) - (17 - 1 : Nat) then
      (Nat.pow 10 ((lead : Int) - (17 - 1 : Nat)).toNat, 1)
    else (1, Nat.pow 10 (-((lead : Int) - (17 - 1 : Nat))).toNat)) = grid at hgrid
  obtain ⟨up, down⟩ := grid
  obtain ⟨hup, hdown, hratio⟩ := hgrid
  have hfine : up * 10 ^ 16 ≤ m * (2 ^ k * down) := by
    have hscaled : (up : ℚ) * 10 ^ 16 = 10 ^ lead * down := by
      rw [← hratio, Int.sub_eq_add_neg, zpow_add₀ (by norm_num), zpow_natCast]
      norm_num
      ring
    have hnat : up * 10 ^ 16 = 10 ^ lead * down := by exact_mod_cast hscaled
    rw [hnat, ← Nat.mul_assoc]
    exact Nat.mul_le_mul_right down hlog
  have hsmall := two_mul_lt_gap_mul (k := k) hlt (Nat.mul_pos (Nat.two_pow_pos k) hdown) hfine
  have hbelow : 4 * m * 2 ^ k * down / (4 * up) = m * (2 ^ k * down) / up := by
    rw [Nat.mul_assoc, Nat.mul_assoc, Nat.mul_div_mul_left _ _ (by decide)]
  have hgap : gap m k ≤ 2 := by
    rw [gap]
    split <;> decide
  have hnear := between_of_neighbour hm rfl hsmall hgap hup
  refine isSome_candidate?_of_contains hpair.symm ?_
  simp only [hbelow]
  rw [← Nat.mul_assoc (4 * m - gap m k), ← Nat.mul_assoc (4 * m + 2)] at hnear
  refine hnear.imp (fun h => ⟨?_, Interval.contains_of_lt h⟩) Interval.contains_of_lt
  exact (Nat.div_pos (by omega) hup).ne'

/-! ## The shortest decimal -/

/-- The upper end of an interval is half a unit above the number. -/
theorem high_interval (m : Nat) (e : Int) : 0 < (interval m e).den ∧
    ((interval m e).high : ℚ) = (m + 1 / 2) * 2 ^ e * (interval m e).den := by
  have hpower := isPower 2 (by decide) e
  rw [interval]
  generalize (if 0 ≤ e then (Nat.pow 2 e.toNat, 1) else (1, Nat.pow 2 (-e).toNat)) = r at hpower
  obtain ⟨num, den⟩ := r
  obtain ⟨-, hden, hratio⟩ := hpower
  refine ⟨Nat.mul_pos (by decide) hden, ?_⟩
  show (((4 * m + 2) * num : Nat) : ℚ) = (m + 1 / 2) * 2 ^ e * ((4 * den : Nat) : ℚ)
  push_cast at hratio ⊢
  rw [← hratio]
  ring

/-- **The shortest decimal of a number** is at most half a unit above it. What stands in for a decimal
that is not found, if the number is not whole, is below `2 ^ 53`. -/
theorem value_shortest_le {m : Nat} (hm : 0 < m) (hlt : m < 2 ^ 53) (e : Int) :
    0 < (shortest m e).digits ∧
      (shortest m e).value ≤ max (((m : ℚ) + 1 / 2) * 2 ^ e) (2 ^ 53) := by
  rw [shortest, Decimal.value_trim]
  cases hfound : (List.range 17).findSome? fun n =>
      candidate? (interval m e) (leadingPower (interval m e).value (interval m e).den) (n + 1) with
  | some d =>
    obtain ⟨n, -, hd⟩ := List.exists_of_findSome?_eq_some hfound
    obtain ⟨hpos, hle⟩ := candidate?_le hd
    obtain ⟨hden, hhigh⟩ := high_interval m e
    have hden : (0 : ℚ) < (interval m e).den := by exact_mod_cast hden
    rw [hhigh] at hle
    exact ⟨Decimal.digits_trim_pos 18 hpos,
      (le_of_mul_le_mul_right hle hden).trans (le_max_left _ _)⟩
  | none =>
    refine ⟨Decimal.digits_trim_pos 18 hm, le_max_of_le_right ?_⟩
    have hneg : e < 0 := by
      by_contra hnot
      obtain ⟨k, rfl⟩ := Int.eq_ofNat_of_zero_le (not_lt.mp hnot)
      have hsome := isSome_candidate? hm hlt k
      have hnone := List.findSome?_eq_none_iff.mp hfound 16 (by decide)
      rw [hnone] at hsome
      cases hsome
    have hcast : (m : ℚ) ≤ 2 ^ 53 := by exact_mod_cast hlt.le
    have hpower : (10 : ℚ) ^ e ≤ 1 := zpow_le_one_of_nonpos₀ (by norm_num) hneg.le
    calc Decimal.value ⟨m, e⟩ = (m : ℚ) * 10 ^ e := rfl
      _ ≤ m := mul_le_of_le_one_right (Nat.cast_nonneg m) hpower
      _ ≤ 2 ^ 53 := hcast

end Binary64

end SyncJobs
