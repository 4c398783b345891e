import Mathlib.Algebra.Order.Field.Power
import Mathlib.Algebra.Order.Ring.Rat
import Mathlib.Tactic.FieldSimp
import Mathlib.Tactic.Linarith
import Mathlib.Tactic.Ring
import SyncJobs.Proofs.Doubling
import SyncJobs.Settings
import SyncJobs.Verdict

/-!
# Every attempt has a decision

A retry is decided only if its delay is a duration, which floating-point arithmetic could prevent.
It never does: settings that break no rule have delays below `2 ^ 55` seconds, and a number of
`[0, 2 ^ k]` is rounded to a number of `[0, 2 ^ k]` (`Binary64.upTo_ofRatio`). Sums, products and
quotients are exact but for one rounding of the result (`Binary64.IsRounded`). So each step on the
way from the sample of jitter to the delay stays in an interval that is known, and far below the
longest duration (`Backoff.isSome_delayWith?`). Only a sample that is not a number spoils it, and
no source of random samples has such a sample (`Jitter.isNumeric_next`).
-/

namespace SyncJobs

namespace Binary64

/-- **The number lies in `[0, 2 ^ k]`.** A zero may have either sign. -/
def UpTo (k : Nat) : Binary64 → Prop
  | .nan => False
  | .infinity _ => False
  | .finite s m e => (s = true → m = 0) ∧ (m : ℚ) * 2 ^ e ≤ 2 ^ k

/-- **The number lies in `[0, q]`.** -/
def AtMost (q : ℚ) : Binary64 → Prop
  | .nan => False
  | .infinity _ => False
  | .finite s m e => (s = true → m = 0) ∧ (m : ℚ) * 2 ^ e ≤ q

variable {k l : Nat} {p q : ℚ} {x y : Binary64}

theorem upTo_iff : x.UpTo k ↔ x.AtMost (2 ^ k) := by
  cases x <;> exact Iff.rfl

theorem AtMost.mono (h : x.AtMost p) (hpq : p ≤ q) : x.AtMost q := by
  cases x with
  | nan => exact h
  | infinity s => exact h
  | finite s m e => exact ⟨h.1, h.2.trans hpq⟩

theorem AtMost.nonneg (h : x.AtMost q) : 0 ≤ q := by
  cases x with
  | nan => exact h.elim
  | infinity s => exact h.elim
  | finite s m e => exact le_trans (by positivity) h.2

theorem UpTo.mono (h : x.UpTo k) (hkl : k ≤ l) : x.UpTo l :=
  upTo_iff.mpr ((upTo_iff.mp h).mono (pow_le_pow_right₀ one_le_two hkl))

theorem UpTo.ne_nan (h : x.UpTo k) : x ≠ .nan := by
  rintro rfl
  exact h

theorem atMost_zero (s : Bool) (hq : 0 ≤ q) : (zero s).AtMost q := by
  refine ⟨fun _ => rfl, ?_⟩
  rwa [Nat.cast_zero, zero_mul]

theorem upTo_zero (s : Bool) : (zero s).UpTo k := upTo_iff.mpr (atMost_zero s (by positivity))

/-! ## Rounding -/

/-- A whole number at an exponent, counted in a smaller unit. -/
theorem cast_mul_zpow {m : Nat} {e g : Int} (h : g ≤ e) :
    ((m * 2 ^ (e - g).toNat : Nat) : ℚ) * 2 ^ g = m * 2 ^ e := by
  rw [Nat.cast_mul, mul_assoc]
  congr 1
  calc ((2 ^ (e - g).toNat : Nat) : ℚ) * 2 ^ g = 2 ^ ((e - g).toNat : Int) * 2 ^ g := by
        push_cast; rfl
    _ = 2 ^ (((e - g).toNat : Int) + g) := (zpow_add₀ two_ne_zero _ _).symm
    _ = 2 ^ e := by congr 1; omega

/-- A quotient is not rounded beyond a whole number. -/
theorem roundDiv_le {num den n : Nat} (hden : 0 < den) (h : num ≤ n * den) :
    roundDiv num den ≤ n := by
  have hdiv : den * (num / den) + num % den = num := Nat.div_add_mod num den
  have hq : num / den ≤ n := Nat.div_le_of_le_mul (Nat.mul_comm n den ▸ h)
  -- the quotient is rounded up only if something is left over
  have hup : 0 < num % den → num / den + 1 ≤ n := by
    intro hr
    have hlt : den * (num / den) < den * n := by
      rw [Nat.mul_comm den n]
      omega
    exact Nat.lt_of_mul_lt_mul_left hlt
  rw [roundDiv]
  split
  · exact hq
  · split
    · exact hup (by omega)
    · split
      · exact hq
      · exact hup (by omega)

/-- A ratio is rounded at an exponent well below its own size. -/
theorem roundingExponent_le {num den : Nat} (h : num ≤ 2 ^ k * den) :
    roundingExponent num den ≤ max ((k : Int) - 52) minExponent := by
  have hlog : num.log2 ≤ k + den.log2 := by
    by_cases hnum : num = 0
    · rw [hnum, Nat.log2_zero]
      exact Nat.zero_le _
    · have hlt : num < 2 ^ (k + den.log2 + 1) := by
        calc num ≤ 2 ^ k * den := h
          _ < 2 ^ k * 2 ^ (den.log2 + 1) :=
            Nat.mul_lt_mul_of_pos_left Nat.lt_log2_self (Nat.two_pow_pos k)
          _ = 2 ^ (k + den.log2 + 1) := by rw [← Nat.pow_add, Nat.add_assoc]
      exact Nat.le_of_lt_succ ((Nat.log2_lt hnum).mpr hlt)
  rw [roundingExponent]
  refine max_le_max ?_ (le_refl _)
  split <;> omega

theorem scaled_pos (num : Nat) {den : Nat} (hden : 0 < den) (e : Int) :
    0 < (scaled num den e).2 := by
  rw [scaled]
  split
  · exact Nat.mul_pos hden (Nat.two_pow_pos _)
  · exact hden

theorem scaled_le {num den : Nat} {e : Int} (h : num ≤ 2 ^ k * den) (he : e ≤ k) :
    (scaled num den e).1 ≤ 2 ^ (k - e).toNat * (scaled num den e).2 := by
  rw [scaled]
  split
  · calc num ≤ 2 ^ k * den := h
      _ = 2 ^ ((k - e).toNat + e.toNat) * den := by congr 2; omega
      _ = 2 ^ (k - e).toNat * (den * 2 ^ e.toNat) := by rw [Nat.pow_add]; ac_rfl
  · calc num * 2 ^ (-e).toNat ≤ 2 ^ k * den * 2 ^ (-e).toNat := Nat.mul_le_mul_right _ h
      _ = 2 ^ (k + (-e).toNat) * den := by rw [Nat.pow_add]; ac_rfl
      _ = 2 ^ (k - e).toNat * den := by congr 2; omega

/-- A number whose exponent is not too large. -/
theorem atMost_finite {s : Bool} {m : Nat} {e : Int} (hs : s = true → m = 0)
    (h : (m : ℚ) * 2 ^ e ≤ q) (he : e ≤ maxExponent) :
    AtMost q
      (if m = 0 then zero s else if maxExponent < e then .infinity s else .finite s m e) := by
  split
  · exact atMost_zero s (le_trans (by positivity) h)
  · rw [if_neg (not_lt.mpr he)]
    exact ⟨hs, h⟩

/-- **Rounding does not pass a whole multiple** of the unit in which the significand is counted. -/
theorem atMost_ofRatio {s : Bool} {num den : Nat} {e : Int} {c : Nat} (hs : s = true → num = 0)
    (hden : 0 < den) (he : roundingExponent num den = e) (hmax : e < maxExponent)
    (hc : (scaled num den e).1 ≤ c * (scaled num den e).2) :
    (ofRatio s num den).AtMost (c * 2 ^ e) := by
  rw [ofRatio]
  split
  · exact atMost_zero s (by positivity)
  · rename_i hnum
    have hpositive : ∀ {m : Nat}, s = true → m = 0 := fun h => absurd (hs h) hnum
    have hm := roundDiv_le (scaled_pos num hden e) hc
    dsimp only
    rw [he]
    generalize roundDiv (scaled num den e).1 (scaled num den e).2 = m at hm
    have hvalue : (m : ℚ) * 2 ^ e ≤ c * 2 ^ e := by gcongr
    by_cases hcarry : m = 2 * highestBit
    -- the significand is carried over to the next exponent
    · rw [if_pos hcarry]
      refine atMost_finite hpositive (le_trans (le_of_eq ?_) hvalue) hmax
      rw [hcarry, zpow_add_one₀ two_ne_zero]
      push_cast
      ring
    · rw [if_neg hcarry]
      exact atMost_finite hpositive hvalue hmax.le

/-- **Rounding keeps numbers in `[0, 2 ^ k]`.** -/
theorem upTo_ofRatio {s : Bool} {num den : Nat} (hs : s = true → num = 0) (hden : 0 < den)
    (h : num ≤ 2 ^ k * den) (hk : k ≤ 1000) : (ofRatio s num den).UpTo k := by
  have he := roundingExponent_le h
  have hmin : minExponent = -1074 := rfl
  have hmax : maxExponent = 971 := rfl
  have hround := atMost_ofRatio hs hden rfl (by omega) (scaled_le h (by omega))
  refine upTo_iff.mpr (hround.mono (le_of_eq ?_))
  generalize roundingExponent num den = e at he
  have hunit := cast_mul_zpow (m := 1) (show e ≤ k by omega)
  rw [Nat.one_mul, Nat.cast_one, one_mul, zpow_natCast] at hunit
  exact hunit

/-- A natural number up to `2 ^ 52` is not rounded. -/
theorem atMost_ofNat {n : Nat} (h : n ≤ 2 ^ 52) : (ofNat n).AtMost n := by
  have he : roundingExponent n 1 ≤ 0 := roundingExponent_le (k := 52) (by omega)
  have hmax : maxExponent = 971 := rfl
  have hscaled : (scaled n 1 (roundingExponent n 1)).1 ≤
      n * 2 ^ (-roundingExponent n 1).toNat * (scaled n 1 (roundingExponent n 1)).2 := by
    generalize roundingExponent n 1 = e at he
    rw [scaled]
    split
    · obtain rfl : e = 0 := by omega
      simp
    · simp
  have hround := atMost_ofRatio (s := false) nofun Nat.one_pos rfl (by omega) hscaled
  refine hround.mono (le_of_eq ?_)
  generalize roundingExponent n 1 = e at he
  have hunit := cast_mul_zpow (m := n) he
  rw [zero_sub, zpow_zero, mul_one] at hunit
  exact hunit

/-- **The number is rounded** from a ratio in `[0, q]`. -/
def IsRounded (q : ℚ) (x : Binary64) : Prop :=
  ∃ (s : Bool) (num den : Nat), (s = true → num = 0) ∧ 0 < den ∧ (num : ℚ) / den ≤ q ∧
    x = ofRatio s num den

theorem IsRounded.mono (h : x.IsRounded p) (hpq : p ≤ q) : x.IsRounded q := by
  obtain ⟨s, num, den, hs, hden, hle, hx⟩ := h
  exact ⟨s, num, den, hs, hden, hle.trans hpq, hx⟩

theorem IsRounded.upTo (h : x.IsRounded (2 ^ k)) (hk : k ≤ 1000) : x.UpTo k := by
  obtain ⟨s, num, den, hs, hden, hle, rfl⟩ := h
  rw [div_le_iff₀ (by exact_mod_cast hden)] at hle
  exact upTo_ofRatio hs hden (by exact_mod_cast hle) hk

theorem isRounded_zero (s : Bool) (hq : 0 ≤ q) : (zero s).IsRounded q :=
  ⟨s, 0, 1, fun _ => rfl, Nat.one_pos, by simpa using hq, rfl⟩

/-- Rounding a whole multiple of a power of two. -/
theorem isRounded_ofScaled {s : Bool} {m : Nat} {e : Int} (hs : s = true → m = 0)
    (h : (m : ℚ) * 2 ^ e ≤ q) : (ofScaled s m e).IsRounded q := by
  rw [ofScaled]
  split
  · rename_i he
    obtain ⟨n, rfl⟩ := Int.eq_ofNat_of_zero_le he
    refine ⟨s, _, 1, fun h => ?_, Nat.one_pos, ?_, rfl⟩
    · rw [hs h, Nat.zero_mul]
    · rw [zpow_natCast] at h
      rw [Nat.cast_one, div_one]
      exact_mod_cast h
  · rename_i he
    obtain ⟨n, rfl⟩ : ∃ n : Nat, e = -n := ⟨(-e).toNat, by omega⟩
    refine ⟨s, m, _, hs, Nat.two_pow_pos _, ?_, rfl⟩
    rw [zpow_neg, zpow_natCast, ← div_eq_mul_inv] at h
    rw [Int.neg_neg, Int.toNat_natCast]
    exact_mod_cast h

/-! ## Arithmetic -/

/-- A product is rounded once. -/
theorem AtMost.mul (hx : x.AtMost p) (hy : y.AtMost q) : (x.mul y).IsRounded (p * q) := by
  have hp := hx.nonneg
  cases x with
  | nan => exact hx.elim
  | infinity s => exact hx.elim
  | finite s m e =>
    cases y with
    | nan => exact hy.elim
    | infinity t => exact hy.elim
    | finite t n f =>
      refine isRounded_ofScaled (fun hst => ?_) ?_
      · cases s with
        | true => rw [hx.1 rfl, Nat.zero_mul]
        | false => rw [hy.1 (by simpa using hst), Nat.mul_zero]
      · calc ((m * n : Nat) : ℚ) * 2 ^ (e + f) = m * 2 ^ e * (n * 2 ^ f) := by
              rw [zpow_add₀ two_ne_zero, Nat.cast_mul]; ring
          _ ≤ p * q := mul_le_mul hx.2 hy.2 (by positivity) hp

/-- Products of numbers that are not too large. -/
theorem UpTo.mul (hx : x.UpTo k) (hy : y.UpTo l) (hkl : k + l ≤ 1000) : (x.mul y).UpTo (k + l) := by
  have hround := (upTo_iff.mp hx).mul (upTo_iff.mp hy)
  rw [← pow_add] at hround
  exact hround.upTo hkl

/-- A number that is not negative, as a multiple of a power of two. -/
theorem signedAt_eq {s : Bool} {m : Nat} (hs : s = true → m = 0) (e g : Int) :
    signedAt s m e g = ((m * 2 ^ (e - g).toNat : Nat) : Int) := by
  rw [signedAt]
  cases s with
  | true =>
    rw [hs rfl]
    simp
  | false => rfl

/-- A sum is rounded once. -/
theorem AtMost.add (hx : x.AtMost p) (hy : y.AtMost q) : (x.add y).IsRounded (p + q) := by
  have hsum := add_nonneg hx.nonneg hy.nonneg
  cases x with
  | nan => exact hx.elim
  | infinity s => exact hx.elim
  | finite s m e =>
    cases y with
    | nan => exact hy.elim
    | infinity t => exact hy.elim
    | finite t n f =>
      rw [Binary64.add]
      simp only [signedAt_eq hx.1, signedAt_eq hy.1, ← Int.natCast_add]
      split
      · exact isRounded_zero _ hsum
      · rw [Int.natAbs_natCast]
        refine isRounded_ofScaled (fun h => absurd (of_decide_eq_true h) (by omega)) ?_
        rw [Nat.cast_add, add_mul, cast_mul_zpow (min_le_left e f), cast_mul_zpow (min_le_right e f)]
        exact add_le_add hx.2 hy.2

/-- Sums of numbers that are not too large. -/
theorem UpTo.add (hx : x.UpTo k) (hy : y.UpTo k) (hk : k + 1 ≤ 1000) : (x.add y).UpTo (k + 1) := by
  have hround := (upTo_iff.mp hx).add (upTo_iff.mp hy)
  rw [← mul_two, ← pow_succ] at hround
  exact hround.upTo hk

/-- A quotient is rounded once. -/
theorem AtMost.div {n : Nat} {f : Int} (hx : x.AtMost p) (hn : n ≠ 0) :
    (x.div (.finite false n f)).IsRounded (p / (n * 2 ^ f)) := by
  have hpos : 0 < n := Nat.pos_of_ne_zero hn
  have hcast : (0 : ℚ) < n := by exact_mod_cast hpos
  cases x with
  | nan => exact hx.elim
  | infinity s => exact hx.elim
  | finite s m e =>
    have hs : (s != false) = true → m = 0 := fun h => hx.1 (by simpa using h)
    have hle : (m : ℚ) * 2 ^ e / (n * 2 ^ f) ≤ p / (n * 2 ^ f) := by
      gcongr
      exact hx.2
    rw [Binary64.div, if_neg hn]
    split
    · rename_i hfe
      refine ⟨_, _, n, fun h => ?_, hpos, le_trans (le_of_eq ?_) hle, rfl⟩
      · rw [hs h, Nat.zero_mul]
      · rw [← cast_mul_zpow hfe, mul_div_mul_right _ _ (by positivity)]
        rfl
    · rename_i hef
      refine ⟨_, m, _, hs, Nat.mul_pos hpos (Nat.two_pow_pos _), le_trans (le_of_eq ?_) hle, rfl⟩
      rw [← cast_mul_zpow (Int.le_of_lt (Int.not_le.mp hef)), mul_div_mul_right _ _ (by positivity)]

/-- Quotients by numbers that are not too small. -/
theorem UpTo.div {n : Nat} {f : Int} (hx : x.UpTo (k + l)) (hn : (2 : ℚ) ^ l ≤ n * 2 ^ f)
    (hk : k ≤ 1000) : (x.div (.finite false n f)).UpTo k := by
  have hpos : n ≠ 0 := by
    rintro rfl
    rw [Nat.cast_zero, zero_mul] at hn
    exact absurd hn (not_le.mpr (by positivity))
  refine (((upTo_iff.mp hx).div hpos).mono ?_).upTo hk
  have hdivisor : (0 : ℚ) < n * 2 ^ f := lt_of_lt_of_le (by positivity) hn
  rw [div_le_iff₀ hdivisor, pow_add]
  gcongr

/-! ## Intervals -/

theorem ofNat_one : ofNat 1 = .finite false (2 ^ 52) (-52) := by decide +kernel

theorem ofNat_billion : ofNat 1000000000 = .finite false (1000000000 * 2 ^ 23) (-23) := by
  decide +kernel

/-- What is not below zero and not above one lies in `[0, 1]`. -/
theorem upTo_of_not_lt {s : Bool} {m : Nat} {e : Int} (hlow : ¬ lt (.finite s m e) (zero false))
    (hhigh : ¬ lt (ofNat 1) (.finite s m e)) : UpTo 0 (.finite s m e) := by
  have hs : s = true → m = 0 := by
    rintro rfl
    simp only [zero, lt, decide_eq_true_eq, signedAt, if_true, Nat.zero_mul, Bool.false_eq_true,
      if_false] at hlow
    have hpos := Nat.two_pow_pos (e - min e minExponent).toNat
    have hneg : ¬ -((m * 2 ^ (e - min e minExponent).toNat : Nat) : Int) < 0 := hlow
    refine (Nat.mul_eq_zero.mp ?_).resolve_right hpos.ne'
    omega
  refine ⟨hs, ?_⟩
  rw [ofNat_one] at hhigh
  simp only [lt, decide_eq_true_eq, signedAt_eq hs, signedAt_eq (s := false) nofun,
    Int.ofNat_lt, not_lt] at hhigh
  have hle : ((m * 2 ^ (e - min (-52) e).toNat : Nat) : ℚ) * 2 ^ min (-52) e ≤
      ((2 ^ 52 * 2 ^ (-52 - min (-52) e).toNat : Nat) : ℚ) * 2 ^ min (-52) e := by gcongr
  rw [cast_mul_zpow (min_le_right _ _), cast_mul_zpow (min_le_left _ _)] at hle
  exact hle.trans (le_of_eq (by norm_num))

/-- What is a number lies in `[0, 1]` after it is brought there. -/
theorem upTo_clamp (hx : x ≠ .nan) : (clamp (zero false) (ofNat 1) x).UpTo 0 := by
  have hone : (ofNat 1).UpTo 0 := upTo_ofRatio nofun Nat.one_pos (le_refl _) (Nat.zero_le _)
  rw [clamp]
  by_cases hlow : lt x (zero false)
  · have hzero : ¬ lt (ofNat 1) (zero false) := by decide +kernel
    rw [if_pos hlow, if_neg hzero]
    exact upTo_zero false
  · rw [if_neg hlow]
    by_cases hhigh : lt (ofNat 1) x
    · rw [if_pos hhigh]
      exact hone
    · rw [if_neg hhigh]
      cases x with
      | nan => exact absurd rfl hx
      | infinity s =>
        cases s with
        | true => exact absurd rfl hlow
        | false =>
          rw [ofNat_one] at hhigh
          exact absurd rfl hhigh
      | finite s m e => exact upTo_of_not_lt hlow hhigh

end Binary64

namespace Duration

theorem isSome_ofNanos? {n : Nat} (h : n ≤ 2 ^ 63 * 1000000000) : (ofNanos? n).isSome := by
  rw [ofNanos?, dif_pos (by omega)]
  rfl

/-- A number that is not too large is a duration in seconds. -/
theorem isSome_ofFloatSeconds? {k : Nat} {x : Binary64} (h : x.UpTo k) (hk : k ≤ 63) :
    (ofFloatSeconds? x).isSome := by
  cases x with
  | nan => exact h.elim
  | infinity s => exact h.elim
  | finite s m e =>
    obtain ⟨hs, hle⟩ := h
    have hle : (m : ℚ) * 2 ^ e ≤ 2 ^ 63 := hle.trans (pow_le_pow_right₀ one_le_two hk)
    rw [ofFloatSeconds?, if_neg (fun h => h.2 (hs h.1))]
    split
    · rename_i he
      obtain ⟨n, rfl⟩ := Int.eq_ofNat_of_zero_le he
      have hle : m * 2 ^ n ≤ 2 ^ 63 := by
        rw [zpow_natCast] at hle
        exact_mod_cast hle
      split
      · exact isSome_ofNanos? (Nat.mul_le_mul_right _ hle)
      · rename_i hn
        have hzero : m = 0 := by
          refine Nat.eq_zero_of_not_pos fun hm => ?_
          have hpow : 2 ^ 64 ≤ 2 ^ n := Nat.pow_le_pow_right (by decide) (by omega)
          have hmul : 1 * 2 ^ n ≤ m * 2 ^ n := Nat.mul_le_mul_right _ hm
          omega
        rw [if_pos hzero]
        rfl
    · obtain ⟨n, rfl⟩ : ∃ n : Nat, e = -n := ⟨(-e).toNat, by omega⟩
      refine isSome_ofNanos? (Binary64.roundDiv_le (Nat.two_pow_pos _) ?_)
      rw [zpow_neg, zpow_natCast, ← div_eq_mul_inv, div_le_iff₀ (by positivity)] at hle
      have hle : m ≤ 2 ^ 63 * 2 ^ n := by exact_mod_cast hle
      calc m * 1000000000 ≤ 2 ^ 63 * 2 ^ n * 1000000000 := Nat.mul_le_mul_right _ hle
        _ = 2 ^ 63 * 1000000000 * 2 ^ n := by ac_rfl
        _ = 2 ^ 63 * 1000000000 * 2 ^ (-(-(n : Int))).toNat := by
          rw [Int.neg_neg, Int.toNat_natCast]

/-- The seconds of a duration that is not too long. -/
theorem upTo_seconds {d : Duration} (h : d.nanos ≤ 2 ^ 55 * 1000000000) : d.seconds.UpTo 56 := by
  have hwhole : (Binary64.ofNat (d.nanos / 1000000000)).UpTo 55 :=
    Binary64.upTo_ofRatio nofun Nat.one_pos (by omega) (by decide)
  have hrest : (Binary64.ofNat (d.nanos % 1000000000)).UpTo (1 + 29) :=
    Binary64.upTo_ofRatio nofun Nat.one_pos (by omega) (by decide)
  rw [seconds, Binary64.ofNat_billion]
  refine hwhole.add ((hrest.div ?_ (by decide)).mono (by decide)) (by decide)
  norm_num

end Duration

namespace Backoff

variable {b : Backoff} {sample : Binary64}

/-- The share of the delay that jitter adds lies in `[0, 1]`. -/
theorem upTo_share (hratio : b.jitterRatio ≠ .nan) (hsample : sample ≠ .nan) :
    (b.share sample).UpTo 0 :=
  (Binary64.upTo_clamp hratio).mul (Binary64.upTo_clamp hsample) (Nat.zero_le _)

/-- **Every retry has a delay** if the longest one is below `2 ^ 55` seconds, and the sample and the
share of jitter are numbers. -/
theorem isSome_delayWith? (hcap : b.cap.nanos ≤ 2 ^ 55 * 1000000000) (hratio : b.jitterRatio ≠ .nan)
    (hsample : sample ≠ .nan) (n : UInt32) : (b.delayWith? n sample).isSome := by
  have hseconds := Duration.upTo_seconds ((b.nanos_delay_le n).trans hcap)
  rw [delayWith?, Option.isSome_map, Duration.scale?]
  exact Duration.isSome_ofFloatSeconds? ((upTo_share hratio hsample).mul hseconds (by decide))
    (by decide)

end Backoff

/-! ## Samples -/

namespace Jitter

/-- **All samples of the source are numbers.** -/
def IsNumeric : Jitter → Prop
  | .constant x => x ≠ .nan
  | .cycle ahead all => (∀ x ∈ ahead, x ≠ .nan) ∧ ∀ x ∈ all, x ≠ .nan
  | .stream _ _ => True

/-- Random samples are numbers. -/
theorem sampleOf_ne_nan (w : UInt64) : sampleOf w ≠ .nan := by
  have hw : (w >>> 12).toNat ≤ 2 ^ 0 * Binary64.highestBit := by
    have hlt := w.toNat_lt
    have hbit : Binary64.highestBit = 4503599627370496 := by decide
    rw [UInt64.toNat_shiftRight, Nat.shiftRight_eq_div_pow, hbit]
    show w.toNat / 2 ^ 12 ≤ _
    omega
  have hword : (Binary64.ofRatio false (w >>> 12).toNat Binary64.highestBit).UpTo 0 :=
    Binary64.upTo_ofRatio nofun (by decide) hw (by decide)
  have hstretch : stretch.UpTo 1 := Binary64.upTo_ofRatio nofun (by decide) (by decide) (by decide)
  exact ((hword.mul hstretch (by decide)).add (Binary64.upTo_zero false) (by decide)).ne_nan

/-- **A numeric source yields numbers,** and stays numeric. -/
theorem isNumeric_next {j : Jitter} (h : j.IsNumeric) : j.next.1 ≠ .nan ∧ j.next.2.IsNumeric := by
  cases j with
  | constant x => exact ⟨h, h⟩
  | cycle ahead all =>
    obtain ⟨hahead, hall⟩ := h
    cases ahead with
    | cons x ahead =>
      exact ⟨hahead x List.mem_cons_self, fun y hy => hahead y (List.mem_cons_of_mem _ hy), hall⟩
    | nil =>
      cases all with
      | nil => exact ⟨nofun, hahead, hall⟩
      | cons x rest =>
        exact ⟨hall x List.mem_cons_self, fun y hy => hall y (List.mem_cons_of_mem _ hy), hall⟩
  | stream key n => exact ⟨sampleOf_ne_nan _, trivial⟩

end Jitter

/-! ## Decisions -/

namespace Settings.Valid

variable {s : Settings} {sample : Binary64}

theorem jitterRatio_ne_nan (h : s.Valid) : s.backoff.policy.jitterRatio ≠ .nan := by
  have hwithin := h.jitter
  rw [Binary64.within] at hwithin
  simp only [Bool.and_eq_true, bne_iff_ne, ne_eq] at hwithin
  exact hwithin.1.1

/-- **Every retry has a delay,** with settings that break no rule and a sample that is a number. -/
theorem isSome_delayWith? (h : s.Valid) (hsample : sample ≠ .nan) (n : UInt32) :
    (s.backoff.policy.delayWith? n sample).isSome := by
  have hcap : s.backoff.policy.cap.nanos ≤ 2 ^ 55 * 1000000000 := by
    have hmillis := s.backoff.capMillis.toNat_lt
    show (Duration.ofMillis s.backoff.capMillis).nanos ≤ _
    rw [Duration.nanos_ofMillis]
    omega
  exact Backoff.isSome_delayWith? hcap h.jitterRatio_ne_nan hsample n

/-- **Every attempt has a decision,** with settings that break no rule and a sample that is a
number. -/
theorem isSome_decide? (h : s.Valid) (j : Job) (outcome : Outcome) (now : Instant)
    (hsample : sample ≠ .nan) : (j.decide? s.backoff.policy outcome now sample).isSome :=
  Job.isSome_decide? (h.isSome_delayWith? hsample _) outcome now

end Settings.Valid

end SyncJobs
