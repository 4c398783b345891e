import Mathlib.Algebra.Order.Field.Basic
import SyncJobs.Binary64.Decimal
import SyncJobs.Proofs.Rounding

/-!
# Decimals that are not too large are read

A ratio is rounded to infinity only if it is at least half-way between the greatest number and the
next power of two (`Binary64.exists_ofRatio`), and a ratio above one is rounded by no more than the
`2 ^ 53`-th part of it. A decimal is read in three roundings: of its digits, of a power of ten, and
of their product. So it is read as a number if it is a little below that limit
(`Binary64.isSome_ofScaledDigits`).
-/

namespace SyncJobs

namespace Binary64

/-! ## Rounding -/

/-- **The least ratio that is rounded to infinity.** -/
def tooLarge : ℚ := (2 ^ 53 - 1 / 2) * 2 ^ 971

/-- A quotient is rounded up by a half at most. -/
theorem roundDiv_le_add_half (num : Nat) {den : Nat} (hden : 0 < den) :
    (roundDiv num den : ℚ) ≤ num / den + 1 / 2 := by
  have hdiv : den * (num / den) + num % den = num := Nat.div_add_mod num den
  have hnat : 2 * (roundDiv num den * den) ≤ 2 * num + den := by
    rw [roundDiv, Nat.mul_comm _ den]
    split
    · omega
    · split
      · rw [Nat.mul_add]
        omega
      · split
        · omega
        · rw [Nat.mul_add]
          omega
  have hcast : (2 : ℚ) * (roundDiv num den * den) ≤ 2 * num + den := by exact_mod_cast hnat
  have hpos : (0 : ℚ) < den := by exact_mod_cast hden
  rw [div_add_div _ _ hpos.ne' two_ne_zero, le_div_iff₀ (by positivity)]
  linarith

/-- A ratio that is scaled down by a power of two. -/
theorem scaled_eq (num den : Nat) (e : Int) :
    ((scaled num den e).1 : ℚ) / (scaled num den e).2 = num / den / 2 ^ e := by
  rw [scaled]
  split
  · rename_i he
    obtain ⟨n, rfl⟩ := Int.eq_ofNat_of_zero_le he
    show (num : ℚ) / ((den * 2 ^ n : Nat) : ℚ) = _
    push_cast
    rw [zpow_natCast, div_div]
  · rename_i he
    obtain ⟨n, rfl⟩ : ∃ n : Nat, e = -n := ⟨(-e).toNat, by omega⟩
    rw [Int.neg_neg]
    show ((num * 2 ^ n : Nat) : ℚ) / den = _
    push_cast
    rw [zpow_neg, zpow_natCast, div_inv_eq_mul, div_mul_eq_mul_div]

/-- A ratio is not rounded at an exponent above its own size. -/
theorem le_ratio {num den : Nat} (hnum : num ≠ 0) (hden : 0 < den)
    (h : minExponent < roundingExponent num den) :
    (2 : ℚ) ^ 52 * 2 ^ roundingExponent num den ≤ num / den := by
  have hpos : (0 : ℚ) < den := by exact_mod_cast hden
  rw [roundingExponent] at h ⊢
  rw [max_eq_left (le_of_lt ((lt_max_iff.mp h).resolve_right (lt_irrefl _)))]
  split
  -- the logarithms of numerator and denominator tell the size but for a factor of two
  · have hlow : ((2 ^ num.log2 : Nat) : ℚ) ≤ num := by
      exact_mod_cast Nat.log2_self_le hnum
    have hhigh : (den : ℚ) ≤ ((2 ^ (den.log2 + 1) : Nat) : ℚ) := by
      exact_mod_cast Nat.lt_log2_self.le
    rw [le_div_iff₀ hpos]
    calc (2 : ℚ) ^ 52 * 2 ^ ((num.log2 : Int) - den.log2 - 52 - 1) * den
        ≤ 2 ^ 52 * 2 ^ ((num.log2 : Int) - den.log2 - 52 - 1) * ((2 ^ (den.log2 + 1) : Nat) : ℚ) := by
          gcongr
      _ = 2 ^ ((52 : Int) + ((num.log2 : Int) - den.log2 - 52 - 1) + ((den.log2 + 1 : Nat) : Int)) := by
          rw [zpow_add₀ two_ne_zero, zpow_add₀ two_ne_zero]
          push_cast
          rfl
      _ = ((2 ^ num.log2 : Nat) : ℚ) := by
          push_cast
          rw [← zpow_natCast]
          congr 1
          omega
      _ ≤ num := hlow
  · rename_i hq
    have hscaled := scaled_pos num hden ((num.log2 : Int) - den.log2 - 52)
    have hratio := scaled_eq num den ((num.log2 : Int) - den.log2 - 52)
    generalize scaled num den ((num.log2 : Int) - den.log2 - 52) = s at hq hscaled hratio
    have hle : highestBit * s.2 ≤ s.1 := (Nat.le_div_iff_mul_le hscaled).mp (Nat.le_of_not_lt hq)
    have hcast : (2 : ℚ) ^ 52 * s.2 ≤ s.1 := by exact_mod_cast hle
    have hpos : (0 : ℚ) < s.2 := by exact_mod_cast hscaled
    rw [← le_div_iff₀ hpos, hratio, le_div_iff₀ (by positivity)] at hcast
    exact hcast

/-- **A ratio that is not too large** is rounded to a number, by half a unit in its last place at
most. -/
theorem exists_ofRatio {s : Bool} (num : Nat) {den : Nat} (hden : 0 < den)
    (h : (num : ℚ) / den < tooLarge) : ∃ m e, ofRatio s num den = .finite s m e ∧
      (m : ℚ) * 2 ^ e ≤ num / den + 2 ^ roundingExponent num den / 2 := by
  rw [ofRatio]
  split
  · refine ⟨0, minExponent, rfl, ?_⟩
    rw [Nat.cast_zero, zero_mul]
    positivity
  · rename_i hnum
    have hratio := le_ratio hnum hden
    dsimp only
    generalize roundingExponent num den = e at hratio
    have hround := roundDiv_le_add_half (scaled num den e).1 (scaled_pos num hden e)
    rw [scaled_eq] at hround
    generalize roundDiv (scaled num den e).1 (scaled num den e).2 = m at hround
    have hvalue : (m : ℚ) * 2 ^ e ≤ num / den + 2 ^ e / 2 := by
      calc (m : ℚ) * 2 ^ e ≤ (num / den / 2 ^ e + 1 / 2) * 2 ^ e := by gcongr
        _ = num / den + 2 ^ e / 2 := by field_simp
    have hmin : minExponent = -1074 := rfl
    have hmax : maxExponent = 971 := rfl
    have htop : (0 : ℚ) < 2 ^ 971 := by positivity
    rw [tooLarge] at h
    -- the exponent is in range, and at its end the significand is not carried over
    have hle : e ≤ maxExponent := by
      by_contra hlt
      have hbig : (2 : ℚ) ^ ((971 : Nat) + 1 : Int) ≤ 2 ^ e :=
        zpow_le_zpow_right₀ one_le_two (by omega)
      have hlow := hratio (by omega)
      rw [zpow_add_one₀ two_ne_zero, zpow_natCast] at hbig
      generalize (2 : ℚ) ^ 971 = top at h htop hbig
      linarith
    have hcarry : m = 2 * highestBit → e + 1 ≤ maxExponent := by
      intro hm
      by_contra hlt
      obtain rfl : e = (971 : Nat) := by omega
      have hbit : (m : ℚ) = 2 ^ 53 := by exact_mod_cast hm
      rw [hbit, zpow_natCast, ← sub_le_iff_le_add, le_div_iff₀ htop] at hround
      exact absurd hround (not_le.mpr h)
    by_cases hm : m = 2 * highestBit
    · have hsame : ((highestBit : Nat) : ℚ) * 2 ^ (e + 1) = m * 2 ^ e := by
        rw [hm, zpow_add_one₀ two_ne_zero]
        push_cast
        ring
      have hbit : highestBit ≠ 0 := by decide
      simp only [if_pos hm, if_neg hbit, if_neg (not_lt.mpr (hcarry hm))]
      exact ⟨_, _, rfl, hsame.trans_le hvalue⟩
    · rw [if_neg hm]
      dsimp only
      split
      · refine ⟨0, minExponent, rfl, ?_⟩
        rw [Nat.cast_zero, zero_mul]
        positivity
      · rw [if_neg (not_lt.mpr hle)]
        exact ⟨m, e, rfl, hvalue⟩

/-- A ratio above one is rounded up by its `2 ^ 53`-th part at most. -/
theorem exists_ofRatio_of_one_le {s : Bool} {num den : Nat} (hden : 0 < den) (hone : den ≤ num)
    (h : (num : ℚ) / den < tooLarge) : ∃ m e, ofRatio s num den = .finite s m e ∧
      (m : ℚ) * 2 ^ e ≤ num / den * (1 + 1 / 2 ^ 53) := by
  obtain ⟨m, e, hround, hvalue⟩ := exists_ofRatio (s := s) num hden h
  refine ⟨m, e, hround, hvalue.trans ?_⟩
  have hunit : (2 : ℚ) ^ 52 * 2 ^ roundingExponent num den ≤ num / den := by
    have hmin : minExponent ≤ roundingExponent num den := le_max_right _ _
    obtain hlt | heq := hmin.lt_or_eq
    · exact le_ratio (by omega) hden hlt
    -- at the least exponent, the significand of a ratio above one would be huge
    · have hpos : (0 : ℚ) < den := by exact_mod_cast hden
      have hle : (1 : ℚ) ≤ num / den := by
        rw [le_div_iff₀ hpos, one_mul]
        exact_mod_cast hone
      refine le_trans ?_ hle
      calc (2 : ℚ) ^ 52 * 2 ^ roundingExponent num den
          = 2 ^ ((52 : Nat) + minExponent) := by
            rw [← heq, zpow_add₀ two_ne_zero, zpow_natCast]
        _ ≤ 2 ^ (0 : Int) := zpow_le_zpow_right₀ one_le_two (by decide)
        _ = 1 := zpow_zero 2
  linarith

/-- What is below a power of two is rounded at an exponent `53` below its own at most. -/
theorem half_unit_le {num den k : Nat} (hnum : num ≠ 0) (hden : 0 < den)
    (h : (num : ℚ) / den < 2 ^ k) :
    (2 : ℚ) ^ roundingExponent num den / 2 ≤ 2 ^ k / 2 ^ 54 := by
  have hmin : minExponent = -1074 := rfl
  have hexponent : roundingExponent num den ≤ k - 53 := by
    by_contra hlarge
    have hlow := (le_ratio hnum hden (by omega)).trans_lt h
    rw [← zpow_natCast, ← zpow_natCast, ← zpow_add₀ two_ne_zero] at hlow
    have hlt := (zpow_lt_zpow_iff_right₀ one_lt_two).mp hlow
    omega
  calc (2 : ℚ) ^ roundingExponent num den / 2 ≤ 2 ^ ((k : Int) - 53) / 2 := by
        gcongr
        exact one_le_two
    _ = 2 ^ k / 2 ^ 53 / 2 := by
        rw [zpow_sub₀ two_ne_zero, zpow_natCast]
        rfl
    _ = 2 ^ k / 2 ^ 54 := by ring

/-- **What is below a power of two** is rounded up by the `2 ^ 54`-th part of that power at most. -/
theorem IsRounded.atMost {k : Nat} {q : ℚ} {x : Binary64} (h : x.IsRounded q) (hq : q < 2 ^ k)
    (hk : k ≤ 1000) : x.AtMost (q + 2 ^ k / 2 ^ 54) := by
  obtain ⟨s, num, den, hs, hden, hle, rfl⟩ := h
  have hratio : (num : ℚ) / den < 2 ^ k := hle.trans_lt hq
  have hfits : (2 : ℚ) ^ k < tooLarge := by
    calc (2 : ℚ) ^ k ≤ 2 ^ 1000 := pow_le_pow_right₀ one_le_two hk
      _ = 2 ^ 29 * 2 ^ 971 := pow_add 2 29 971
      _ < tooLarge := mul_lt_mul_of_pos_right (by norm_num) (by positivity)
  obtain ⟨m, e, hround, hvalue⟩ := exists_ofRatio (s := s) num hden (hratio.trans hfits)
  by_cases hnum : num = 0
  · rw [hnum]
    exact atMost_zero s (add_nonneg (le_trans (by positivity) hle) (by positivity))
  · rw [hround]
    exact ⟨fun h => absurd (hs h) hnum,
      hvalue.trans (add_le_add hle (half_unit_le hnum hden hratio))⟩

/-! ## Reading -/

/-- A product that is not too large is a number. -/
theorem exists_mul {m n : Nat} {e f : Int}
    (h : ((m : ℚ) * 2 ^ e) * (n * 2 ^ f) < tooLarge) :
    ∃ k g, mul (.finite false m e) (.finite false n f) = .finite false k g := by
  have hvalue : ((m * n : Nat) : ℚ) * 2 ^ (e + f) < tooLarge := by
    refine lt_of_eq_of_lt ?_ h
    rw [zpow_add₀ two_ne_zero]
    push_cast
    ring
  rw [mul, ofScaled]
  generalize e + f = g at hvalue
  split
  · rename_i hg
    obtain ⟨k, rfl⟩ := Int.eq_ofNat_of_zero_le hg
    obtain ⟨m', e', hround, -⟩ := exists_ofRatio (s := false) (m * n * 2 ^ k) Nat.one_pos (by
      rw [zpow_natCast] at hvalue
      push_cast at hvalue ⊢
      rwa [div_one])
    exact ⟨m', e', hround⟩
  · rename_i hg
    obtain ⟨k, rfl⟩ : ∃ k : Nat, g = -k := ⟨(-g).toNat, by omega⟩
    obtain ⟨m', e', hround, -⟩ := exists_ofRatio (s := false) (m * n) (Nat.two_pow_pos k) (by
      rw [zpow_neg, zpow_natCast] at hvalue
      push_cast at hvalue ⊢
      rwa [div_eq_mul_inv])
    rw [Int.neg_neg]
    exact ⟨m', e', hround⟩

/-- Zero times whatever is never infinite. -/
theorem zero_mul_ne_infinity (x : Binary64) (s : Bool) : mul (zero false) x ≠ .infinity s := by
  cases x with
  | nan => rintro ⟨⟩
  | infinity t => rintro ⟨⟩
  | finite t m e =>
    rw [zero, mul, Nat.zero_mul, ofScaled]
    split
    · rw [Nat.zero_mul, ofRatio]
      rintro ⟨⟩
    · rw [ofRatio]
      rintro ⟨⟩

/-- A natural number, as it is rounded. -/
theorem exists_ofNat {n : Nat} (hn : 0 < n) (h : (n : ℚ) < tooLarge) :
    ∃ m e, ofNat n = .finite false m e ∧ (m : ℚ) * 2 ^ e ≤ n * (1 + 1 / 2 ^ 53) := by
  have hratio := exists_ofRatio_of_one_le (s := false) Nat.one_pos hn (by rwa [Nat.cast_one, div_one])
  rwa [Nat.cast_one, div_one] at hratio

/-- **The limit for decimals,** which leaves room for the roundings of the digits and of the power
of ten. -/
def roomy : ℚ := (2 ^ 53 - 5 / 2) * 2 ^ 971

/-- Both roundings stay below what is rounded to infinity. -/
theorem roomy_lt : roomy * (1 + 1 / 2 ^ 53) * (1 + 1 / 2 ^ 53) < tooLarge := by
  have htop : (0 : ℚ) < 2 ^ 971 := by positivity
  rw [roomy, tooLarge]
  generalize (2 : ℚ) ^ 971 = top at htop
  calc (2 ^ 53 - 5 / 2) * top * (1 + 1 / 2 ^ 53) * (1 + 1 / 2 ^ 53)
      = (2 ^ 53 - 5 / 2) * (1 + 1 / 2 ^ 53) * (1 + 1 / 2 ^ 53) * top := by ring
    _ < (2 ^ 53 - 1 / 2) * top := mul_lt_mul_of_pos_right (by norm_num) htop

theorem roomy_pos : 0 < roomy := mul_pos (by norm_num) (by positivity)

/-- What leaves room is not rounded to infinity. -/
theorem lt_tooLarge_of_le_roomy {q : ℚ} (h : q ≤ roomy) : q < tooLarge := by
  refine lt_of_le_of_lt (h.trans ?_) roomy_lt
  rw [mul_assoc]
  exact le_mul_of_one_le_right roomy_pos.le (by norm_num)

/-- No power of ten with more digits leaves room. -/
theorem roomy_lt_pow : roomy < 10 ^ 309 := by
  have hnat : 2 ^ 53 * 2 ^ 971 < 10 ^ 309 := by decide +kernel
  calc roomy ≤ 2 ^ 53 * 2 ^ 971 := mul_le_mul_of_nonneg_right (by norm_num) (by positivity)
    _ < 10 ^ 309 := by exact_mod_cast hnat

/-- **A decimal that leaves room is read.** -/
theorem isSome_ofScaledDigits {negative : Bool} {digits : Nat} {exponent : Int}
    (h : (digits : ℚ) * 10 ^ exponent ≤ roomy) :
    (ofScaledDigits negative digits exponent).isSome := by
  rw [ofScaledDigits]
  dsimp only
  split
  · rfl
  · rename_i hexponent
    obtain ⟨k, rfl⟩ := Int.eq_ofNat_of_zero_le (not_lt.mp hexponent)
    rw [zpow_natCast] at h
    rcases Nat.eq_zero_or_pos digits with rfl | hdigits
    · have hzero : ofNat 0 = zero false := rfl
      rw [hzero]
      split
      · split
        · rename_i s hs
          exact absurd hs (zero_mul_ne_infinity _ s)
        · rfl
      · rfl
    · have hone : (1 : ℚ) ≤ digits := by exact_mod_cast hdigits
      have hten : (1 : ℚ) ≤ 10 ^ k := one_le_pow₀ (by norm_num)
      have hpower : (10 : ℚ) ^ k ≤ roomy := (le_mul_of_one_le_left (by positivity) hone).trans h
      have hk : k ≤ 308 := by
        by_contra hlt
        have hmore : (10 : ℚ) ^ 309 ≤ 10 ^ k := pow_le_pow_right₀ (by norm_num) (by omega)
        exact absurd (hmore.trans hpower) (not_le.mpr roomy_lt_pow)
      obtain ⟨m, e, hx, hxvalue⟩ := exists_ofNat hdigits
        (lt_tooLarge_of_le_roomy ((le_mul_of_one_le_right (by positivity) hten).trans h))
      obtain ⟨n, f, hp, hpvalue⟩ := exists_ofNat (n := 10 ^ k) (Nat.pow_pos (by decide))
        (lt_tooLarge_of_le_roomy (by exact_mod_cast hpower))
      have hproduct : ((m : ℚ) * 2 ^ e) * (n * 2 ^ f) < tooLarge := by
        refine lt_of_le_of_lt ?_ roomy_lt
        calc ((m : ℚ) * 2 ^ e) * (n * 2 ^ f)
            ≤ digits * (1 + 1 / 2 ^ 53) * (((10 ^ k : Nat) : ℚ) * (1 + 1 / 2 ^ 53)) := by gcongr
          _ = digits * 10 ^ k * (1 + 1 / 2 ^ 53) * (1 + 1 / 2 ^ 53) := by
            push_cast
            ring
          _ ≤ roomy * (1 + 1 / 2 ^ 53) * (1 + 1 / 2 ^ 53) := by gcongr
      obtain ⟨m', e', hmul⟩ := exists_mul hproduct
      have hpow : powerOfTen (k : Int).toNat = .finite false n f := hp
      rw [if_pos (by omega), hx, hpow, hmul]
      rfl

end Binary64

end SyncJobs
