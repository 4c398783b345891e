import SyncJobs.Proofs.Magnitudes
import SyncJobs.Proofs.NumberTexts
import SyncJobs.Proofs.Shortest

/-!
# Every float is read from its text

A reader takes digits while they fit 64 bits, so he never takes a numeral for more than it stands
for (`Reader.takeFraction_le`). The numeral that a float is written as stands for its shortest
decimal (`Binary64.magnitude_numeral`). So it is read as some float, unless it is too large to be
read; and only two floats come so close to the limit that this has to be checked by hand
(`Binary64.isSome_float?`).
-/

namespace SyncJobs

namespace Json.Reader

/-! ## Digits as numbers -/

/-- A number with one digit more. -/
def withDigit (n : Nat) (c : Char) : Nat := n * 10 + digitValue c

theorem foldl_withDigit (ds : List Char) (n : Nat) :
    ds.foldl withDigit n = n * 10 ^ ds.length + naturalOf ds := by
  have hfold : ∀ (ds : List Char) (n : Nat),
      ds.foldl withDigit n = n * 10 ^ ds.length + ds.foldl withDigit 0 := by
    intro ds
    induction ds with
    | nil => intro n; simp
    | cons c ds ih =>
      intro n
      rw [List.foldl_cons, List.foldl_cons, ih, ih (withDigit 0 c), List.length_cons, withDigit,
        withDigit, Nat.zero_mul, Nat.zero_add, Nat.add_mul, Nat.pow_succ']
      ac_rfl
  exact hfold ds n

theorem naturalOf_append (ds es : List Char) :
    naturalOf (ds ++ es) = naturalOf ds * 10 ^ es.length + naturalOf es := by
  rw [← foldl_withDigit, naturalOf, List.foldl_append]
  rfl

theorem naturalOf_zeros (n : Nat) : naturalOf (List.replicate n '0') = 0 := by
  induction n with
  | zero => rfl
  | succ n ih =>
    rw [List.replicate_succ, ← List.singleton_append, naturalOf_append, ih]
    simp [naturalOf, digitValue]

theorem digitValue_lt {c : Char} (h : c.isDigit) : digitValue c < 10 := by
  have hle := Char.isDigit_iff_toNat.mp h
  have hzero : '0'.toNat = 48 := rfl
  have hnine : '9'.toNat = 57 := rfl
  rw [digitValue]
  omega

/-- A number is below the power of ten with one digit more. -/
theorem naturalOf_lt_pow {ds : List Char} (h : ∀ c ∈ ds, c.isDigit) :
    naturalOf ds < 10 ^ ds.length := by
  induction ds with
  | nil => exact Nat.one_pos
  | cons c ds ih =>
    have hrest := ih fun d hd => h d (List.mem_cons_of_mem c hd)
    have hc := digitValue_lt (h c List.mem_cons_self)
    have hone : naturalOf [c] = digitValue c := Nat.zero_add _
    rw [← List.singleton_append, naturalOf_append, hone, List.length_append, List.length_singleton,
      Nat.pow_add, Nat.pow_one]
    calc digitValue c * 10 ^ ds.length + naturalOf ds
        < digitValue c * 10 ^ ds.length + 10 ^ ds.length := Nat.add_lt_add_left hrest _
      _ = (digitValue c + 1) * 10 ^ ds.length := (Nat.succ_mul _ _).symm
      _ ≤ 10 * 10 ^ ds.length := Nat.mul_le_mul_right _ hc

/-! ## Taking digits -/

/-- Digits that fit are all taken. -/
theorem takeWhole_eq {ds : List Char} {n : Nat} {e : Int}
    (h : ds.foldl withDigit n < 0x10000000000000000) :
    takeWhole ⟨n, e⟩ false ds = ⟨ds.foldl withDigit n, e⟩ := by
  induction ds generalizing n with
  | nil => rfl
  | cons c ds ih =>
    rw [List.foldl_cons] at h ⊢
    have hle : withDigit n c ≤ ds.foldl withDigit (withDigit n c) := by
      rw [foldl_withDigit]
      exact (Nat.le_mul_of_pos_right _ (Nat.pow_pos (by decide))).trans (Nat.le_add_right _ _)
    have hfits : ¬ (false = true ∨ 0x10000000000000000 ≤ withDigit n c) := by
      simp only [Bool.false_eq_true, false_or]
      omega
    rw [takeWhole]
    exact (if_neg hfits).trans (ih h)

/-- The number that scaled digits stand for. -/
def Scaled.value (s : Scaled) : ℚ := s.significand * 10 ^ s.exponent

/-- **Digits behind the point are taken for no more than they stand for.** -/
theorem takeFraction_le (s : Scaled) (ds : List Char) :
    (takeFraction s ds).value ≤
      ((ds.foldl withDigit s.significand : Nat) : ℚ) * 10 ^ (s.exponent - ds.length) := by
  induction ds generalizing s with
  | nil => simp [takeFraction, Scaled.value]
  | cons c ds ih =>
    rw [takeFraction]
    split
    -- the rest is ignored
    · rw [foldl_withDigit, Scaled.value]
      have hpow : (10 : ℚ) ^ (s.exponent - (c :: ds).length) * 10 ^ (c :: ds).length =
          10 ^ s.exponent := by
        rw [← zpow_natCast, ← zpow_add₀ (by norm_num), Int.sub_add_cancel]
      push_cast
      rw [add_mul, mul_assoc, mul_comm ((10 : ℚ) ^ (c :: ds).length), hpow]
      exact le_add_of_nonneg_right (by positivity)
    · have hnext := ih ⟨withDigit s.significand c, s.exponent - 1⟩
      have hexponent : s.exponent - 1 - (ds.length : Int) = s.exponent - (c :: ds).length := by
        rw [List.length_cons]
        push_cast
        ring
      rw [hexponent] at hnext
      exact hnext

/-! ## Numerals as numbers -/

namespace Numeral

/-- The number that an exponent stands for. -/
def power : Option (Bool × List Char) → Int
  | none => 0
  | some (negative, ds) => if negative then -naturalOf ds else naturalOf ds

/-- The digits behind the point. -/
def places (n : Numeral) : List Char := n.fraction.getD []

/-- **The number that a numeral stands for,** without its sign. -/
def magnitude (n : Numeral) : ℚ :=
  naturalOf (n.whole ++ n.places) * 10 ^ (power n.exponent - n.places.length)

/-- **A numeral that leaves room is read,** if the digits before its point fit, and so does its
exponent. -/
theorem isSome_float? {n : Numeral} (hwhole : naturalOf n.whole < 0x10000000000000000)
    (hroom : n.magnitude ≤ Binary64.roomy)
    (hpower : ∀ ds, n.exponent = some (false, ds) → naturalOf ds < 0x80000000) :
    n.float?.isSome := by
  obtain ⟨negative, whole, fraction, exponent⟩ := n
  have htaken : takeWhole ⟨0, 0⟩ false whole = ⟨naturalOf whole, 0⟩ := takeWhole_eq hwhole
  have hle := takeFraction_le ⟨naturalOf whole, 0⟩ (fraction.getD [])
  rw [foldl_withDigit, ← naturalOf_append, zero_sub] at hle
  have hvalue : (takeFraction ⟨naturalOf whole, 0⟩ (fraction.getD [])).value *
      10 ^ power exponent ≤ Binary64.roomy := by
    refine le_trans ?_ hroom
    rw [magnitude, places, sub_eq_neg_add, zpow_add₀ (by norm_num), ← mul_assoc]
    gcongr
  rw [float?, htaken]
  generalize takeFraction ⟨naturalOf whole, 0⟩ (fraction.getD []) = s at hvalue
  rw [Scaled.value, mul_assoc, ← zpow_add₀ (by norm_num)] at hvalue
  cases exponent with
  | none =>
    rw [power, Int.add_zero] at hvalue
    exact Binary64.isSome_ofScaledDigits hvalue
  | some e =>
    obtain ⟨shrinks, ds⟩ := e
    dsimp only
    split
    · refine Binary64.isSome_ofScaledDigits ?_
      cases shrinks with
      | true => exact hvalue
      | false => exact hvalue
    · rename_i hlarge
      cases shrinks with
      | true => simp
      | false => exact absurd (hpower ds rfl) hlarge

end Numeral

end Json.Reader

/-! ## Decimals as numerals -/

namespace Binary64

open Json.Reader

/-- **The numeral that a decimal is written as:** with a point if it is neither too large nor too
small for that, else with an exponent. -/
def Decimal.numeral (negative : Bool) (d : Decimal) : Numeral :=
  let ds := Nat.toDigits 10 d.digits
  let point : Int := ds.length + d.exponent
  if 0 ≤ d.exponent ∧ point ≤ 16 then
    ⟨negative, ds ++ List.replicate d.exponent.toNat '0', some ['0'], none⟩
  else if -5 < point ∧ point ≤ 16 then
    let places := (-d.exponent).toNat
    if places < ds.length then
      ⟨negative, ds.take (ds.length - places), some (ds.drop (ds.length - places)), none⟩
    else ⟨negative, ['0'], some (List.replicate (places - ds.length) '0' ++ ds), none⟩
  else
    ⟨negative, ds.take 1, if ds.drop 1 = [] then none else some (ds.drop 1),
      some (decide (point - 1 < 0), Nat.toDigits 10 (point - 1).natAbs)⟩

theorem isProper_numeral (negative : Bool) {d : Decimal} (h : 0 < d.digits) :
    (d.numeral negative).IsProper := by
  obtain ⟨c, cs, hds, hc⟩ := exists_cons_toDigits h
  have hdigits : ∀ x ∈ Nat.toDigits 10 d.digits, x.isDigit := isDigit_toDigits
  rw [Decimal.numeral]
  generalize Nat.toDigits 10 d.digits = ds at hds hdigits
  dsimp only
  split
  · refine ⟨fun x hx => ?_, .inr ⟨c, _, by rw [hds, List.cons_append], hc⟩, ?_, by rintro _ _ ⟨⟩⟩
    · exact (List.mem_append.mp hx).elim (hdigits x) (isDigit_zeros x)
    · rintro _ ⟨⟩
      exact ⟨List.cons_ne_nil _ _, isDigit_zeros (n := 1)⟩
  · split
    · split
      -- the point stands between the digits
      · have hcut : ds.length - (-d.exponent).toNat ≠ 0 := by omega
        obtain ⟨k, hk⟩ := Nat.exists_eq_succ_of_ne_zero hcut
        refine ⟨fun x hx => hdigits x (List.mem_of_mem_take hx), .inr ⟨c, cs.take k, ?_, hc⟩, ?_,
          by rintro _ _ ⟨⟩⟩
        · rw [hk, hds, List.take_succ_cons]
        · rintro _ ⟨⟩
          refine ⟨fun hnil => ?_, fun x hx => hdigits x (List.mem_of_mem_drop hx)⟩
          have hlength := congrArg List.length hnil
          rw [List.length_drop, List.length_nil] at hlength
          omega
      -- it stands before them
      · refine ⟨isDigit_zeros (n := 1), .inl rfl, ?_, by rintro _ _ ⟨⟩⟩
        rintro _ ⟨⟩
        refine ⟨fun hnil => ?_, fun x hx => ?_⟩
        · rw [hds] at hnil
          exact absurd (List.append_eq_nil_iff.mp hnil).2 (List.cons_ne_nil _ _)
        · exact (List.mem_append.mp hx).elim (isDigit_zeros x) (hdigits x)
    · refine ⟨fun x hx => hdigits x (List.mem_of_mem_take hx), .inl ?_, fun es hes => ?_, ?_⟩
      · rw [hds]
        rfl
      · dsimp only at hes
        split at hes
        · cases hes
        · rename_i hne
          obtain rfl := Option.some.inj hes
          exact ⟨hne, fun x hx => hdigits x (List.mem_of_mem_drop hx)⟩
      · rintro _ _ ⟨⟩
        exact ⟨Nat.toDigits_ne_nil, isDigit_toDigits⟩

/-- A decimal and its numeral stand for the same number. -/
theorem magnitude_numeral (negative : Bool) (d : Decimal) :
    (d.numeral negative).magnitude = d.value := by
  have hnatural := naturalOf_toDigits d.digits
  have hne : Nat.toDigits 10 d.digits ≠ [] := Nat.toDigits_ne_nil
  rw [Decimal.numeral, Decimal.value]
  generalize Nat.toDigits 10 d.digits = ds at hnatural hne
  have hpositive := List.length_pos_of_ne_nil hne
  dsimp only
  split
  · rename_i hwhole
    obtain ⟨n, hn⟩ := Int.eq_ofNat_of_zero_le hwhole.1
    have hzero : naturalOf ['0'] = 0 := rfl
    rw [Numeral.magnitude, Numeral.places, Option.getD_some, naturalOf_append, naturalOf_append,
      naturalOf_zeros, hnatural, hzero, hn, Int.toNat_natCast, List.length_replicate, Numeral.power,
      zpow_natCast]
    push_cast
    rw [List.length_singleton]
    norm_num
    ring
  · rename_i hfraction
    split
    · have hsplit : ∀ es : List Char, (es.length : Int) = -d.exponent →
          (d.digits : ℚ) * 10 ^ (Numeral.power none - es.length) = d.digits * 10 ^ d.exponent := by
        intro es hes
        rw [Numeral.power, hes, zero_sub, neg_neg]
      split
      · rw [Numeral.magnitude, Numeral.places, Option.getD_some, List.take_append_drop, hnatural]
        exact hsplit _ (by rw [List.length_drop]; omega)
      · have hzero : naturalOf ['0'] = 0 := rfl
        rw [Numeral.magnitude, Numeral.places, Option.getD_some, naturalOf_append, naturalOf_append,
          naturalOf_zeros, hnatural, hzero, Nat.zero_mul, Nat.zero_add, Nat.zero_mul, Nat.zero_add]
        exact hsplit _ (by rw [List.length_append, List.length_replicate]; omega)
    · have hplaces : (if ds.drop 1 = [] then none else some (ds.drop 1)).getD [] = ds.drop 1 := by
        split
        · rename_i hnil
          exact hnil.symm
        · rfl
      rw [Numeral.magnitude, Numeral.places, hplaces, List.take_append_drop, hnatural, Numeral.power,
        naturalOf_toDigits, List.length_drop]
      congr 2
      by_cases hneg : (ds.length : Int) + d.exponent - 1 < 0
      · rw [if_pos (decide_eq_true hneg)]
        omega
      · rw [if_neg (by simpa using hneg)]
        omega

/-- The point stands behind 16 digits at most. -/
theorem length_whole_numeral_le (negative : Bool) (d : Decimal) :
    (d.numeral negative).whole.length ≤ 16 := by
  rw [Decimal.numeral]
  dsimp only
  split
  · rw [List.length_append, List.length_replicate]
    omega
  · split
    · split
      · rw [List.length_take]
        omega
      · exact Nat.succ_le_succ (Nat.zero_le 15)
    · exact (List.length_take_le 1 _).trans (by decide)

/-- The first digit of a decimal counts. -/
theorem pow_le_value {d : Decimal} (h : 0 < d.digits) :
    (10 : ℚ) ^ ((Nat.toDigits 10 d.digits).length + d.exponent - 1) ≤ d.value := by
  have hnatural := naturalOf_toDigits d.digits
  obtain ⟨c, cs, hds, hc⟩ := exists_cons_toDigits h
  have hdigit : c.isDigit := isDigit_toDigits c (hds ▸ List.mem_cons_self)
  have hone : 1 ≤ digitValue c := by
    have hle := Char.isDigit_iff_toNat.mp hdigit
    have hzero : '0'.toNat = 48 := rfl
    have hne : c.toNat ≠ 48 := fun heq => hc (Char.toNat_inj.mp heq)
    rw [digitValue]
    omega
  have hfirst : naturalOf [c] = digitValue c := Nat.zero_add _
  have hle : 10 ^ cs.length ≤ d.digits := by
    rw [← hnatural, hds, ← List.singleton_append, naturalOf_append, hfirst]
    exact (Nat.le_mul_of_pos_left _ hone).trans (Nat.le_add_right _ _)
  have hexponent : ((c :: cs).length : Int) + d.exponent - 1 = cs.length + d.exponent := by
    rw [List.length_cons]
    omega
  rw [hds, hexponent, zpow_add₀ (by norm_num), zpow_natCast, Decimal.value]
  gcongr
  exact_mod_cast hle

/-- A decimal that leaves room is read from its numeral. -/
theorem isSome_float?_numeral (negative : Bool) {d : Decimal} (h : 0 < d.digits)
    (hroom : d.value ≤ roomy) : (d.numeral negative).float?.isSome := by
  refine Numeral.isSome_float? ?_ ((magnitude_numeral negative d).trans_le hroom) fun es hes => ?_
  · have hlt := naturalOf_lt_pow (isProper_numeral negative h).whole
    have hle : 10 ^ (d.numeral negative).whole.length ≤ 10 ^ 16 :=
      Nat.pow_le_pow_right (by decide) (length_whole_numeral_le negative d)
    omega
  · -- a large exponent would make the decimal too large
    have hsmall : ((Nat.toDigits 10 d.digits).length : Int) + d.exponent - 1 < 309 := by
      by_contra hnot
      have hpow : (10 : ℚ) ^ (309 : Nat) ≤
          10 ^ (((Nat.toDigits 10 d.digits).length : Int) + d.exponent - 1) := by
        rw [← zpow_natCast]
        exact zpow_le_zpow_right₀ (by norm_num) (not_lt.mp hnot)
      exact absurd ((hpow.trans (pow_le_value h)).trans hroom) (not_le.mpr roomy_lt_pow)
    rw [Decimal.numeral] at hes
    dsimp only at hes
    split at hes
    · cases hes
    · split at hes
      · split at hes <;> cases hes
      · obtain ⟨hsign, rfl⟩ := Prod.mk.inj (Option.some.inj hes)
        rw [naturalOf_toDigits]
        have hpositive := of_decide_eq_false hsign
        omega

/-- But for the two greatest numbers, half a unit above a number there is room. -/
theorem half_above_le_roomy {m : Nat} {e : Int} (hlt : m < 2 ^ 53) (he : e ≤ maxExponent)
    (hlast : ¬ (e = maxExponent ∧ 2 ^ 53 - 2 ≤ m)) : ((m : ℚ) + 1 / 2) * 2 ^ e ≤ roomy := by
  have htop : (0 : ℚ) < 2 ^ 971 := by positivity
  obtain rfl | hless := he.eq_or_lt
  · have hcast : (m : ℚ) + 3 ≤ 2 ^ 53 := by
      have hnat : m + 3 ≤ 2 ^ 53 := by
        have hbelow : ¬ 2 ^ 53 - 2 ≤ m := fun h => hlast ⟨rfl, h⟩
        omega
      exact_mod_cast hnat
    have hpower : (2 : ℚ) ^ maxExponent = 2 ^ 971 := zpow_natCast 2 971
    rw [hpower, roomy]
    exact mul_le_mul_of_nonneg_right (by linarith) htop.le
  · have hcast : (m : ℚ) + 1 ≤ 2 ^ 53 := by exact_mod_cast hlt
    have hpower : (2 : ℚ) ^ e ≤ 2 ^ 970 := by
      rw [← zpow_natCast]
      exact zpow_le_zpow_right₀ one_le_two (Int.lt_add_one_iff.mp hless)
    calc ((m : ℚ) + 1 / 2) * 2 ^ e ≤ 2 ^ 53 * 2 ^ 970 :=
          mul_le_mul (by linarith) hpower (by positivity) (by positivity)
      _ = 2 ^ 52 * 2 ^ 971 := by
          rw [pow_succ 2 52, pow_succ 2 970, mul_assoc, mul_comm 2]
      _ ≤ roomy := mul_le_mul_of_nonneg_right (by norm_num) htop.le

theorem two_pow_le_roomy : (2 : ℚ) ^ 53 ≤ roomy := by
  have htwo : (2 : ℚ) ≤ 2 ^ 971 := le_self_pow₀ one_le_two (by decide)
  calc (2 : ℚ) ^ 53 ≤ (2 ^ 53 - 5 / 2) * 2 := by norm_num
    _ ≤ roomy := mul_le_mul_of_nonneg_left htwo (by norm_num)

/-- **Every float is read from its numeral,** as some float. -/
theorem isSome_float? (negative : Bool) {m : Nat} {e : Int} (hm : 0 < m) (hlt : m < 2 ^ 53)
    (he : e ≤ maxExponent) : ((shortest m e).numeral negative).float?.isSome := by
  by_cases hlast : e = maxExponent ∧ 2 ^ 53 - 2 ≤ m
  -- the two greatest numbers leave no room, but are read nevertheless
  · obtain ⟨rfl, hlast⟩ := hlast
    obtain rfl | rfl : m = 2 ^ 53 - 2 ∨ m = 2 ^ 53 - 1 := by omega
    all_goals cases negative <;> decide +kernel
  · obtain ⟨hdigits, hvalue⟩ := value_shortest_le hm hlt e
    exact isSome_float?_numeral negative hdigits
      (hvalue.trans (max_le (half_above_le_roomy hlt he hlast) two_pow_le_roomy))

/-! ## Texts -/

/-- The text of an exponent. -/
theorem toList_repr (i : Int) :
    i.repr.toList = sign (decide (i < 0)) ++ Nat.toDigits 10 i.natAbs := by
  cases i with
  | ofNat n =>
    show (Nat.repr n).toList = _
    simp [Nat.repr, sign]
  | negSucc n =>
    show ("-" ++ Nat.repr (n + 1)).toList = _
    simp [Nat.repr, sign, Int.negSucc_lt_zero]

theorem toList_sign (negative : Bool) : (if negative then "-" else "").toList = sign negative := by
  cases negative <;> rfl

/-- **A float is written as the numeral of its shortest decimal.** -/
theorem written?_eq (negative : Bool) {m : Nat} (hm : 0 < m) (e : Int) :
    ∃ text, (finite negative m e).written? = some text ∧
      text.toList = ((shortest m e).numeral negative).chars := by
  rw [written?, if_neg hm.ne', Decimal.numeral]
  generalize shortest m e = d
  have hlength : (digitString d.digits).length = (Nat.toDigits 10 d.digits).length := by
    simp [digitString]
  have hdigits : (digitString d.digits).toList = Nat.toDigits 10 d.digits := by
    simp [digitString]
  dsimp only
  rw [hlength, hdigits]
  split
  · rename_i hwhole
    refine ⟨_, rfl, ?_⟩
    rw [Decimal.positional, if_pos hwhole.1]
    simp [digitString, zeros, toList_sign, Numeral.chars, Numeral.fractionChars,
      Numeral.exponentChars]
  · rename_i hnot
    split
    · rename_i hpoint
      refine ⟨_, rfl, ?_⟩
      have hneg : ¬ 0 ≤ d.exponent := fun hpos => hnot ⟨hpos, hpoint.2⟩
      rw [Decimal.positional, if_neg hneg, hlength, hdigits]
      by_cases hplaces : (-d.exponent).toNat < (Nat.toDigits 10 d.digits).length
      · simp [hplaces, toList_sign, Numeral.chars, Numeral.fractionChars, Numeral.exponentChars]
      · simp [hplaces, hdigits, zeros, toList_sign, Numeral.chars, Numeral.fractionChars,
          Numeral.exponentChars]
    · refine ⟨_, rfl, ?_⟩
      generalize ((Nat.toDigits 10 d.digits).length : Int) + d.exponent - 1 = power
      by_cases htail : (Nat.toDigits 10 d.digits).drop 1 = []
      · simp only [htail, String.ofList_nil, if_true]
        simp [toList_sign, toList_repr, Numeral.chars, Numeral.fractionChars,
          Numeral.exponentChars]
      · have hne : String.ofList ((Nat.toDigits 10 d.digits).drop 1) ≠ "" := fun h =>
          htail (by simpa using congrArg String.toList h)
        simp only [hne, htail, if_false]
        simp [toList_sign, toList_repr, Numeral.chars, Numeral.fractionChars,
          Numeral.exponentChars]

/-! ## Floats -/

/-- **Whether a float is one of 64 bits:** whether they tell all of it. -/
def fits (x : Binary64) : Bool := decide (ofBits x.toBits = x)

/-- What 64 bits leave to a number. -/
theorem bounds_of_ofBits {bits : BitVec 64} {negative : Bool} {m : Nat} {e : Int}
    (h : ofBits bits = finite negative m e) : m < 2 ^ 53 ∧ e ≤ maxExponent := by
  have hbit : highestBit = 2 ^ 52 := rfl
  have hmax : maxExponent = 971 := rfl
  have hmin : minExponent = -1074 := rfl
  have hfraction := Nat.mod_lt bits.toNat (show 0 < highestBit by decide)
  have hbiased := Nat.mod_lt (bits.toNat / highestBit) (show 0 < 2048 by decide)
  rw [ofBits] at h
  split at h
  · split at h <;> cases h
  · split at h
    · obtain ⟨-, rfl, rfl⟩ := finite.inj h
      omega
    · obtain ⟨-, rfl, rfl⟩ := finite.inj h
      omega

/-- The numeral that a finite number is written as. -/
def numeral (negative : Bool) (m : Nat) (e : Int) : Numeral :=
  if m = 0 then ⟨negative, ['0'], some ['0'], none⟩ else (shortest m e).numeral negative

/-- **What a float is read back as:** the float that its numeral is read as. What is not finite is
written `null`. -/
def readBack : Binary64 → Json
  | finite negative m e => ((numeral negative m e).value?).getD .null
  | _ => .null

/-- A numeral with a point or an exponent is read as a float. -/
theorem exists_value?_eq {n : Numeral} (h : n.float?.isSome)
    (hparts : ¬ (n.fraction = none ∧ n.exponent = none)) : ∃ x, n.value? = some (.float x) := by
  obtain ⟨x, hx⟩ := Option.isSome_iff_exists.mp h
  refine ⟨x, ?_⟩
  simp only [Numeral.value?, Option.isNone_iff_eq_none, ← and_assoc, hparts, false_and, if_false, hx,
    Option.map_some]

theorem parts_numeral (negative : Bool) (d : Decimal) :
    ¬ ((d.numeral negative).fraction = none ∧ (d.numeral negative).exponent = none) := by
  rw [Decimal.numeral]
  dsimp only
  split
  · simp
  · split
    · split <;> simp
    · simp

/-- **Every float is read back from its text,** as some float. -/
theorem exists_readBack {negative : Bool} {m : Nat} {e : Int} (h : (finite negative m e).fits) :
    ∃ (n : Numeral) (text : String) (x : Binary64), n.IsProper ∧
      (finite negative m e).written? = some text ∧ text.toList = n.chars ∧
      n.value? = some (.float x) ∧ (finite negative m e).readBack = .float x := by
  obtain ⟨hlt, he⟩ := bounds_of_ofBits (of_decide_eq_true h)
  obtain ⟨hproper, ⟨text, htext, hchars⟩, hread, hparts⟩ :
      (numeral negative m e).IsProper ∧
      (∃ text, (finite negative m e).written? = some text ∧
        text.toList = (numeral negative m e).chars) ∧
      (numeral negative m e).float?.isSome ∧
      ¬ ((numeral negative m e).fraction = none ∧ (numeral negative m e).exponent = none) := by
    rw [numeral]
    obtain rfl | hm := m.eq_zero_or_pos
    · rw [if_pos rfl]
      refine ⟨⟨by simp, .inl rfl, by simp, by simp⟩, ⟨_, rfl, ?_⟩, ?_, by simp⟩
      · cases negative <;> rfl
      · cases negative <;> decide +kernel
    · rw [if_neg hm.ne']
      exact ⟨isProper_numeral negative (value_shortest_le hm hlt e).1, written?_eq negative hm e,
        isSome_float? negative hm hlt he, parts_numeral negative (shortest m e)⟩
  obtain ⟨x, hx⟩ := exists_value?_eq hread hparts
  refine ⟨_, text, x, hproper, htext, hchars, hx, ?_⟩
  rw [readBack, hx, Option.getD_some]

end Binary64

end SyncJobs
