import Mathlib.Algebra.Group.Nat.Defs
import SyncJobs.Backoff

/-!
# Delays are doubled up to a cap

The delay before jitter is the shorter one of the cap and the base delay times a power of two, in
whole nanoseconds (`Backoff.nanos_delay`). It may be found in words of limited length: the power in
one of 32 bits, the product of the seconds and that of the nanoseconds behind them in one of 64 bits
each (`Backoff.delayInWords_eq`). Where a word overflows, the cap stands in. Up to the 31st power
that is the shorter one anyhow, because a product that is no duration is longer than all durations.
From the 32nd on it is the rule, also for a base delay that is zero. Since nothing is longer than the
cap, delays do not get shorter there, nor anywhere else (`Backoff.delay_mono`).
-/

namespace SyncJobs

/-! ## Words -/

/-- A number, if it fits a word. -/
def fitWord? (bits n : Nat) : Option Nat := if n < 2 ^ bits then some n else none

theorem fitWord?_of_lt {bits n : Nat} (h : n < 2 ^ bits) : fitWord? bits n = some n := if_pos h

theorem fitWord?_eq_some_iff {bits m n : Nat} :
    fitWord? bits n = some m ↔ n < 2 ^ bits ∧ n = m := by
  simp [fitWord?]

/-- A power of two that is doubled in a word. -/
def twoPowWord? (bits : Nat) : Nat → Option Nat
  | 0 => fitWord? bits 1
  | n + 1 => (twoPowWord? bits n).bind fun p => fitWord? bits (p * 2)

/-- **Powers of two fit** below the length of the word. -/
theorem twoPowWord?_eq (bits n : Nat) :
    twoPowWord? bits n = if n < bits then some (2 ^ n) else none := by
  induction n with
  | zero =>
    have hone : 1 < 2 ^ bits ↔ 0 < bits := Nat.one_lt_two_pow_iff.trans Nat.pos_iff_ne_zero.symm
    simp only [twoPowWord?, fitWord?, hone, Nat.pow_zero]
  | succ n ih =>
    have hfit : 2 ^ n * 2 < 2 ^ bits ↔ n + 1 < bits := by
      rw [← Nat.pow_succ]
      exact Nat.pow_lt_pow_iff_right (by decide)
    rw [twoPowWord?, ih]
    by_cases h : n < bits
    · rw [if_pos h, Option.bind_some, fitWord?, Nat.pow_succ]
      simp only [hfit]
    · rw [if_neg h, if_neg (by omega), Option.bind_none]

namespace Duration

theorem nanos_of_ofNanos? {d : Duration} {n : Nat} (h : ofNanos? n = some d) : d.nanos = n := by
  rw [ofNanos?] at h
  split at h
  · rw [← Option.some.inj h]
  · cases h

theorem le_of_ofNanos?_eq_none {n : Nat} (h : ofNanos? n = none) :
    18446744073709551616000000000 ≤ n := by
  rw [ofNanos?] at h
  split at h
  · cases h
  · omega

/-- Seconds and nanoseconds as words of 64 bits. Whole seconds are carried over. -/
def carried? (seconds nanos : Nat) : Option Duration := do
  let nanos ← fitWord? 64 nanos
  let seconds ← fitWord? 64 seconds
  let seconds ← fitWord? 64 (seconds + nanos / 1000000000)
  ofNanos? (seconds * 1000000000 + nanos % 1000000000)

/-- The seconds overflow exactly if the sum is no duration. -/
theorem carried?_eq {seconds nanos : Nat} (h : nanos < 2 ^ 64) :
    carried? seconds nanos = ofNanos? (seconds * 1000000000 + nanos) := by
  rw [carried?, fitWord?_of_lt h, Option.bind_eq_bind, Option.bind_some]
  by_cases hfit : seconds + nanos / 1000000000 < 2 ^ 64
  · have hcarry : (seconds + nanos / 1000000000) * 1000000000 + nanos % 1000000000 =
        seconds * 1000000000 + nanos := by omega
    rw [fitWord?_of_lt (show seconds < 2 ^ 64 by omega), Option.bind_some, fitWord?_of_lt hfit,
      Option.bind_some, hcarry]
  · have hnone : ofNanos? (seconds * 1000000000 + nanos) = none := dif_neg (by omega)
    -- whether the seconds overflow before the carry or with it, there is no sum
    rw [hnone, Option.bind_eq_none_iff]
    intro s hs
    obtain ⟨-, rfl⟩ := fitWord?_eq_some_iff.mp hs
    rw [fitWord?, if_neg hfit, Option.bind_none]

/-- **The product in words.** The seconds and the nanoseconds behind them are multiplied apart. -/
def mulInWords? (d : Duration) (n : Nat) : Option Duration :=
  carried? (d.nanos / 1000000000 * n) (d.nanos % 1000000000 * n)

/-- **The product in words is the product,** if there is one. The factor is a word of 32 bits. -/
theorem mulInWords?_eq (d : Duration) {n : Nat} (h : n < 2 ^ 32) : d.mulInWords? n = d.mul? n := by
  have hsplit : d.nanos / 1000000000 * n * 1000000000 + d.nanos % 1000000000 * n = d.nanos * n := by
    rw [Nat.mul_right_comm, ← Nat.add_mul, Nat.div_add_mod']
  have hrest : d.nanos % 1000000000 * n < 1000000000 * 2 ^ 32 :=
    Nat.mul_lt_mul'' (Nat.mod_lt _ (by decide)) h
  rw [mulInWords?, carried?_eq (by omega), hsplit, mul?]

end Duration

/-! ## Delays -/

namespace Backoff

/-- **The delay before jitter in words.** Where a word overflows, there is the cap. -/
def delayInWords (b : Backoff) (n : UInt32) : Duration :=
  ((twoPowWord? 32 n.toNat).bind b.base.mulInWords?).elim b.cap fun d => d.min b.cap

variable (b c : Backoff) {m n : UInt32}

/-- The power of two in a word. -/
theorem factor?_eq (n : UInt32) : factor? n = twoPowWord? 32 n.toNat :=
  (twoPowWord?_eq 32 n.toNat).symm

/-- The delay is the same in words. -/
theorem delayInWords_eq (n : UInt32) : b.delayInWords n = b.delay n := by
  have hproduct : (twoPowWord? 32 n.toNat).bind b.base.mulInWords? =
      (twoPowWord? 32 n.toNat).bind b.base.mul? := by
    rw [twoPowWord?_eq]
    split
    · rename_i h
      rw [Option.bind_some, Option.bind_some]
      exact b.base.mulInWords?_eq (Nat.pow_lt_pow_right (by decide) h)
    · rfl
  rw [delayInWords, delay, factor?_eq, hproduct]
  cases (twoPowWord? 32 n.toNat).bind b.base.mul? <;> rfl

/-- **The delay before jitter** in whole nanoseconds. -/
theorem nanos_delay (n : UInt32) : (b.delay n).nanos =
    if n.toNat ≤ 31 then min b.cap.nanos (b.base.nanos * 2 ^ n.toNat) else b.cap.nanos := by
  have hcap := b.cap.fits
  rw [delay, factor?_eq, twoPowWord?_eq]
  by_cases h : n.toNat < 32
  · rw [if_pos h, if_pos (Nat.le_of_lt_succ h), Option.bind_some, Duration.mul?]
    cases hproduct : Duration.ofNanos? (b.base.nanos * 2 ^ n.toNat) with
    -- what is no duration is longer than the cap, which is one
    | none =>
      have hlong := Duration.le_of_ofNanos?_eq_none hproduct
      show b.cap.nanos = _
      omega
    | some d =>
      rw [← Duration.nanos_of_ofNanos? hproduct, Nat.min_comm]
      exact Duration.nanos_min d b.cap
  · rw [if_neg h, if_neg (by omega)]
    rfl

/-- Delays are capped. -/
theorem nanos_delay_le (n : UInt32) : (b.delay n).nanos ≤ b.cap.nanos := by
  rw [nanos_delay]
  split
  · exact Nat.min_le_left _ _
  · exact Nat.le_refl _

variable {b c}

/-- **Delays do not get shorter** with more attempts, a longer base delay or a higher cap. -/
theorem delay_mono (hn : m ≤ n) (hbase : b.base.nanos ≤ c.base.nanos)
    (hcap : b.cap.nanos ≤ c.cap.nanos) : (b.delay m).nanos ≤ (c.delay n).nanos := by
  have hle : m.toNat ≤ n.toNat := UInt32.le_iff_toNat_le.mp hn
  rw [c.nanos_delay]
  split
  · have hpow : 2 ^ m.toNat ≤ 2 ^ n.toNat := Nat.pow_le_pow_right (by decide) hle
    rw [nanos_delay, if_pos (by omega)]
    exact Nat.le_min.mpr ⟨Nat.le_trans (Nat.min_le_left _ _) hcap,
      Nat.le_trans (Nat.min_le_right _ _) (Nat.mul_le_mul hbase hpow)⟩
  · exact Nat.le_trans (b.nanos_delay_le m) hcap

/-- A delay is not shorter than the one that is doubled, unless the cap is. -/
theorem base_le_delay (h : b.base.nanos ≤ b.cap.nanos) (n : UInt32) :
    b.base.nanos ≤ (b.delay n).nanos := by
  have hfirst : (b.delay 0).nanos = b.base.nanos := by
    rw [nanos_delay, if_pos (by decide)]
    show min b.cap.nanos (b.base.nanos * 1) = _
    omega
  exact hfirst ▸ delay_mono (UInt32.zero_le) (Nat.le_refl _) (Nat.le_refl _)

/-- **Delays are capped powers.** Up to 31 attempts, the delay after `n` attempts is the shorter one
of the cap and the base delay times `2 ^ n`. From 32 attempts on it is the cap. It is the same in
words that may overflow. No delay is longer than the cap, and none gets shorter with more attempts, a
longer base delay or a higher cap. -/
theorem delays_are_capped_powers :
    (∀ (b : Backoff) (n : UInt32),
      (b.delay n).nanos =
        (if n.toNat ≤ 31 then min b.cap.nanos (b.base.nanos * 2 ^ n.toNat) else b.cap.nanos) ∧
      b.delayInWords n = b.delay n ∧ (b.delay n).nanos ≤ b.cap.nanos) ∧
    ∀ (b c : Backoff) (m n : UInt32), m ≤ n → b.base.nanos ≤ c.base.nanos →
      b.cap.nanos ≤ c.cap.nanos → (b.delay m).nanos ≤ (c.delay n).nanos :=
  ⟨fun b n => ⟨b.nanos_delay n, b.delayInWords_eq n, b.nanos_delay_le n⟩,
    fun _ _ _ _ hn hbase hcap => delay_mono hn hbase hcap⟩

/-- A base delay of `2 ^ 63` seconds, and the longest duration as the cap. -/
def endless : Backoff := ofDelays (.ofSeconds 0x8000000000000000) .longest

/-- Such a delay overflows when it is doubled, and the cap, a nanosecond shorter, stands in. The
usual rule has shorter delays. -/
theorem an_endless_delay_is_capped :
    (8 : UInt32) ≤ 9 ∧ usual.base.nanos ≤ endless.base.nanos ∧
    usual.cap.nanos ≤ endless.cap.nanos ∧ (usual.delay 8).nanos ≤ (endless.delay 9).nanos ∧
    (endless.delay 1).nanos + 1 = endless.base.nanos * 2 := by
  have hn : (8 : UInt32) ≤ 9 := by decide
  have hbase : usual.base.nanos ≤ endless.base.nanos := by decide
  have hcap : usual.cap.nanos ≤ endless.cap.nanos := by decide
  have hdelay := (delays_are_capped_powers.1 endless 1).1
  refine ⟨hn, hbase, hcap, delays_are_capped_powers.2 usual endless 8 9 hn hbase hcap, ?_⟩
  rw [hdelay]
  decide +kernel

end Backoff

end SyncJobs
