import SyncJobs.Proofs.Deferral
import SyncJobs.Proofs.Magnitudes

/-!
# Every attempt has a delay that is not too long

With settings that break no rule there is a delay after every attempt, whatever the sample of jitter
is, as long as it is a number. It is at least the backoff, and at least a millisecond.

Jitter is a share of the backoff, which is computed in floating point. Of a duration below `2 ^ 22`
seconds, the fraction of a second, the seconds and the share are rounded up by less than half a
nanosecond in all (`Duration.atMost_seconds`). So no share is longer than the duration itself once
it is a whole number of nanoseconds again (`Duration.nanos_scale?_le`), and jitter doubles the
backoff at most. A month is well below that limit.
-/

namespace SyncJobs

/-! ## Jitter -/

namespace Duration

variable {d e : Duration} {x : Binary64} {q : ℚ}

/-- A number of seconds is rounded up by half a nanosecond at most. -/
theorem nanos_ofFloatSeconds?_le (hx : x.AtMost q) (h : ofFloatSeconds? x = some d) :
    (d.nanos : ℚ) ≤ q * 1000000000 + 1 / 2 := by
  cases x with
  | nan => cases h
  | infinity s => cases h
  | finite s m e =>
    have hq := hx.nonneg
    obtain ⟨hs, hle⟩ := hx
    rw [ofFloatSeconds?, if_neg (fun h => h.2 (hs h.1))] at h
    split at h
    · rename_i he
      obtain ⟨n, rfl⟩ := Int.eq_ofNat_of_zero_le he
      rw [zpow_natCast] at hle
      split at h
      · rw [nanos_of_ofNanos? h]
        show ((m * 2 ^ n * 1000000000 : Nat) : ℚ) ≤ _
        push_cast
        linarith
      · split at h
        · obtain rfl := Option.some.inj h
          show ((0 : Nat) : ℚ) ≤ _
          rw [Nat.cast_zero]
          positivity
        · cases h
    · obtain ⟨n, rfl⟩ : ∃ n : Nat, e = -n := ⟨(-e).toNat, by omega⟩
      rw [zpow_neg, zpow_natCast, ← div_eq_mul_inv] at hle
      rw [nanos_of_ofNanos? h, Int.neg_neg]
      calc (Binary64.roundDiv (m * 1000000000) (2 ^ n) : ℚ)
          ≤ ((m * 1000000000 : Nat) : ℚ) / ((2 ^ n : Nat) : ℚ) + 1 / 2 :=
            Binary64.roundDiv_le_add_half _ (Nat.two_pow_pos n)
        _ = m / 2 ^ n * 1000000000 + 1 / 2 := by
            push_cast
            ring
        _ ≤ q * 1000000000 + 1 / 2 := by gcongr

/-- A fraction of a second is rounded once. -/
theorem atMost_fraction {n : Nat} (h : n < 1000000000) :
    ((Binary64.ofNat n).div (Binary64.ofNat 1000000000)).AtMost
      (n / 1000000000 + 2 ^ 0 / 2 ^ 54) := by
  have hlt : (n : ℚ) / 1000000000 < 2 ^ 0 := by
    rw [pow_zero, div_lt_one (by norm_num)]
    exact_mod_cast h
  have hexact : (n : ℚ) / ((1000000000 * 2 ^ 23 : Nat) * 2 ^ (-23 : Int)) = n / 1000000000 := by
    norm_num
  have hround := (Binary64.atMost_ofNat (n := n) (by omega)).div (f := -23)
    (show 1000000000 * 2 ^ 23 ≠ 0 by decide)
  rw [hexact] at hround
  rw [Binary64.ofNat_billion]
  exact hround.atMost hlt (by decide)

/-- **The seconds in floating point.** The whole seconds are not rounded; their fraction and the sum
are rounded once each. -/
theorem atMost_seconds (h : d.nanos < 2 ^ 22 * 1000000000) :
    d.seconds.AtMost (d.nanos / 1000000000 + 1 / 2 ^ 54 + 1 / 2 ^ 32) := by
  have hwhole := Binary64.atMost_ofNat (show d.nanos / 1000000000 ≤ 2 ^ 52 by omega)
  have hrest := atMost_fraction (Nat.mod_lt d.nanos (show 1000000000 > 0 by decide))
  have hsplit : (d.nanos : ℚ) =
      1000000000 * (d.nanos / 1000000000 : Nat) + (d.nanos % 1000000000 : Nat) := by
    exact_mod_cast (Nat.div_add_mod d.nanos 1000000000).symm
  have hlt : (d.nanos : ℚ) ≤ 2 ^ 22 * 1000000000 - 1 := le_sub_iff_add_le.mpr (by exact_mod_cast h)
  rw [seconds]
  exact ((hwhole.add hrest).atMost (k := 22) (by linarith) (by decide)).mono (by linarith)

/-- **A share of a duration** is not longer than the duration. -/
theorem nanos_scale?_le {ratio : Binary64} (hd : d.nanos < 2 ^ 22 * 1000000000)
    (hratio : ratio.UpTo 0) (h : d.scale? ratio = some e) : e.nanos ≤ d.nanos := by
  have hlt : (d.nanos : ℚ) ≤ 2 ^ 22 * 1000000000 - 1 := le_sub_iff_add_le.mpr (by exact_mod_cast hd)
  have hproduct := ((Binary64.upTo_iff.mp hratio).mul (atMost_seconds hd)).atMost (k := 22)
    (by linarith) (by decide)
  have hround := nanos_ofFloatSeconds?_le hproduct h
  -- two roundings by `2 ^ -32` seconds and one by `2 ^ -54` come to less than half a nanosecond
  have hclose : (e.nanos : ℚ) < ((d.nanos + 1 : Nat) : ℚ) := by
    push_cast
    linarith
  exact Nat.lt_succ_iff.mp (by exact_mod_cast hclose)

end Duration

namespace Backoff

variable {b : Backoff} {n : UInt32} {sample : Binary64} {d : Duration}

/-- **Jitter doubles a delay at most,** if no delay is `2 ^ 22` seconds long. -/
theorem delayWith?_le (hcap : b.cap.nanos < 2 ^ 22 * 1000000000) (hratio : b.jitterRatio ≠ .nan)
    (hsample : sample ≠ .nan) (h : b.delayWith? n sample = some d) :
    d.nanos ≤ max 1000000 (2 * (b.delay n).nanos) := by
  obtain ⟨jitter, hjitter, rfl⟩ := Option.map_eq_some_iff.mp h
  have hle : jitter.nanos ≤ (b.delay n).nanos :=
    Duration.nanos_scale?_le ((b.nanos_delay_le n).trans_lt hcap) (upTo_share hratio hsample) hjitter
  have hshortest : shortest.nanos = 1000000 := rfl
  have hsum : ((b.delay n).add jitter).nanos ≤ (b.delay n).nanos + jitter.nanos := by
    rw [Duration.nanos_add]
    exact Nat.min_le_left _ _
  rw [Duration.nanos_max, hshortest]
  omega

end Backoff

/-! ## Settings -/

/-- With settings that break no rule, a delay is a millisecond at least. -/
theorem Settings.Valid.le_delay {s : Settings} (h : s.Valid) (n : UInt32) :
    1000000 ≤ (s.backoff.policy.delay n).nanos := by
  have hpositive : s.backoff.baseMillis.toNat ≠ 0 :=
    h.positive ("backoff.base_delay_ms", s.backoff.baseMillis.toNat) (by simp [Settings.positive])
  have hordered : s.backoff.baseMillis.toNat ≤ s.backoff.capMillis.toNat := h.ordered
  have hbase : s.backoff.policy.base.nanos = s.backoff.baseMillis.toNat * 1000000 := rfl
  have hcap : s.backoff.policy.cap.nanos = s.backoff.capMillis.toNat * 1000000 := rfl
  have hle := s.backoff.policy.base_le_delay (by omega) n
  omega

/-- **Every attempt has a delay,** with settings that break no rule and a sample that is a number. It
is at least the backoff and a millisecond. If no backoff is longer than 30 days, it is at most twice
the backoff. -/
theorem every_attempt_has_a_delay {s : Settings} (h : s.fault? = none) (n : UInt32)
    {sample : Binary64} (hsample : sample ≠ .nan) :
    ∃ d, s.backoff.policy.delayWith? n sample = some d ∧
      (s.backoff.policy.delay n).nanos ≤ d.nanos ∧ 1000000 ≤ d.nanos ∧
      (s.backoff.capMillis.toNat ≤ 2592000000 →
        d.nanos ≤ 2 * (s.backoff.policy.delay n).nanos) := by
  have hvalid := Settings.fault?_eq_none_iff.mp h
  obtain ⟨d, hd⟩ := Option.isSome_iff_exists.mp (hvalid.isSome_delayWith? hsample n)
  have hle := Backoff.le_delayWith? hd
  refine ⟨d, hd, (le_max_right _ _).trans hle, (le_max_left _ _).trans hle, fun hmonth => ?_⟩
  have hcap : s.backoff.policy.cap.nanos < 2 ^ 22 * 1000000000 := by
    show s.backoff.capMillis.toNat * 1000000 < _
    omega
  have htwice := Backoff.delayWith?_le hcap hvalid.jitterRatio_ne_nan hsample hd
  have hmillisecond := hvalid.le_delay n
  omega

/-- Settings with backoffs of up to 30 days and as much jitter as is allowed. -/
def Settings.patient : Settings := { ({} : Settings) with backoff := ⟨1, 2592000000, .ofNat 1⟩ }

/-- The longest backoff is 30 days, and an infinite sample of jitter doubles it at most. -/
theorem an_infinite_sample_doubles_a_month :
    Settings.patient.fault? = none ∧ Binary64.infinity false ≠ .nan ∧
    ∃ d, Settings.patient.backoff.policy.delayWith? 40 (.infinity false) = some d ∧
      2592000000000000 ≤ d.nanos ∧ d.nanos ≤ 2 * 2592000000000000 := by
  have hvalid : Settings.patient.fault? = none := by decide +kernel
  have hsample : Binary64.infinity false ≠ .nan := nofun
  obtain ⟨d, hd, hlow, -, hhigh⟩ := every_attempt_has_a_delay hvalid 40 hsample
  exact ⟨hvalid, hsample, d, hd, hlow, hhigh (by decide)⟩

end SyncJobs
