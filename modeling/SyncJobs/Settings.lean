import SyncJobs.Pool
import SyncJobs.Backoff
import SyncJobs.Toml.Reader
import SyncJobs.Binary64.Shortest

/-!
# Settings

What can be set, the usual values, and what a value must satisfy. `Settings.fault?` names the
first rule that is broken. Settings are written in TOML or JSON; what is missing has its usual
value, and what is not a setting is skipped.
-/

namespace SyncJobs

/-- The settings of the delays between attempts. -/
structure BackoffSettings where
  baseMillis : UInt64 := 30000
  capMillis : UInt64 := 7680000
  jitterRatio : Binary64 := Backoff.usualJitterRatio
  deriving DecidableEq, Repr

/-- The rule for delays that the settings describe. -/
def BackoffSettings.policy (b : BackoffSettings) : Backoff :=
  ⟨.ofMillis b.baseMillis, .ofMillis b.capMillis, b.jitterRatio⟩

/-- **All settings.** -/
structure Settings where
  /-- the ceiling of attempts of a request that names none -/
  defaultMaxAttempts : UInt32 := 5
  /-- the time that one attempt may take -/
  timeoutMillis : UInt64 := 120000
  /-- how many due jobs are looked at in one pass -/
  window : UInt64 := 40
  /-- the time after which a running job counts as interrupted -/
  staleAfterMillis : UInt64 := 900000
  fairness : Fairness := .takeTurns
  limits : Limits := {}
  backoff : BackoffSettings := {}
  deriving DecidableEq, Repr

instance : Inhabited Settings := ⟨{}⟩

namespace Settings

/-- The time that one attempt may take. -/
def timeout (s : Settings) : Duration := .ofMillis s.timeoutMillis

/-- The time after which a running job counts as interrupted. -/
def staleAfter (s : Settings) : Duration := .ofMillis s.staleAfterMillis

/-! ## Rules -/

/-- A rule that settings break. -/
inductive Fault where
  /-- a number that must be positive is zero -/
  | zero (name : String)
  /-- the longest delay is shorter than the first -/
  | capBelowBase (cap base : UInt64)
  /-- the share of jitter is not in `[0, 1]` -/
  | jitterOutOfRange (ratio : Binary64)
  /-- an attempt could count as interrupted while it still has time -/
  | staleTooSoon (staleAfter timeout : UInt64)
  deriving DecidableEq, Repr

/-- The wording of a broken rule. -/
def Fault.message : Fault → String
  | zero name => s!"{name} must be >= 1"
  | capBelowBase cap base =>
    s!"backoff.max_delay_ms ({cap.toNat}) must be >= base_delay_ms ({base.toNat})"
  | jitterOutOfRange ratio => s!"backoff.jitter_ratio must be within [0, 1], got {ratio.plain}"
  | staleTooSoon stale timeout =>
    s!"stale_after_ms ({stale.toNat}) must be at least twice job_timeout_ms ({timeout.toNat})"

/-- The numbers that must be positive, in the order in which they are judged. -/
def positive (s : Settings) : List (String × Nat) :=
  [("default_max_attempts", s.defaultMaxAttempts.toNat), ("job_timeout_ms", s.timeoutMillis.toNat),
    ("candidate_window", s.window.toNat), ("concurrency.max_global", s.limits.total),
    ("concurrency.max_per_domain", s.limits.perDomain),
    ("concurrency.max_per_account", s.limits.perAccount),
    ("concurrency.max_per_account_domain", s.limits.perAccountDomain),
    ("backoff.base_delay_ms", s.backoff.baseMillis.toNat)]

/-- Twice the time of an attempt; the number stops at the largest of 64 bits. -/
def twiceTimeout (s : Settings) : Nat := min (2 * s.timeoutMillis.toNat) 0xffffffffffffffff

/-- **The first rule that the settings break.** -/
def fault? (s : Settings) : Option Fault :=
  match s.positive.find? fun p => p.2 = 0 with
  | some (name, _) => some (.zero name)
  | none =>
    if s.backoff.capMillis < s.backoff.baseMillis then
      some (.capBelowBase s.backoff.capMillis s.backoff.baseMillis)
    else if !(Binary64.within (Binary64.zero false) (Binary64.ofNat 1) s.backoff.jitterRatio) then
      some (.jitterOutOfRange s.backoff.jitterRatio)
    else if s.staleAfterMillis.toNat < s.twiceTimeout then
      some (.staleTooSoon s.staleAfterMillis s.timeoutMillis)
    else none

/-- Whether the settings break no rule. -/
def isValid (s : Settings) : Bool := s.fault?.isNone

/-- **What settings that break no rule satisfy.** -/
structure Valid (s : Settings) : Prop where
  positive : ∀ p ∈ s.positive, p.2 ≠ 0
  ordered : s.backoff.baseMillis ≤ s.backoff.capMillis
  jitter : Binary64.within (Binary64.zero false) (Binary64.ofNat 1) s.backoff.jitterRatio
  /-- an attempt has as much time again before it counts as interrupted -/
  slack : s.twiceTimeout ≤ s.staleAfterMillis.toNat

/-- **No rule is broken** exactly if all of them are kept. -/
theorem fault?_eq_none_iff {s : Settings} : s.fault? = none ↔ s.Valid := by
  have hpositive : (s.positive.find? fun p => p.2 = 0) = none ↔ ∀ p ∈ s.positive, p.2 ≠ 0 := by
    simp
  rw [fault?]
  constructor
  · intro h
    cases hp : s.positive.find? fun p => p.2 = 0 with
    | some p => simp [hp] at h
    | none =>
      simp only [hp] at h
      split at h
      · cases h
      · rename_i hordered
        split at h
        · cases h
        · rename_i hjitter
          split at h
          · cases h
          · rename_i hslack
            exact ⟨hpositive.mp hp, UInt64.not_lt.mp hordered, by simpa using hjitter,
              Nat.not_lt.mp hslack⟩
  · intro h
    have hordered := UInt64.not_lt.mpr h.ordered
    have hslack := Nat.not_lt.mpr h.slack
    simp only [hpositive.mpr h.positive, hordered, h.jitter, hslack, if_false, Bool.not_true,
      Bool.false_eq_true]

/-! ## Reading and writing -/

/-- The settings of the delays as a value. -/
def backoffToJson (b : BackoffSettings) : Json := .object
  [("base_delay_ms", .ofUInt64 b.baseMillis), ("max_delay_ms", .ofUInt64 b.capMillis),
    ("jitter_ratio", .float b.jitterRatio)]

/-- Reads the settings of the delays. -/
def backoffOfJson? : Json → Option BackoffSettings := Json.record do
  let usual : BackoffSettings := {}
  let baseMillis ← Json.Fields.defaulted "base_delay_ms" Json.uint64? usual.baseMillis
  let capMillis ← Json.Fields.defaulted "max_delay_ms" Json.uint64? usual.capMillis
  let jitterRatio ← Json.Fields.defaulted "jitter_ratio" Json.float? usual.jitterRatio
  return { baseMillis, capMillis, jitterRatio }

/-- Settings as a value. -/
def toJson (s : Settings) : Json := .object
  [("default_max_attempts", .ofUInt32 s.defaultMaxAttempts),
    ("job_timeout_ms", .ofUInt64 s.timeoutMillis), ("candidate_window", .ofUInt64 s.window),
    ("stale_after_ms", .ofUInt64 s.staleAfterMillis), ("fairness", s.fairness.toJson),
    ("concurrency", s.limits.toJson), ("backoff", backoffToJson s.backoff)]

/-- Reads settings; each may be missing. -/
def ofJson? : Json → Option Settings := Json.record do
  let usual : Settings := {}
  let defaultMaxAttempts ←
    Json.Fields.defaulted "default_max_attempts" Json.uint32? usual.defaultMaxAttempts
  let timeoutMillis ← Json.Fields.defaulted "job_timeout_ms" Json.uint64? usual.timeoutMillis
  let window ← Json.Fields.defaulted "candidate_window" Json.uint64? usual.window
  let staleAfterMillis ← Json.Fields.defaulted "stale_after_ms" Json.uint64? usual.staleAfterMillis
  let fairness ← Json.Fields.defaulted "fairness" Fairness.ofJson? usual.fairness
  let limits ← Json.Fields.defaulted "concurrency" Limits.ofJson? usual.limits
  let backoff ← Json.Fields.defaulted "backoff" backoffOfJson? usual.backoff
  return { defaultMaxAttempts, timeoutMillis, window, staleAfterMillis, fairness, limits, backoff }

/-- Why settings could not be had from a file. -/
inductive LoadError where
  /-- the file is missing or is not text -/
  | unreadable
  /-- the text is not a document, or a setting has a value of the wrong type -/
  | malformed
  /-- a rule is broken -/
  | invalid (fault : Fault)
  deriving DecidableEq, Repr

/-- The wording of the error, as far as it is fixed. -/
def LoadError.message : LoadError → String
  | .unreadable => "cannot read config file"
  | .malformed => "cannot parse config"
  | .invalid fault => s!"invalid config: {fault.message}"

/-- **Reads settings from a TOML text** and judges them. -/
def ofToml (text : String) : Except LoadError Settings :=
  match (Toml.parse? text).bind fun v => ofJson? v.toJson with
  | none => .error .malformed
  | some s => match s.fault? with
    | some fault => .error (.invalid fault)
    | none => .ok s

/-- Reads settings from the bytes of a file; `none` stands for a file that is missing. -/
def ofFile (content : Option ByteArray) : Except LoadError Settings :=
  match content.bind String.fromUTF8? with
  | none => .error .unreadable
  | some text => ofToml text

end Settings

end SyncJobs
