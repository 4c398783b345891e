import Mathlib.Data.Option.Basic
import SyncJobs.Json.Reader
import SyncJobs.Json.Writer

/-!
# Texts of numbers

A number is written as a numeral: a sign, digits, digits behind a point, and an exponent. Every
proper numeral is read back from its text, whatever stands behind it (`Numeral.number?_chars`). What
it is read as is up to the reader, who takes as many digits as fit 64 bits; an integer is read as
what it was (`Reader.number?_integerText`).
-/

namespace SyncJobs

namespace Json

namespace Reader

/-! ## Runs of digits -/

/-- A text goes on behind a value with what may stand there: nothing, a comma or a bracket. -/
def Closes (rest : List Char) : Prop := ∀ c ∈ rest.head?, c ∈ [',', ']', '\x7d']

/-- What may stand behind a value, case by case. -/
theorem Closes.cases {rest : List Char} (h : Closes rest) :
    rest = [] ∨ ∃ cs, rest = ',' :: cs ∨ rest = ']' :: cs ∨ rest = '\x7d' :: cs := by
  cases rest with
  | nil => exact .inl rfl
  | cons c cs =>
    have hc := h c rfl
    simp only [List.mem_cons, List.not_mem_nil, or_false] at hc
    rcases hc with rfl | rfl | rfl <;> simp

/-- No digit stands at the start of a text. -/
def Stops (rest : List Char) : Prop := ∀ c ∈ rest.head?, c.isDigit = false

theorem Closes.stops {rest : List Char} (h : Closes rest) : Stops rest := by
  intro c hc
  have hmem := h c hc
  simp only [List.mem_cons, List.not_mem_nil, or_false] at hmem
  rcases hmem with rfl | rfl | rfl <;> rfl

theorem stops_cons {c : Char} {cs : List Char} (h : c.isDigit = false) : Stops (c :: cs) := by
  rintro _ ⟨⟩
  exact h

/-- Digits are read up to what follows them. -/
theorem digits_append {ds rest : List Char} (hds : ∀ c ∈ ds, c.isDigit) (hrest : Stops rest) :
    digits (ds ++ rest) = (ds, rest) := by
  rw [digits, List.takeWhile_append_of_pos hds, List.dropWhile_append_of_pos hds]
  cases rest with
  | nil => simp
  | cons c cs => simp [hrest c rfl]

/-- Digits differ from all other characters. -/
theorem isDigit_ne {c : Char} (h : c.isDigit) {d : Char} (hd : d.isDigit = false) : c ≠ d := by
  rintro rfl
  exact absurd h (by simp [hd])

/-- Only zero begins with a zero. -/
theorem head?_toDigits {n : Nat} (h : 0 < n) : (Nat.toDigits 10 n).head? ≠ some '0' := by
  induction n using Nat.strongRecOn with
  | ind n ih =>
    by_cases hn : n < 10
    · have hall : ∀ n < 10, 0 < n → n.digitChar ≠ '0' := by decide
      rw [Nat.toDigits_of_lt_base hn]
      exact fun he => hall n hn h (Option.some.inj he)
    · rw [Nat.toDigits_of_base_le (by decide) (by omega),
        List.head?_append, Option.or_of_isSome (by simp [Nat.toDigits_ne_nil])]
      exact ih _ (by omega) (by omega)

/-- The digits of a positive number begin with one that is not zero. -/
theorem exists_cons_toDigits {n : Nat} (h : 0 < n) :
    ∃ d ds, Nat.toDigits 10 n = d :: ds ∧ d ≠ '0' := by
  obtain ⟨d, ds, hds⟩ := List.exists_cons_of_ne_nil (Nat.toDigits_ne_nil (n := n) (b := 10))
  have hhead := head?_toDigits h
  rw [hds] at hhead
  exact ⟨d, ds, hds, fun hd => hhead (congrArg some hd)⟩

theorem isDigit_zeros {n : Nat} : ∀ c ∈ List.replicate n '0', c.isDigit := by
  intro c hc
  rw [List.eq_of_mem_replicate hc]
  rfl

theorem isDigit_toDigits {n : Nat} : ∀ c ∈ Nat.toDigits 10 n, c.isDigit := fun _ hc =>
  Nat.isDigit_of_mem_toDigits (by decide) (by decide) hc

theorem naturalOf_toDigits (n : Nat) : naturalOf (Nat.toDigits 10 n) = n := by
  have hfold : ∀ (ds : List Char) (m : Nat),
      ds.foldl (fun n c => n * 10 + digitValue c) m = Nat.ofDigitChars 10 ds m := by
    intro ds m
    simp only [Nat.ofDigitChars_eq_foldl, digitValue, Nat.mul_comm]
  rw [naturalOf, hfold, Nat.ofDigitChars_ten_toDigits]

/-! ## Numerals -/

/-- The sign of a number. -/
def sign (negative : Bool) : List Char := if negative then ['-'] else []

namespace Numeral

/-- The point and the digits behind it. -/
def fractionChars : Option (List Char) → List Char
  | none => []
  | some ds => '.' :: ds

/-- The letter of the exponent, its sign and its digits. -/
def exponentChars : Option (Bool × List Char) → List Char
  | none => []
  | some (negative, ds) => 'e' :: (sign negative ++ ds)

/-- **The text of a numeral.** -/
def chars (n : Numeral) : List Char :=
  sign n.negative ++ (n.whole ++ (fractionChars n.fraction ++ exponentChars n.exponent))

/-- **A numeral as numbers are written:** there are digits in each part, and no zero leads others. -/
structure IsProper (n : Numeral) : Prop where
  whole : ∀ c ∈ n.whole, c.isDigit
  leads : n.whole.length = 1 ∨ ∃ d ds, n.whole = d :: ds ∧ d ≠ '0'
  fraction : ∀ ds, n.fraction = some ds → ds ≠ [] ∧ ∀ c ∈ ds, c.isDigit
  exponent : ∀ negative ds, n.exponent = some (negative, ds) → ds ≠ [] ∧ ∀ c ∈ ds, c.isDigit

theorem IsProper.exists_cons {n : Numeral} (h : n.IsProper) : ∃ d ds, n.whole = d :: ds := by
  obtain hone | ⟨d, ds, hds, -⟩ := h.leads
  · exact List.exists_cons_of_length_pos (by omega)
  · exact ⟨d, ds, hds⟩

/-- The sign and the digits of an exponent are read up to what follows them. -/
theorem exponent?_append (negative : Bool) {ds rest : List Char} (hne : ds ≠ [])
    (hds : ∀ c ∈ ds, c.isDigit) (hrest : Stops rest) :
    numeral?.exponent? (sign negative ++ (ds ++ rest)) = some ((negative, ds), rest) := by
  have hdig := digits_append hds hrest
  obtain ⟨d, ds, rfl⟩ := List.exists_cons_of_ne_nil hne
  have hd := hds d List.mem_cons_self
  have hplus : ¬ d = '+' := isDigit_ne hd (by decide)
  have hminus : ¬ d = '-' := isDigit_ne hd (by decide)
  rw [List.cons_append] at hdig ⊢
  cases negative <;> simp [numeral?.exponent?, sign, hplus, hminus, hdig]

theorem stops_exponentChars (exponent : Option (Bool × List Char)) {rest : List Char}
    (hrest : Closes rest) : Stops (exponentChars exponent ++ rest) := by
  cases exponent with
  | none => exact hrest.stops
  | some e => exact stops_cons (by decide)

theorem stops_fractionChars (fraction : Option (List Char)) {rest : List Char}
    (hrest : Stops rest) : Stops (fractionChars fraction ++ rest) := by
  cases fraction with
  | none => exact hrest
  | some ds => exact stops_cons (by decide)

/-- **Numerals are read back** from their texts, part by part. -/
theorem numeral?_chars {n : Numeral} (h : n.IsProper) {rest : List Char} (hrest : Closes rest) :
    numeral? (n.chars ++ rest) = some (n, rest) := by
  obtain ⟨negative, whole, fraction, exponent⟩ := n
  have hstop := stops_exponentChars exponent hrest
  have hwhole := digits_append h.whole (stops_fractionChars fraction hstop)
  obtain ⟨d, ds, rfl⟩ : ∃ d ds, whole = d :: ds := h.exists_cons
  have hminus : ¬ d = '-' := isDigit_ne (h.whole d List.mem_cons_self) (by decide)
  have hleads : ds = [] ∨ d ≠ '0' := by
    obtain hone | ⟨d', ds', hcons, hne⟩ := h.leads
    · exact .inl (List.length_eq_zero_iff.mp (Nat.succ.inj hone))
    · exact .inr ((List.cons.inj hcons).1 ▸ hne)
  have htext : (Numeral.mk negative (d :: ds) fraction exponent).chars ++ rest =
      sign negative ++ (d :: (ds ++ (fractionChars fraction ++ (exponentChars exponent ++ rest)))) := by
    simp [chars]
  rw [List.cons_append] at hwhole
  rw [htext]
  -- what is behind the digits decides which parts are looked for
  cases fraction with
  | none =>
    cases exponent with
    | none =>
      simp only [fractionChars, exponentChars, List.nil_append] at hwhole ⊢
      rcases hrest.cases with rfl | ⟨cs, rfl | rfl | rfl⟩
      · rw [List.append_nil] at hwhole ⊢
        cases negative <;> simp [numeral?, sign, hminus, hwhole, hleads, guard]
      all_goals cases negative <;> simp [numeral?, sign, hminus, hwhole, hleads, guard]
    | some e =>
      obtain ⟨shrinks, es⟩ := e
      obtain ⟨hne, hes⟩ := h.exponent shrinks es rfl
      have hexponent := exponent?_append shrinks hne hes hrest.stops
      simp only [fractionChars, exponentChars, List.nil_append, List.cons_append,
        List.append_assoc] at hwhole ⊢
      generalize sign shrinks ++ (es ++ rest) = tail at hwhole hexponent ⊢
      cases negative <;> simp [numeral?, sign, hminus, hwhole, hleads, guard, hexponent]
  | some fs =>
    obtain ⟨hfne, hfs⟩ := h.fraction fs rfl
    have hfraction := digits_append hfs hstop
    cases exponent with
    | none =>
      simp only [fractionChars, exponentChars, List.nil_append,
        List.cons_append] at hwhole hfraction ⊢
      rcases hrest.cases with rfl | ⟨cs, rfl | rfl | rfl⟩
      · rw [List.append_nil] at hwhole hfraction ⊢
        cases negative <;> simp [numeral?, sign, hminus, hwhole, hleads, guard, hfraction, hfne]
      all_goals
        cases negative <;> simp [numeral?, sign, hminus, hwhole, hleads, guard, hfraction, hfne]
    | some e =>
      obtain ⟨shrinks, es⟩ := e
      obtain ⟨hne, hes⟩ := h.exponent shrinks es rfl
      have hexponent := exponent?_append shrinks hne hes hrest.stops
      simp only [fractionChars, exponentChars, List.cons_append,
        List.append_assoc] at hwhole hfraction ⊢
      generalize sign shrinks ++ (es ++ rest) = tail at hwhole hfraction hexponent ⊢
      cases negative <;>
        simp [numeral?, sign, hminus, hwhole, hleads, guard, hfraction, hfne, hexponent]

/-- What a numeral is read as is up to its value. -/
theorem number?_chars {n : Numeral} (h : n.IsProper) {rest : List Char} (hrest : Closes rest) :
    number? (n.chars ++ rest) = n.value?.map fun v => (v, rest) := by
  rw [number?, numeral?_chars h hrest]
  show (n.value?.bind fun v => some (v, rest)) = _
  cases n.value? <;> rfl

end Numeral

/-! ## Integers -/

/-- The digits of a number lead with a zero only if there are no others. -/
theorem leads_toDigits (n : Nat) : (Nat.toDigits 10 n).length = 1 ∨
    ∃ d ds, Nat.toDigits 10 n = d :: ds ∧ d ≠ '0' := by
  rcases Nat.eq_zero_or_pos n with rfl | h
  · exact .inl rfl
  · exact .inr (exists_cons_toDigits h)

/-- The numeral of an integer. -/
def Numeral.ofInteger (n : Int) : Numeral :=
  ⟨decide (n < 0), Nat.toDigits 10 n.natAbs, none, none⟩

theorem isProper_ofInteger (n : Int) : (Numeral.ofInteger n).IsProper where
  whole := isDigit_toDigits
  leads := leads_toDigits n.natAbs
  fraction _ h := nomatch h
  exponent _ _ h := nomatch h

theorem toList_integerText (n : Int) :
    (integerText n).toList = (Numeral.ofInteger n).chars := by
  rw [integerText, Numeral.ofInteger, Numeral.chars, sign]
  by_cases h : n < 0
  · simp [h, Numeral.fractionChars, Numeral.exponentChars]
  · have habs : n.toNat = n.natAbs := by omega
    simp [h, habs, Numeral.fractionChars, Numeral.exponentChars]

/-- How the texts of numerals begin. -/
theorem chars_eq_cons {n : Numeral} (h : n.IsProper) :
    ∃ d ds, n.chars = d :: ds ∧ (d.isDigit ∨ d = '-') := by
  obtain ⟨d, ds, hds⟩ := h.exists_cons
  rw [Numeral.chars, sign, hds]
  split
  · exact ⟨'-', _, rfl, .inr rfl⟩
  · exact ⟨d, _, rfl, .inl (h.whole d (hds ▸ List.mem_cons_self))⟩

/-- How the texts of integers begin. -/
theorem integerText_eq_cons (n : Int) :
    ∃ d ds, (integerText n).toList = d :: ds ∧ (d.isDigit ∨ d = '-') := by
  rw [toList_integerText]
  exact chars_eq_cons (isProper_ofInteger n)

/-- **Integers are read back.** -/
theorem number?_integerText (n : Integer) {rest : List Char} (hrest : Closes rest) :
    number? ((integerText n.value).toList ++ rest) = some (.integer n, rest) := by
  have hsigned : (if n.value < 0 then -(n.value.natAbs : Int) else n.value.natAbs) = n.value := by
    split <;> omega
  have hnotzero : ¬ (n.value < 0 ∧ n.value = 0) := by omega
  have hof : Integer.ofInt? n.value = some n := dif_pos ⟨n.lower, n.upper⟩
  rw [toList_integerText, Numeral.number?_chars (isProper_ofInteger n.value) hrest]
  simp only [Numeral.ofInteger, Numeral.value?, naturalOf_toDigits, decide_eq_true_eq, hsigned,
    hnotzero, hof, Option.isNone_none, not_false_eq_true, and_self, if_true, Option.map_some]

end Reader

end Json

end SyncJobs
