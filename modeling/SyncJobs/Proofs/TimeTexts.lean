import SyncJobs.Proofs.Calendar
import SyncJobs.Proofs.FloatTexts
import SyncJobs.Time.Text

/-!
# Instants are read back

Every instant is read back from its text (`Instant.parse?_text`), from the first one to the last. A
text is read from left to right, and each part leaves what stands behind it: numbers of fixed width
take as many digits as they were written with (`TimeText.number?_padded`), years with a sign and
fractions of a second take all digits there are (`TimeText.year?_yearText`,
`TimeText.fraction?_fractionText`). The reader allows for more than is written, above all for blanks,
but nothing that is written is taken for a blank.
-/

namespace SyncJobs

open Json.Reader

/-! ## Digits with zeros in front -/

section Padded

variable {width n : Nat}

theorem toList_padded : (padded width n).toList =
    List.replicate (width - (Nat.toDigits 10 n).length) '0' ++ Nat.toDigits 10 n := by
  rw [padded, String.toList_ofList]

theorem isDigit_padded : ∀ c ∈ (padded width n).toList, c.isDigit := by
  intro c hc
  rw [toList_padded] at hc
  exact (List.mem_append.mp hc).elim (isDigit_zeros c) (isDigit_toDigits c)

/-- Zeros in front do not change the value. -/
theorem valueOf_padded : TimeText.valueOf (padded width n).toList = n := by
  show naturalOf (padded width n).toList = n
  rw [toList_padded, naturalOf_append, naturalOf_zeros, naturalOf_toDigits, Nat.zero_mul,
    Nat.zero_add]

/-- A number that is not too long has the width it was written with. -/
theorem length_padded (h : n < 10 ^ width) (hpos : 0 < width) :
    (padded width n).toList.length = width := by
  have hle := (Nat.length_toDigits_le_iff (by decide) hpos).mpr h
  rw [toList_padded, List.length_append, List.length_replicate]
  omega

theorem exists_cons_padded (width n : Nat) :
    ∃ d ds, (padded width n).toList = d :: ds ∧ d.isDigit := by
  have hne : (padded width n).toList ≠ [] := by
    rw [toList_padded]
    exact List.append_ne_nil_of_right_ne_nil _ Nat.toDigits_ne_nil
  obtain ⟨d, ds, hcons⟩ := List.exists_cons_of_ne_nil hne
  exact ⟨d, ds, hcons, isDigit_padded d (hcons ▸ List.mem_cons_self)⟩

theorem isEmpty_padded : (padded width n).toList.isEmpty = false := by
  obtain ⟨d, ds, hcons, -⟩ := exists_cons_padded width n
  rw [hcons]
  rfl

/-- All digits are taken, if no digit follows. -/
theorem takeWhile_padded {rest : List Char} (hrest : Stops rest) :
    ((padded width n).toList ++ rest).takeWhile Char.isDigit = (padded width n).toList :=
  (Prod.mk.inj (digits_append isDigit_padded hrest)).1

end Padded

namespace TimeText

/-! ## Numbers -/

/-- No digit is a blank. -/
theorem skipBlanks_of_isDigit {c : Char} {cs : List Char} (h : c.isDigit) :
    skipBlanks (c :: cs) = c :: cs := by
  have hbounds := Char.isDigit_iff_toNat.mp h
  have hzero : '0'.toNat = 48 := rfl
  have hnine : '9'.toNat = 57 := rfl
  have hblank : isBlank c = false := by
    simp [isBlank]
    omega
  exact List.dropWhile_cons_of_neg (by simp [hblank])

/-- **Numbers of fixed width are read back,** even if digits follow. -/
theorem number?_padded {width n : Nat} (h : n < 10 ^ width) (hpos : 0 < width) (rest : List Char) :
    number? width ((padded width n).toList ++ rest) = some (n, rest) := by
  have hblanks : skipBlanks ((padded width n).toList ++ rest) =
      (padded width n).toList ++ rest := by
    obtain ⟨d, ds, hcons, hd⟩ := exists_cons_padded width n
    rw [hcons, List.cons_append, skipBlanks_of_isDigit hd]
  have htake : (((padded width n).toList ++ rest).take width).takeWhile Char.isDigit =
      (padded width n).toList := by
    rw [List.take_left' (length_padded h hpos)]
    simpa using takeWhile_padded (show Stops [] by rintro _ ⟨⟩)
  simp only [number?, hblanks, htake, isEmpty_padded, valueOf_padded, List.drop_left,
    Bool.false_eq_true, if_false]

/-- A character that is not a blank is read. -/
theorem mark?_cons {c : Char} (h : isBlank c = false) (cs : List Char) :
    mark? c (c :: cs) = some cs := by
  simp [mark?, skipBlanks, h]

/-! ## Years -/

/-- The digits behind a sign are read up to what follows them. -/
theorem digits?_padded {width n : Nat} (h : n < 0x8000000000000000) (sign : Int → Int)
    {rest : List Char} (hrest : Stops rest) :
    year?.digits? ((padded width n).toList ++ rest) sign = some (sign n, rest) := by
  simp only [year?.digits?, takeWhile_padded hrest, isEmpty_padded, valueOf_padded,
    Nat.not_le.mpr h, List.drop_left, decide_false, Bool.or_self, Bool.false_eq_true, if_false]

theorem year?_minus (cs : List Char) : year? ('-' :: cs) = year?.digits? cs fun n => -n := by
  rw [year?]
  rfl

theorem year?_plus (cs : List Char) : year? ('+' :: cs) = year?.digits? cs fun n => n := by
  rw [year?]
  rfl

theorem year?_of_isDigit {c : Char} (h : c.isDigit) (cs : List Char) :
    year? (c :: cs) = (number? 4 (c :: cs)).map fun (n, rest) => (n, rest) := by
  have hplus : c ≠ '+' := isDigit_ne h (by decide)
  have hminus : c ≠ '-' := isDigit_ne h (by decide)
  rw [year?, skipBlanks_of_isDigit h]
  split <;> simp_all

/-- **Years are read back.** -/
theorem year?_yearText {year : Int} (h : year.natAbs < 0x8000000000000000) {rest : List Char}
    (hrest : Stops rest) : year? ((yearText year).toList ++ rest) = some (year, rest) := by
  rw [yearText]
  split
  -- four digits without a sign
  · rename_i hplain
    obtain ⟨n, rfl⟩ := Int.eq_ofNat_of_zero_le hplain.1
    obtain ⟨d, ds, hcons, hd⟩ := exists_cons_padded 4 n
    have hnumber : number? 4 ((padded 4 n).toList ++ rest) = some (n, rest) :=
      number?_padded (by omega) (by decide) rest
    rw [hcons, List.cons_append] at hnumber
    rw [Int.toNat_natCast, hcons, List.cons_append, year?_of_isDigit hd, hnumber]
    rfl
  -- a sign, and at least four digits
  · have hminus : "-".toList = ['-'] := rfl
    have hplus : "+".toList = ['+'] := rfl
    rw [String.toList_append, List.append_assoc]
    split
    · have hsigned : -(year.natAbs : Int) = year := by omega
      rw [hminus, List.singleton_append, year?_minus, digits?_padded h _ hrest, hsigned]
    · have hsigned : (year.natAbs : Int) = year := by omega
      rw [hplus, List.singleton_append, year?_plus, digits?_padded h _ hrest, hsigned]

/-! ## Fractions of a second -/

/-- The digits behind a point are read up to what follows them, and are filled up to nine. -/
theorem fraction?_padded {places n : Nat} (h : n < 10 ^ places) (hpos : 0 < places)
    (hle : places ≤ 9) {rest : List Char} (hrest : Stops rest) :
    fraction? (("." ++ padded places n).toList ++ rest) = some (n * 10 ^ (9 - places), rest) := by
  have hlength := length_padded h hpos
  have hkept : (padded places n).toList.take 9 = (padded places n).toList :=
    List.take_of_length_le (by omega)
  have hdrop : ((padded places n).toList ++ rest).drop places = rest := List.drop_left' hlength
  have hpoint : ".".toList = ['.'] := rfl
  rw [String.toList_append, List.append_assoc, hpoint, List.singleton_append]
  simp only [fraction?, takeWhile_padded hrest, hkept, isEmpty_padded, valueOf_padded, hlength,
    hdrop, Bool.false_eq_true, if_false]
  rfl

/-- **Fractions of a second are read back,** whether they are written with three, six or nine
digits, or left out. -/
theorem fraction?_fractionText {nanos : Nat} (h : nanos < 1000000000) (rest : List Char) :
    fraction? ((fractionText nanos).toList ++ 'Z' :: rest) = some (nanos, 'Z' :: rest) := by
  have hstop : Stops ('Z' :: rest) := stops_cons (by decide)
  rw [fractionText]
  split
  · rename_i hzero
    rw [hzero]
    rfl
  split
  · have hfill : nanos / 1000000 * 10 ^ (9 - 3) = nanos := by omega
    rw [fraction?_padded (by omega) (by decide) (by decide) hstop, hfill]
  split
  · have hfill : nanos / 1000 * 10 ^ (9 - 6) = nanos := by omega
    rw [fraction?_padded (by omega) (by decide) (by decide) hstop, hfill]
  · rw [fraction?_padded h (by decide) (by decide) hstop, Nat.sub_self, Nat.pow_zero, Nat.mul_one]

/-- Reading goes on behind what was read. -/
theorem reads_on {α β : Type} {m : Option α} {f : α → Option β} {a : α} {b : β} (h : m = some a)
    (hf : f a = some b) : (m >>= f) = some b := by
  rw [h]
  exact hf

end TimeText

namespace Instant

open TimeText

/-! ## Instants -/

/-- The characters for a date, the seconds since the day began, and the nanoseconds behind them. -/
def chars (date : Date) (clock nanos : Nat) : List Char :=
  (yearText date.year).toList ++ '-' :: ((padded 2 date.month).toList ++ '-' ::
    ((padded 2 date.day).toList ++ 'T' :: ((padded 2 (clock / 3600)).toList ++ ':' ::
      ((padded 2 (clock / 60 % 60)).toList ++ ':' :: ((padded 2 (clock % 60)).toList ++
        ((fractionText nanos).toList ++ ['Z']))))))

theorem toList_text (t : Instant) : t.text.toList =
    chars (Date.ofDays (t.seconds / 86400)) (t.seconds % 86400).toNat
      (t.nanos % 1000000000).toNat := by
  simp [text, chars]

/-- A date and a time of day are read as the instant that they stand for. -/
theorem parse?_chars {date : Date} {clock nanos : Nat} {t : Instant} (hdate : date.isValid)
    (hyear : date.year.natAbs < 0x8000000000000000) (hclock : clock < 86400)
    (hnanos : nanos < 1000000000)
    (ht : (date.toDays * 86400 + clock) * 1000000000 + nanos = t.nanos) :
    parse? (String.ofList (chars date clock nanos)) = some t := by
  have hbounds := hdate
  simp only [Date.isValid, Bool.and_eq_true, decide_eq_true_eq] at hbounds
  have hlength := Date.daysInMonth_le date.year date.month
  have hdash : isBlank '-' = false := by decide
  have hcolon : isBlank ':' = false := by decide
  have hinstant : ofNanos? t.nanos = some t := dif_pos ⟨t.lower, t.upper⟩
  rw [parse?, String.toList_ofList, chars]
  refine reads_on (year?_yearText hyear (stops_cons (by decide))) ?_
  refine reads_on (mark?_cons hdash _) (reads_on (number?_padded (by omega) (by decide) _) ?_)
  refine reads_on (mark?_cons hdash _) (reads_on (number?_padded (by omega) (by decide) _) ?_)
  refine reads_on rfl (reads_on (number?_padded (by omega) (by decide) _) ?_)
  refine reads_on (mark?_cons hcolon _) (reads_on (number?_padded (by omega) (by decide) _) ?_)
  refine reads_on (mark?_cons hcolon _) (reads_on (number?_padded (by omega) (by decide) _) ?_)
  refine reads_on (fraction?_fractionText hnanos []) (reads_on (a := (0, [])) rfl ?_)
  -- nothing is left, all parts are in range, and the zone is UTC
  refine reads_on (a := ()) rfl (reads_on (a := ()) (if_pos ?_) (reads_on (a := ()) rfl ?_))
  · simp [hdate]
    omega
  · have hclocks : clock / 3600 * 3600 + clock / 60 % 60 * 60 + clock % 60 = clock := by omega
    refine reads_on (a := t) ?_ ?_
    · simp only [hclocks, ht]
      exact hinstant
    · simpa using hinstant

/-- **Instants are read back.** -/
theorem parse?_text (t : Instant) : parse? t.text = some t := by
  have hlower := t.lower
  have hupper := t.upper
  have hseconds : t.seconds = t.nanos / 1000000000 := rfl
  have hyear := Date.natAbs_year_ofDays_le (t.seconds / 86400)
  rw [← String.ofList_toList (s := t.text), toList_text]
  refine parse?_chars (Date.isValid_ofDays _) (by omega) (by omega) (by omega) ?_
  rw [Date.toDays_ofDays]
  omega

end Instant

end SyncJobs
