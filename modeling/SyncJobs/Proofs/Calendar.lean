import SyncJobs.Time.Calendar

/-!
# Days and dates

The date of a day is a date that there is (`Date.isValid_ofDays`), and it is counted as the day that
it was found for (`Date.toDays_ofDays`).

Years are counted from March and in eras, so a date is found in two steps: the year of the era, and
the day of that year. The first step takes the leap days out of the days of the era before it
divides by 365 (`Date.plainDays`). It is right on the first and on the last day of each year of an
era, which can be checked, and what is left of the days never gets less, so it is right in between
(`Date.exists_year`). The second step knows no leap years, because the leap day is the last day of a
year that begins in March (`Date.ofMarch`).
-/

namespace SyncJobs

namespace Date

/-! ## Years of an era -/

/-- The days of an era before one of its years, or before the next era. -/
def yearStart (year : Int) : Int := year * 365 + year / 4 - year / 100 + year / 400

/-- The days of an era before one of its days, less the leap days among them. -/
def plainDays (dayOfEra : Int) : Int :=
  dayOfEra - dayOfEra / 1460 + dayOfEra / 36524 - dayOfEra / 146096

theorem plainDays_le_plainDays {d e : Int} (h : d ≤ e) : plainDays d ≤ plainDays e := by
  unfold plainDays
  omega

/-- A year begins as soon as 365 plain days have passed since the last one began. -/
theorem plainDays_yearStart {year : Nat} (hpos : 0 < year) (h : year ≤ 400) :
    plainDays (yearStart year - 1) < year * 365 ∧ year * 365 ≤ plainDays (yearStart year) := by
  have hall : ∀ year : Nat, year < 401 → 0 < year →
      plainDays (yearStart year - 1) < year * 365 ∧ year * 365 ≤ plainDays (yearStart year) := by
    decide +kernel
  exact hall year (Nat.lt_succ_of_le h) hpos

/-- **The year of a day** begins on that day or before it, and the next one does not. -/
theorem exists_year {dayOfEra : Int} (hpos : 0 ≤ dayOfEra) (h : dayOfEra < 146097) :
    ∃ year : Int, year = plainDays dayOfEra / 365 ∧ (0 ≤ year ∧ year < 400) ∧
      yearStart year ≤ dayOfEra ∧ dayOfEra < yearStart (year + 1) := by
  have hlow : 0 ≤ plainDays dayOfEra := plainDays_le_plainDays hpos
  have hhigh : plainDays dayOfEra ≤ 145999 :=
    plainDays_le_plainDays (show dayOfEra ≤ 146096 by omega)
  obtain ⟨year, hyear⟩ : ∃ year : Nat, plainDays dayOfEra / 365 = year :=
    Int.eq_ofNat_of_zero_le (by omega)
  refine ⟨year, hyear.symm, by omega, Int.not_lt.mp fun hlt => ?_, Int.not_le.mp fun hle => ?_⟩
  · have hmono := plainDays_le_plainDays (Int.le_sub_one_of_lt hlt)
    obtain rfl | hyearpos := Nat.eq_zero_or_pos year
    · exact absurd hlt (Int.not_lt.mpr hpos)
    · have hstart := (plainDays_yearStart hyearpos (by omega)).1
      omega
  · have hmono := plainDays_le_plainDays hle
    have hstart := (plainDays_yearStart year.succ_pos (by omega)).2
    rw [Int.natCast_succ] at hstart
    omega

/-! ## Days of a year -/

/-- The date a number of days after the first of March of a year. -/
def ofMarch (year dayOfYear : Int) : Date :=
  let monthFromMarch := (5 * dayOfYear + 2) / 153
  let day := dayOfYear - (153 * monthFromMarch + 2) / 5 + 1
  let month := if monthFromMarch < 10 then monthFromMarch + 3 else monthFromMarch - 9
  ⟨if month ≤ 2 then year + 1 else year, month.toNat, day.toNat⟩

/-- **Each date is a day of a year that begins in March.** -/
theorem exists_ofMarch (days : Int) : ∃ era year dayOfYear : Int,
    ofDays days = ofMarch (year + era * 400) dayOfYear ∧
    days + 719468 = era * 146097 + yearStart year + dayOfYear ∧ (0 ≤ year ∧ year < 400) ∧
    0 ≤ dayOfYear ∧ yearStart year + dayOfYear < yearStart (year + 1) := by
  have hpos := Int.emod_nonneg (days + 719468) (show (146097 : Int) ≠ 0 by decide)
  have hlt := Int.emod_lt_of_pos (days + 719468) (show 0 < 146097 by decide)
  obtain ⟨year, hyear, hrange, hstart, hend⟩ := exists_year hpos hlt
  -- the 400th year belongs to the next era
  have hplain : 365 * year + year / 4 - year / 100 = yearStart year := by
    unfold yearStart
    omega
  refine ⟨(days + 719468) / 146097, year, (days + 719468) % 146097 - yearStart year, ?_, by omega,
    hrange, by omega, by omega⟩
  rw [← hplain, hyear]
  rfl

/-- A year has at most 366 days. -/
theorem yearStart_succ_le (year : Int) : yearStart (year + 1) ≤ yearStart year + 366 := by
  unfold yearStart
  omega

/-- A year has a 366th day only if the next one has a 29th of February. -/
theorem isLeap_of_lt_yearStart {era year : Int} (hrange : 0 ≤ year ∧ year < 400)
    (h : yearStart year + 365 < yearStart (year + 1)) : isLeap (year + era * 400 + 1) := by
  unfold yearStart at h
  simp only [isLeap, Bool.and_eq_true, Bool.or_eq_true, decide_eq_true_eq]
  omega

/-- A date is counted as its day of the year, behind the years before it. -/
theorem toDays_ofMarch {era year dayOfYear : Int} (hrange : 0 ≤ year ∧ year < 400)
    (hday : 0 ≤ dayOfYear ∧ dayOfYear < 366) : (ofMarch (year + era * 400) dayOfYear).toDays =
      era * 146097 + yearStart year + dayOfYear - 719468 := by
  unfold ofMarch toDays yearStart
  generalize hmonth : (5 * dayOfYear + 2) / 153 = month
  -- January and February are months of the next year
  by_cases h : month < 10
  · simp only [if_pos h]
    rw [if_neg (by omega), if_neg (by omega), if_neg (by omega)]
    omega
  · simp only [if_neg h]
    rw [if_pos (by omega), if_pos (by omega), if_pos (by omega)]
    omega

/-- The first 365 days of a year have dates, and the 366th has one if there is a leap day. -/
theorem isValid_ofMarch {year dayOfYear : Int} (hday : 0 ≤ dayOfYear ∧ dayOfYear < 366)
    (hleap : dayOfYear = 365 → isLeap (year + 1)) : (ofMarch year dayOfYear).isValid := by
  unfold ofMarch isValid
  obtain ⟨month, hmonth⟩ : ∃ month, month = (5 * dayOfYear + 2) / 153 := ⟨_, rfl⟩
  rw [← hmonth]
  obtain rfl | hbefore : month = 11 ∨ month < 11 := by omega
  -- the length of February is the only one that depends on the year
  · by_cases h : isLeap (year + 1)
    · simp [daysInMonth, h]
      omega
    · have hshort : dayOfYear ≠ 365 := fun hlast => h (hleap hlast)
      simp [daysInMonth, h]
      omega
  · have hmonths : month = 0 ∨ month = 1 ∨ month = 2 ∨ month = 3 ∨ month = 4 ∨ month = 5 ∨
        month = 6 ∨ month = 7 ∨ month = 8 ∨ month = 9 ∨ month = 10 := by omega
    rcases hmonths with rfl | rfl | rfl | rfl | rfl | rfl | rfl | rfl | rfl | rfl | rfl <;>
      simp [daysInMonth] <;> omega

theorem year_ofMarch (year dayOfYear : Int) :
    (ofMarch year dayOfYear).year = year ∨ (ofMarch year dayOfYear).year = year + 1 := by
  simp only [ofMarch]
  generalize (if (5 * dayOfYear + 2) / 153 < 10 then (5 * dayOfYear + 2) / 153 + 3
    else (5 * dayOfYear + 2) / 153 - 9) = month
  split
  · exact .inr rfl
  · exact .inl rfl

/-! ## Dates of days -/

theorem daysInMonth_le (year : Int) (month : Nat) : daysInMonth year month ≤ 31 := by
  unfold daysInMonth
  split
  · split <;> decide
  · split <;> decide

/-- **The date of a day is counted as that day.** -/
theorem toDays_ofDays (days : Int) : (ofDays days).toDays = days := by
  obtain ⟨era, year, dayOfYear, hdate, hdays, hrange, hpos, hlast⟩ := exists_ofMarch days
  have hlength := yearStart_succ_le year
  rw [hdate, toDays_ofMarch hrange (by omega)]
  omega

/-- **The date of a day is a date that there is.** -/
theorem isValid_ofDays (days : Int) : (ofDays days).isValid := by
  obtain ⟨era, year, dayOfYear, hdate, hdays, hrange, hpos, hlast⟩ := exists_ofMarch days
  have hlength := yearStart_succ_le year
  rw [hdate]
  exact isValid_ofMarch (by omega) fun hleap => isLeap_of_lt_yearStart hrange (hleap ▸ hlast)

/-- Years are not counted further than days. -/
theorem natAbs_year_ofDays_le (days : Int) : (ofDays days).year.natAbs ≤ days.natAbs + 1970 := by
  obtain ⟨era, year, dayOfYear, hdate, hdays, hrange, hpos, hlast⟩ := exists_ofMarch days
  have hyear := year_ofMarch (year + era * 400) dayOfYear
  rw [← hdate] at hyear
  have hlength := yearStart_succ_le year
  unfold yearStart at hdays hlast
  omega

end Date

end SyncJobs
