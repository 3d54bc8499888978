import DynamicData.Time.Civil

/-!
# Days and dates

Every day has one date in the calendar and every date of the calendar is one day:
`Date.toDays` and `Date.ofDays` undo each other, and the count goes up by one from a date
to the next.

Both conversions are read through `CycleDay`, the place of a day in the cycle of 400 years.
Years are counted from the first of March there, so that the leap day is the last of its
year, and that of a period of four years, a century and a cycle as well.
-/

namespace DynamicData.Date

theorem isLeapYear_iff {year : Int} :
    isLeapYear year = true ↔ year % 4 = 0 ∧ (year % 100 ≠ 0 ∨ year % 400 = 0) := by
  rw [isLeapYear, Bool.and_eq_true, Bool.or_eq_true, decide_eq_true_eq, decide_eq_true_eq,
    decide_eq_true_eq]

/-! ## Years that start in March -/

/-- The year that a date belongs to when years start in March. -/
def marchYear (d : Date) : Int :=
  if d.month ≤ 2 then d.year - 1 else d.year

/-- The months since the last March. -/
def monthFromMarch (d : Date) : Int :=
  ((d.month + 9) % 12 : Nat)

/-- The days in the first months of a year that starts in March. -/
def daysBefore (month : Int) : Int :=
  (153 * month + 2) / 5

/-- The days since the last first of March. -/
def dayOfYear (d : Date) : Int :=
  daysBefore d.monthFromMarch + d.day - 1

theorem toDays_eq (d : Date) :
    d.toDays = d.marchYear / 400 * 146097 + (d.marchYear % 400 * 365 + d.marchYear % 400 / 4 -
      d.marchYear % 400 / 100 + d.dayOfYear) - epochShift := rfl

theorem monthFromMarch_mem (d : Date) : 0 ≤ d.monthFromMarch ∧ d.monthFromMarch < 12 := by
  unfold monthFromMarch
  omega

/-- February apart, the lengths of the months do not depend on the year. -/
theorem monthLength_eq (year : Int) {month : Nat} (hmonth : 1 ≤ month ∧ month ≤ 12)
    (hfebruary : month ≠ 2) : (monthLength year month : Int) =
      daysBefore (((month + 9) % 12 : Nat) + 1) - daysBefore ((month + 9) % 12 : Nat) := by
  unfold monthLength daysBefore
  rw [if_neg hfebruary]
  split
  · next h => rcases h with rfl | rfl | rfl | rfl <;> rfl
  · have h : month = 1 ∨ month = 3 ∨ month = 5 ∨ month = 7 ∨ month = 8 ∨ month = 10 ∨
        month = 12 := by omega
    rcases h with rfl | rfl | rfl | rfl | rfl | rfl | rfl <;> rfl

theorem monthLength_le (year : Int) (month : Nat) : monthLength year month ≤ 31 := by
  unfold monthLength
  repeat' split
  all_goals decide

theorem month_le_of_isValid {d : Date} (hd : d.isValid = true) : d.month ≤ 12 :=
  (of_decide_eq_true hd).2.1

theorem day_le_of_isValid {d : Date} (hd : d.isValid = true) : d.day ≤ 31 :=
  Nat.le_trans (of_decide_eq_true hd).2.2.2 (monthLength_le _ _)

/-- A date is in the calendar if it lies in its month, where the last day of the year is there
only before the end of the February of a leap year. -/
theorem isValid_iff {d : Date} : d.isValid = true ↔
    (1 ≤ d.month ∧ d.month ≤ 12) ∧ 1 ≤ d.day ∧
      d.dayOfYear < daysBefore (d.monthFromMarch + 1) ∧ d.dayOfYear ≤ 365 ∧
      (d.dayOfYear = 365 → isLeapYear (d.marchYear + 1) = true) := by
  obtain ⟨year, month, day⟩ := d
  rw [isValid, decide_eq_true_eq, ← and_assoc]
  refine and_congr_right fun hmonth => and_congr_right fun hday => ?_
  dsimp only at hmonth hday
  by_cases hfebruary : month = 2
  · subst hfebruary
    simp only [dayOfYear, monthFromMarch, monthLength, marchYear, daysBefore]
    cases hleap : isLeapYear year <;> simp [hleap] <;> omega
  · have hlength := monthLength_eq year hmonth hfebruary
    simp only [dayOfYear, monthFromMarch, marchYear, daysBefore] at hlength ⊢
    omega

/-- A date is known from the year that starts in March, its month and its day. -/
theorem eq_of_march {d e : Date} (hd : 1 ≤ d.month ∧ d.month ≤ 12)
    (he : 1 ≤ e.month ∧ e.month ≤ 12) (hyear : d.marchYear = e.marchYear)
    (hmonth : d.monthFromMarch = e.monthFromMarch) (hday : d.day = e.day) : d = e := by
  obtain ⟨year, month, day⟩ := d
  obtain ⟨year', month', day'⟩ := e
  simp only [marchYear, monthFromMarch] at *
  obtain rfl : month = month' := by omega
  obtain rfl : year = year' := by split at hyear <;> omega
  rw [hday]

/-! ## The cycle of 400 years -/

/-- Where a day stands in the cycle: the cycles, centuries, periods of four years and years
that have passed, and the days since the last first of March. -/
structure CycleDay where
  era : Int
  century : Int
  period : Int
  year : Int
  day : Int
  century_mem : 0 ≤ century ∧ century < 4
  period_mem : 0 ≤ period ∧ period < 25
  year_mem : 0 ≤ year ∧ year < 4
  day_mem : 0 ≤ day ∧ day ≤ 365
  leap : day = 365 → year = 3 ∧ (period = 24 → century = 3)

namespace CycleDay

variable (p : CycleDay)

/-- The days since the start of the cycle. -/
def dayOfEra : Int :=
  36524 * p.century + 1461 * p.period + 365 * p.year + p.day

/-- The years since the start of the cycle. -/
def yearOfEra : Int :=
  100 * p.century + 4 * p.period + p.year

/-- The days since 1970-01-01. -/
def days : Int :=
  p.era * 146097 + p.dayOfEra - epochShift

/-- The months since the last March. -/
def month : Int :=
  (5 * p.day + 2) / 153

/-- The date of the day. -/
def date : Date :=
  let month := if p.month < 10 then p.month + 3 else p.month - 9
  let year := p.yearOfEra + p.era * 400
  ⟨if month ≤ 2 then year + 1 else year, month.toNat, (p.day - daysBefore p.month + 1).toNat⟩

theorem dayOfEra_mem : 0 ≤ p.dayOfEra ∧ p.dayOfEra < 146097 := by
  obtain ⟨era, c, q, y, d, hc, hq, hy, hd, hleap⟩ := p
  simp only [dayOfEra]
  omega

theorem month_mem : 0 ≤ p.month ∧ p.month < 12 := by
  have hday := p.day_mem
  unfold month
  omega

/-- Each leap day but the last of the cycle is taken off before the years are counted. -/
theorem yearOfEra_eq : (p.dayOfEra - p.dayOfEra / 1460 + p.dayOfEra / 36524 -
    p.dayOfEra / 146096) / 365 = p.yearOfEra := by
  obtain ⟨era, c, q, y, d, hc, hq, hy, hd, hleap⟩ := p
  generalize he : dayOfEra _ = e
  simp only [dayOfEra] at he
  simp only [yearOfEra]
  by_cases hlast : e = 146096
  · omega
  have hcentury : e / 36524 = c := by omega
  have hera : e / 146096 = 0 := by omega
  -- late in the fourth year of a period its leap day is taken off before it comes
  have hperiod : e / 1460 = 25 * c + q ∧ d ≤ 364 ∨ e / 1460 = 25 * c + q + 1 ∧ 1 ≤ d := by
    have hyear : y = 0 ∨ y = 1 ∨ y = 2 ∨ y = 3 := by omega
    rcases hyear with rfl | rfl | rfl | rfl <;> omega
  omega

theorem day_eq : p.dayOfEra - (365 * p.yearOfEra + p.yearOfEra / 4 - p.yearOfEra / 100) =
    p.day := by
  obtain ⟨era, c, q, y, d, hc, hq, hy, hd, hleap⟩ := p
  simp only [dayOfEra, yearOfEra]
  omega

theorem ofDays_days : ofDays p.days = p.date := by
  have hmem := p.dayOfEra_mem
  have hera : (p.days + epochShift) / 146097 = p.era := by
    unfold days
    omega
  have hday : (p.days + epochShift) % 146097 = p.dayOfEra := by
    unfold days
    omega
  unfold ofDays
  dsimp only
  rw [hera, hday, yearOfEra_eq, day_eq]
  rfl

theorem marchYear_date : p.date.marchYear = p.yearOfEra + p.era * 400 := by
  have hmonth := p.month_mem
  unfold date marchYear
  dsimp only
  split <;> split <;> omega

theorem monthFromMarch_date : p.date.monthFromMarch = p.month := by
  have hmonth := p.month_mem
  unfold date monthFromMarch
  dsimp only
  split <;> omega

theorem day_date : (p.date.day : Int) = p.day - daysBefore p.month + 1 := by
  have hday := p.day_mem
  unfold date month daysBefore
  dsimp only
  omega

theorem dayOfYear_date : p.date.dayOfYear = p.day := by
  rw [dayOfYear, monthFromMarch_date, day_date]
  omega

theorem toDays_date : p.date.toDays = p.days := by
  rw [toDays_eq, marchYear_date, dayOfYear_date]
  obtain ⟨era, c, q, y, d, hc, hq, hy, hd, hleap⟩ := p
  simp only [days, dayOfEra, yearOfEra]
  omega

theorem isLeapYear_date : isLeapYear (p.date.marchYear + 1) = true ↔
    p.year = 3 ∧ (p.period = 24 → p.century = 3) := by
  rw [marchYear_date, isLeapYear_iff]
  obtain ⟨era, c, q, y, d, hc, hq, hy, hd, hleap⟩ := p
  simp only [yearOfEra]
  omega

theorem isValid_date : p.date.isValid = true := by
  have hmonth := p.month_mem
  have hday := p.day_date
  rw [isValid_iff, isLeapYear_date, dayOfYear_date, monthFromMarch_date]
  refine ⟨?_, ?_, ?_, p.day_mem.2, p.leap⟩
  · unfold date
    dsimp only
    split <;> omega
  · unfold month daysBefore at hday
    omega
  · unfold month daysBefore
    omega

/-- Every day stands somewhere in the cycle. -/
theorem exists_days_eq (n : Int) : ∃ p : CycleDay, p.days = n := by
  let dayOfEra := (n + epochShift) % 146097
  -- the last century of a cycle and the last year of a period are a day longer
  let century := min (dayOfEra / 36524) 3
  let dayOfCentury := dayOfEra - 36524 * century
  let year := min (dayOfCentury % 1461 / 365) 3
  have hmem : 0 ≤ dayOfEra ∧ dayOfEra < 146097 := by omega
  refine ⟨⟨(n + epochShift) / 146097, century, dayOfCentury / 1461, year,
    dayOfCentury % 1461 - 365 * year, ?_, ?_, ?_, ?_, ?_⟩, ?_⟩
  · omega
  · omega
  · omega
  · omega
  · omega
  · simp only [days, CycleDay.dayOfEra]
    omega

/-- So does every date of the calendar. -/
theorem exists_date_eq {d : Date} (hd : d.isValid = true) : ∃ p : CycleDay, p.date = d := by
  obtain ⟨hmonth, hday, hlast, hyear, hleap⟩ := isValid_iff.mp hd
  have hmem := d.monthFromMarch_mem
  let year := d.marchYear % 400
  have hdayOfYear : 0 ≤ d.dayOfYear := by
    unfold dayOfYear daysBefore
    omega
  have hleapYear : d.dayOfYear = 365 →
      year % 4 = 3 ∧ (year % 100 / 4 = 24 → year / 100 = 3) := by
    intro h
    have := isLeapYear_iff.mp (hleap h)
    omega
  let p : CycleDay := ⟨d.marchYear / 400, year / 100, year % 100 / 4, year % 4, d.dayOfYear,
    by omega, by omega, by omega, ⟨hdayOfYear, hyear⟩, hleapYear⟩
  have hpMonth : p.month = d.monthFromMarch := by
    show (5 * d.dayOfYear + 2) / 153 = _
    unfold dayOfYear daysBefore at hlast ⊢
    omega
  refine ⟨p, eq_of_march (isValid_iff.mp p.isValid_date).1 hmonth ?_ ?_ ?_⟩
  · rw [marchYear_date]
    show 100 * (year / 100) + 4 * (year % 100 / 4) + year % 4 + d.marchYear / 400 * 400 = _
    omega
  · rw [monthFromMarch_date, hpMonth]
  · have hpDay : (p.date.day : Int) = d.dayOfYear - daysBefore p.month + 1 := p.day_date
    rw [hpMonth, dayOfYear] at hpDay
    omega

end CycleDay

/-! ## There and back -/

theorem isValid_ofDays (n : Int) : (ofDays n).isValid = true := by
  obtain ⟨p, rfl⟩ := CycleDay.exists_days_eq n
  rw [p.ofDays_days]
  exact p.isValid_date

theorem toDays_ofDays (n : Int) : (ofDays n).toDays = n := by
  obtain ⟨p, rfl⟩ := CycleDay.exists_days_eq n
  rw [p.ofDays_days, p.toDays_date]

theorem ofDays_toDays {d : Date} (hd : d.isValid = true) : ofDays d.toDays = d := by
  obtain ⟨p, rfl⟩ := CycleDay.exists_date_eq hd
  rw [p.toDays_date, p.ofDays_days]

/-! ## From a date to the next -/

/-- The date of the day after. -/
def next (d : Date) : Date :=
  if d.day < monthLength d.year d.month then ⟨d.year, d.month, d.day + 1⟩
  else if d.month < 12 then ⟨d.year, d.month + 1, 1⟩
  else ⟨d.year + 1, 1, 1⟩

/-- In one year the days are counted as the days of the year are. -/
theorem toDays_eq_add {d e : Date} (hyear : d.marchYear = e.marchYear) {k : Int}
    (hday : d.dayOfYear = e.dayOfYear + k) : d.toDays = e.toDays + k := by
  rw [toDays_eq, toDays_eq, hyear, hday]
  omega

/-- The first of March comes after the last of February. -/
theorem toDays_march (year : Int) :
    toDays ⟨year, 3, 1⟩ = toDays ⟨year, 2, monthLength year 2⟩ + 1 := by
  have hleap := @isLeapYear_iff year
  have hfebruary : marchYear ⟨year, 2, monthLength year 2⟩ = year - 1 := rfl
  have hmarch : marchYear ⟨year, 3, 1⟩ = year := rfl
  have hfirst : dayOfYear ⟨year, 3, 1⟩ = 0 := by
    show daysBefore ((3 + 9) % 12 : Nat) + 1 - 1 = 0
    decide
  have hlast : dayOfYear ⟨year, 2, monthLength year 2⟩ =
      daysBefore 11 + (if isLeapYear year then 29 else 28 : Nat) - 1 := rfl
  have hbefore : daysBefore 11 = 337 := by decide
  rw [toDays_eq, toDays_eq, hfebruary, hmarch, hfirst, hlast, hbefore]
  cases h : isLeapYear year with
  | false =>
      have hcommon : ¬ (year % 4 = 0 ∧ (year % 100 ≠ 0 ∨ year % 400 = 0)) := by
        rw [← hleap, h]
        exact Bool.false_ne_true
      rw [if_neg Bool.false_ne_true]
      omega
  | true =>
      have := hleap.mp h
      rw [if_pos rfl]
      omega

theorem toDays_next {d : Date} (hd : d.isValid = true) : d.next.toDays = d.toDays + 1 := by
  obtain ⟨year, month, day⟩ := d
  rw [isValid, decide_eq_true_eq] at hd
  obtain ⟨hfirst, hlast, hday, hlength⟩ := hd
  simp only at hfirst hlast hday hlength
  unfold next
  simp only
  by_cases hwithin : day < monthLength year month
  · rw [if_pos hwithin]
    apply toDays_eq_add
    · rfl
    · simp only [dayOfYear, monthFromMarch]
      omega
  rw [if_neg hwithin]
  obtain rfl : day = monthLength year month := by omega
  by_cases hfebruary : month = 2
  · subst hfebruary
    exact toDays_march year
  · have hmonth := monthLength_eq year ⟨hfirst, hlast⟩ hfebruary
    by_cases hdecember : month < 12
    · have hnext : (month + 1 + 9) % 12 = (month + 9) % 12 + 1 := by omega
      rw [if_pos hdecember]
      refine toDays_eq_add ?_ ?_
      · simp only [marchYear]
        split <;> split <;> omega
      · simp only [dayOfYear, monthFromMarch, hnext, Int.natCast_succ]
        omega
    · obtain rfl : month = 12 := by omega
      rw [if_neg hdecember]
      refine toDays_eq_add ?_ ?_
      · show year + 1 - 1 = year
        omega
      · simp only [dayOfYear, monthFromMarch] at hmonth ⊢
        rw [hmonth]
        decide

example : toDays ⟨1970, 1, 1⟩ = 0 := rfl

end DynamicData.Date
