import Mathlib.Tactic

/-!
# The Gregorian calendar

Years are counted from March, so that the leap day is a year's last: `yearStart` is
how many days are before a year, `monthStart` how many of a year are before a month,
the months from March on. Dates are numbered in their order (`dayNumber_lt`), so no
two have one number. A number's place in its 400 years is told by four digits (`Place`).
-/

namespace Weft

namespace Calendar

/-- February has 29 days. -/
def Leap (year : Int) : Prop := year % 4 = 0 ∧ (year % 100 ≠ 0 ∨ year % 400 = 0)

instance (year : Int) : Decidable (Leap year) := inferInstanceAs (Decidable (_ ∧ _))

def monthDays (year month : Int) : Int :=
  if month = 2 then if Leap year then 29 else 28
  else if month = 4 ∨ month = 6 ∨ month = 9 ∨ month = 11 then 30
  else 31

structure Valid (year month day : Int) : Prop where
  month_pos : 1 ≤ month
  month_le : month ≤ 12
  day_pos : 1 ≤ day
  day_le : day ≤ monthDays year month

/-- The calendar's order. -/
def Before (year month day year' month' day' : Int) : Prop :=
  year < year' ∨ year = year' ∧ (month < month' ∨ month = month' ∧ day < day')

/-! ## Years from March -/

/-- The year a month is of, if years began in March. -/
def marchYear (year month : Int) : Int := if month ≤ 2 then year - 1 else year

/-- How many months after March. -/
def marchMonth (month : Int) : Int := if month ≤ 2 then month + 9 else month - 3

/-- The days before a month, from March on. -/
def monthStart (mp : Int) : Int := (153 * mp + 2) / 5

/-- The days before the March of a year. -/
def yearStart (y : Int) : Int := 365 * y + y / 4 - y / 100 + y / 400

def dayNumber (year month day : Int) : Int :=
  yearStart (marchYear year month) + (monthStart (marchMonth month) + (day - 1))

/-- How long a year from March is: its February is the next year's. -/
def yearDays (y : Int) : Int := if Leap (y + 1) then 366 else 365

theorem yearStart_succ (y : Int) : yearStart (y + 1) = yearStart y + yearDays y := by
  unfold yearStart yearDays
  by_cases hleap : Leap (y + 1)
  · rw [if_pos hleap]
    unfold Leap at hleap
    omega
  · rw [if_neg hleap]
    unfold Leap at hleap
    omega

theorem yearStart_mono {y y' : Int} (h : y ≤ y') : yearStart y ≤ yearStart y' := by
  unfold yearStart
  omega

theorem monthStart_mono {mp mp' : Int} (h : mp ≤ mp') : monthStart mp ≤ monthStart mp' := by
  unfold monthStart
  omega

/-- The months from March to January are as long as they start apart. -/
theorem monthStart_succ {month : Int} (hlo : 1 ≤ month) (hhi : month ≤ 12) (hfeb : month ≠ 2) (year : Int) :
    monthStart (marchMonth month + 1) = monthStart (marchMonth month) + monthDays year month := by
  unfold monthStart marchMonth monthDays
  interval_cases month <;> simp at hfeb ⊢

theorem marchYear_february (year : Int) : marchYear year 2 + 1 = year := by
  unfold marchYear
  rw [if_pos (Int.le_refl 2)]
  omega

/-- A date is within its year from March. -/
theorem dayOfYear_lt {year month day : Int} (h : Valid year month day) :
    monthStart (marchMonth month) + (day - 1) < yearDays (marchYear year month) := by
  obtain ⟨hlo, hhi, hpos, hle⟩ := h
  by_cases hfeb : month = 2
  · subst hfeb
    have hstart : monthStart (marchMonth 2) = 337 := rfl
    rw [hstart, yearDays, marchYear_february]
    unfold monthDays at hle
    rw [if_pos rfl] at hle
    split at hle
    · rename_i hleap
      rw [if_pos hleap]
      omega
    · rename_i hleap
      rw [if_neg hleap]
      omega
  · have hnext := monthStart_succ hlo hhi hfeb year
    have hlast : monthStart (marchMonth month + 1) ≤ monthStart 11 := by
      apply monthStart_mono
      unfold marchMonth
      split
      · omega
      · omega
    have hfebruary : monthStart 11 = 337 := rfl
    have hyear : 365 ≤ yearDays (marchYear year month) := by
      unfold yearDays
      split
      · omega
      · omega
    omega

theorem dayOfYear_nonneg {year month day : Int} (h : Valid year month day) :
    0 ≤ monthStart (marchMonth month) + (day - 1) := by
  obtain ⟨hlo, _, hpos, _⟩ := h
  unfold monthStart marchMonth
  split
  · omega
  · omega

/-! ## Dates in their order -/

/-- Dates are numbered in the calendar's order. -/
theorem dayNumber_lt {year month day year' month' day' : Int} (h : Valid year month day) (h' : Valid year' month' day')
    (hbefore : Before year month day year' month' day') : dayNumber year month day < dayNumber year' month' day' := by
  have hin := dayOfYear_lt h
  have hin' := dayOfYear_nonneg h'
  have horder : marchYear year month < marchYear year' month' ∨
      marchYear year month = marchYear year' month' ∧ (marchMonth month < marchMonth month' ∨
        month = month' ∧ day < day') := by
    have hlo := h.month_pos
    have hhi := h.month_le
    have hlo' := h'.month_pos
    have hhi' := h'.month_le
    unfold Before at hbefore
    unfold marchYear marchMonth
    split
    · split
      · omega
      · omega
    · split
      · omega
      · omega
  unfold dayNumber
  rcases horder with hyear | ⟨hyear, hmonth | ⟨rfl, hday⟩⟩
  · -- the year is over before the other begins
    have hsucc := yearStart_succ (marchYear year month)
    have hmono := yearStart_mono (show marchYear year month + 1 ≤ marchYear year' month' by omega)
    omega
  · -- the month is over before the other begins, and it is no February, a year's last
    have hfeb : month ≠ 2 := by
      rintro rfl
      have hlo' := h'.month_pos
      have hhi' := h'.month_le
      unfold marchMonth at hmonth
      split at hmonth
      · split at hmonth
        · omega
        · omega
      · omega
    have hnext := monthStart_succ h.month_pos h.month_le hfeb year
    have hmono := monthStart_mono (show marchMonth month + 1 ≤ marchMonth month' by omega)
    have hle := h.day_le
    have hpos' := h'.day_pos
    rw [hyear]
    omega
  · rw [hyear]
    omega

theorem before_trichotomy (year month day year' month' day' : Int) :
    Before year month day year' month' day' ∨ (year = year' ∧ month = month' ∧ day = day') ∨
      Before year' month' day' year month day := by
  unfold Before
  omega

/-- No two dates have one number. -/
theorem dayNumber_inj {year month day year' month' day' : Int} (h : Valid year month day) (h' : Valid year' month' day')
    (heq : dayNumber year month day = dayNumber year' month' day') : year = year' ∧ month = month' ∧ day = day' := by
  rcases before_trichotomy year month day year' month' day' with hbefore | hsame | hbefore
  · have hlt := dayNumber_lt h h' hbefore
    omega
  · exact hsame
  · have hlt := dayNumber_lt h' h hbefore
    omega

/-! ## The date of a day of a year -/

/-- The month after March a day is in. -/
def monthOf (d : Int) : Int := (5 * d + 2) / 153

/-- The month so many months after March. -/
def civilMonth (mp : Int) : Int := if mp < 10 then mp + 3 else mp - 9

theorem yearDays_le (y : Int) : yearDays y ≤ 366 := by
  unfold yearDays
  split
  · omega
  · omega

theorem civilMonth_mem {mp : Int} (h : 0 ≤ mp ∧ mp ≤ 11) :
    (1 ≤ civilMonth mp ∧ civilMonth mp ≤ 12) ∧ marchMonth (civilMonth mp) = mp := by
  unfold civilMonth marchMonth
  split
  · split
    · omega
    · omega
  · split
    · omega
    · omega

/-- Each day of a year from March is a date. -/
theorem date_of_day {y d : Int} (hnonneg : 0 ≤ d) (hlt : d < yearDays y) {year : Int}
    (hyear : year = y + if civilMonth (monthOf d) ≤ 2 then 1 else 0) :
    Valid year (civilMonth (monthOf d)) (d - monthStart (monthOf d) + 1) ∧
      dayNumber year (civilMonth (monthOf d)) (d - monthStart (monthOf d) + 1) = yearStart y + d := by
  have hlong := yearDays_le y
  have hmp : 0 ≤ monthOf d ∧ monthOf d ≤ 11 := by
    unfold monthOf
    omega
  obtain ⟨hmonth, hback⟩ := civilMonth_mem hmp
  have hmarch : marchYear year (civilMonth (monthOf d)) = y := by
    unfold marchYear
    rw [hyear]
    split
    · omega
    · omega
  have hstart : monthStart (monthOf d) ≤ d ∧ d < monthStart (monthOf d + 1) := by
    unfold monthStart monthOf
    omega
  refine ⟨⟨hmonth.1, hmonth.2, by omega, ?_⟩, ?_⟩
  · by_cases hfeb : civilMonth (monthOf d) = 2
    · -- the year's last month, as long as the year lets it be
      have hlast : monthOf d = 11 := by
        rw [← hback, hfeb]
        rfl
      have hfebruary : monthStart 11 = 337 := rfl
      have hnext : year = y + 1 := by
        rw [hyear, hfeb]
        rfl
      rw [hfeb, hlast, hfebruary]
      unfold monthDays
      rw [if_pos rfl, hnext]
      unfold yearDays at hlt
      split at hlt
      · rename_i hleap
        rw [if_pos hleap]
        omega
      · rename_i hleap
        rw [if_neg hleap]
        omega
    · have hsucc := monthStart_succ hmonth.1 hmonth.2 hfeb year
      rw [hback] at hsucc
      omega
  · unfold dayNumber
    rw [hmarch, hback]
    omega

/-! ## The place of a day in 400 years -/

/-- A day of 400 years from March: its century, its four years in that, its year in
these and its day in that. A year's last day is the 365th or, in leap years, the one
behind it. -/
structure Place where
  century : Int
  olympiad : Int
  year : Int
  day : Int
  century_mem : 0 ≤ century ∧ century ≤ 3
  olympiad_mem : 0 ≤ olympiad ∧ olympiad ≤ 24
  year_mem : 0 ≤ year ∧ year ≤ 3
  day_nonneg : 0 ≤ day
  day_le : day ≤ 364 ∨ day = 365 ∧ year = 3 ∧ (olympiad ≠ 24 ∨ century = 3)

namespace Place

/-- The days before it. -/
def days (p : Place) : Int := 36524 * p.century + 1461 * p.olympiad + 365 * p.year + p.day

/-- The years before it. -/
def years (p : Place) : Int := 100 * p.century + 4 * p.olympiad + p.year

/-- Every day of 400 years has a place. -/
theorem exists_of_days {n : Int} (hlo : 0 ≤ n) (hhi : n ≤ 146096) : ∃ p : Place, p.days = n := by
  have hc : ∃ c : Int, 0 ≤ c ∧ c ≤ 3 ∧ 36524 * c ≤ n ∧ (n - 36524 * c ≤ 36523 ∨ c = 3 ∧ n - 36524 * c ≤ 36524) :=
    ⟨min (n / 36524) 3, by omega, by omega, by omega, by omega⟩
  obtain ⟨c, hc0, hc3, hcle, hcrest⟩ := hc
  have hq : ∃ q : Int, q = (n - 36524 * c) / 1461 := ⟨_, rfl⟩
  obtain ⟨q, hq⟩ := hq
  have hr : ∃ r : Int, r = min ((n - 36524 * c - 1461 * q) / 365) 3 := ⟨_, rfl⟩
  obtain ⟨r, hr⟩ := hr
  exact ⟨⟨c, q, r, n - 36524 * c - 1461 * q - 365 * r, by omega, by omega, by omega, by omega, by omega⟩,
    by unfold days; dsimp only; omega⟩

variable (p : Place)

theorem years_mem : 0 ≤ p.years ∧ p.years ≤ 399 := by
  obtain ⟨c, q, r, d, hc, hq, hr, _, _⟩ := p
  unfold years
  dsimp only
  omega

theorem yearStart_years (era : Int) : yearStart (p.years + 400 * era) = 146097 * era + (p.days - p.day) := by
  obtain ⟨c, q, r, d, hc, hq, hr, _, _⟩ := p
  unfold years days yearStart
  dsimp only
  omega

theorem day_lt (era : Int) : p.day < yearDays (p.years + 400 * era) := by
  obtain ⟨c, q, r, d, hc, hq, hr, _, hd⟩ := p
  unfold years yearDays
  dsimp only
  by_cases hleap : Leap (100 * c + 4 * q + r + 400 * era + 1)
  · rw [if_pos hleap]
    omega
  · rw [if_neg hleap]
    unfold Leap at hleap
    omega

end Place

end Calendar

end Weft
