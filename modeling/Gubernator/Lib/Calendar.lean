/-
  The proleptic Gregorian calendar and wall clocks, with the conventions of Go's `time` package.

  An instant is its Unix time in nanoseconds.  A `Location` gives the offset from UTC in force at
  each instant; the calendar date an instant shows, and the instant a date names, are read through
  it (`date`, `dateTime`).  Out-of-range months and days are normalised the way `time.Date` does:
  months carry into years, days just count on.

  Two results are what the rest needs.  `addDate_months_ge`: stepping a date forward by one month
  or one year moves the instant forward, whatever the offsets do in between.  And the CELLS: years
  and months cut the days into runs, each the days from one boundary up to the next, so that the
  year or month of a day is the only one whose boundaries enclose it (`cell_eq_iff`).  In a zone
  whose offset never moves, an instant is then where its day and second say (`atWall_steady`).
-/
import Gubernator.Lib.ExactFloat

namespace Calendar

/-! ## Day numbers

Days are numbered from 0001-01-01, years and months by the usual rules; everything is total, on
negative years as well. -/

/-- Days from 0001-01-01 to the first of January of year `y`. -/
def daysBeforeYear (y : ℤ) : ℤ := 365 * (y - 1) + (y - 1) / 4 - (y - 1) / 100 + (y - 1) / 400

/-- The Gregorian rule. -/
def isLeap (y : ℤ) : Bool := y % 4 == 0 && (y % 100 != 0 || y % 400 == 0)

/-- Days of the year before month `m` (`1`..`12`; a `13` closes the year). -/
def daysBeforeMonth (leap : Bool) (m : ℤ) : ℤ :=
  (match m with
    | 1 => 0
    | 2 => 31
    | 3 => 59
    | 4 => 90
    | 5 => 120
    | 6 => 151
    | 7 => 181
    | 8 => 212
    | 9 => 243
    | 10 => 273
    | 11 => 304
    | 12 => 334
    | _ => 365) + (if leap && decide (2 < m) then 1 else 0)

/-- Days from 0001-01-01 to 1970-01-01. -/
def unixEpochDay : ℤ := 719162

/-- The day number, from 0001-01-01, that `time.Date` gives to a year, a month and a day, the
    last two in or out of range. -/
def dayNumber (y m d : ℤ) : ℤ :=
  daysBeforeYear (y + (m - 1) / 12) +
    daysBeforeMonth (isLeap (y + (m - 1) / 12)) ((m - 1) % 12 + 1) + (d - 1)

/-- The year day `n` lies in: the quotient by the mean year, one off at most. -/
def yearOfDay (n : ℤ) : ℤ :=
  let y := 400 * n / 146097 + 1
  if n < daysBeforeYear y then y - 1
  else if daysBeforeYear (y + 1) ≤ n then y + 1
  else y

/-- The month holding day `yday` (from `0`) of a year. -/
def monthOfYearDay (leap : Bool) (yday : ℤ) : ℤ :=
  ([1, 2, 3, 4, 5, 6, 7, 8, 9, 10, 11, 12].countP
    (fun m : ℤ => decide (daysBeforeMonth leap m ≤ yday)) : ℕ)

/-- The year of a day has begun by then. -/
theorem daysBeforeYear_yearOfDay_le (n : ℤ) : daysBeforeYear (yearOfDay n) ≤ n := by
  simp only [yearOfDay]
  split
  · rename_i h
    simp only [daysBeforeYear] at h ⊢
    omega
  · split
    · rename_i h
      exact h
    · rename_i h _
      exact not_lt.mp h

/-- A day of a year is in one of twelve months. -/
theorem monthOfYearDay_mem (leap : Bool) {yday : ℤ} (h : 0 ≤ yday) :
    1 ≤ monthOfYearDay leap yday ∧ monthOfYearDay leap yday ≤ 12 := by
  unfold monthOfYearDay
  constructor
  · have h1 : decide (daysBeforeMonth leap 1 ≤ yday) = true := by
      cases leap <;> simpa [daysBeforeMonth] using h
    have h2 : 0 < [1, 2, 3, 4, 5, 6, 7, 8, 9, 10, 11, 12].countP
        (fun m : ℤ => decide (daysBeforeMonth leap m ≤ yday)) :=
      List.countP_pos_iff.mpr ⟨1, by simp, h1⟩
    omega
  · have h2 : [1, 2, 3, 4, 5, 6, 7, 8, 9, 10, 11, 12].countP
        (fun m : ℤ => decide (daysBeforeMonth leap m ≤ yday)) ≤ 12 :=
      List.countP_le_length
    omega

/-- A leap year has 366 days, another 365: what its twelve months add up to. -/
theorem daysBeforeYear_succ (y : ℤ) :
    daysBeforeYear (y + 1) = daysBeforeYear y + daysBeforeMonth (isLeap y) 13 := by
  have hlen : ∀ b, daysBeforeMonth b 13 = 365 + if b then 1 else 0 := by decide
  rw [hlen]
  by_cases hleap : y % 4 = 0 ∧ (y % 100 ≠ 0 ∨ y % 400 = 0)
  · have htrue : isLeap y = true := by
      obtain ⟨h4, h100 | h400⟩ := hleap
      · simp [isLeap, h4, h100]
      · simp [isLeap, h4, h400]
    rw [htrue]
    simp only [daysBeforeYear, if_true]
    omega
  · have hfalse : isLeap y = false := by
      rw [Bool.eq_false_iff]
      intro h
      simp only [isLeap, Bool.and_eq_true, beq_iff_eq, Bool.or_eq_true, bne_iff_ne, ne_eq] at h
      exact hleap h
    rw [hfalse]
    simp only [daysBeforeYear, Bool.false_eq_true, if_false]
    omega

/-- A year forward is at least 365 days forward, a month at least 28. -/
theorem dayNumber_next (y m d : ℤ) (hm : 1 ≤ m ∧ m ≤ 12) :
    dayNumber y m d + 28 ≤ dayNumber y (m + 1) d ∧
      dayNumber y m d + 28 ≤ dayNumber (y + 1) m d := by
  obtain ⟨h1, h12⟩ := hm
  have hyear := daysBeforeYear_succ y
  have hlen : ∀ b, daysBeforeMonth b 12 + 31 = daysBeforeMonth b 13 ∧
      365 ≤ daysBeforeMonth b 13 := by decide
  obtain ⟨hdec, h365⟩ := hlen (isLeap y)
  have hmonth : ∀ k, 1 ≤ k → k ≤ 11 → ∀ b,
      daysBeforeMonth b k + 28 ≤ daysBeforeMonth b (k + 1) := by
    intro k hk1 hk2 b
    interval_cases k <;> cases b <;> decide
  have hjan : ∀ b, daysBeforeMonth b 1 = 0 := by decide
  -- the same month of a leap year starts a day later, at most
  have hcross : ∀ b b', daysBeforeMonth b m ≤ daysBeforeMonth b' m + 1 := by
    intro b b'
    interval_cases m <;> cases b <;> cases b' <;> decide
  simp only [dayNumber]
  rw [show (m - 1) / 12 = 0 by omega, show (m - 1) % 12 + 1 = m by omega, add_zero, add_zero]
  constructor
  · -- the month after December is January of the next year
    rcases Int.lt_or_le m 12 with hlt | hge
    · rw [show (m + 1 - 1) / 12 = 0 by omega, show (m + 1 - 1) % 12 + 1 = m + 1 by omega, add_zero]
      have := hmonth m h1 (by omega) (isLeap y)
      omega
    · obtain rfl : m = 12 := by omega
      rw [show ((12 : ℤ) + 1 - 1) / 12 = 1 by norm_num, show ((12 : ℤ) + 1 - 1) % 12 + 1 = 1 by
        norm_num, hjan]
      omega
  · have hc := hcross (isLeap y) (isLeap (y + 1))
    omega

/-! ## Cells

`monthStart` and `daysBeforeYear` are the boundaries, `monthIndex` and `yearOfDay` name the cell of
a day. -/

/-- **A cell is what lies between two boundaries**: if every number lies between the boundary its
    index names and the next one, nothing else has that index. -/
theorem cell_eq_iff {start index : ℤ → ℤ} (hmono : StrictMono start)
    (hcell : ∀ n, start (index n) ≤ n ∧ n < start (index n + 1)) (n k : ℤ) :
    index n = k ↔ start k ≤ n ∧ n < start (k + 1) := by
  constructor
  · rintro rfl
    exact hcell n
  · rintro ⟨hlo, hhi⟩
    obtain ⟨hlo', hhi'⟩ := hcell n
    have h1 : index n < k + 1 := hmono.lt_iff_lt.mp (hlo'.trans_lt hhi)
    have h2 : k < index n + 1 := hmono.lt_iff_lt.mp (hlo.trans_lt hhi')
    omega

/-- Years follow one another. -/
theorem daysBeforeYear_strictMono : StrictMono daysBeforeYear := by
  refine strictMono_int_of_lt_succ (fun y => ?_)
  simp only [daysBeforeYear]
  omega

/-- The year of a day is the one it lies in. -/
theorem yearOfDay_cell (n : ℤ) :
    daysBeforeYear (yearOfDay n) ≤ n ∧ n < daysBeforeYear (yearOfDay n + 1) := by
  refine ⟨daysBeforeYear_yearOfDay_le n, ?_⟩
  simp only [yearOfDay]
  split
  · rename_i h
    rwa [sub_add_cancel]
  · split
    · simp only [daysBeforeYear]
      omega
    · rename_i h
      exact not_le.mp h

/-- The first day of month `k`, counted from January of the year `0`. -/
def monthStart (k : ℤ) : ℤ := dayNumber 0 (k + 1) 1

/-- The month of a day, in the same count. -/
def monthIndex (n : ℤ) : ℤ :=
  12 * yearOfDay n + monthOfYearDay (isLeap (yearOfDay n)) (n - daysBeforeYear (yearOfDay n)) - 1

/-- A date is a month and a day of it, whether or not its month and day are in range. -/
theorem dayNumber_eq_monthStart (y m d : ℤ) :
    dayNumber y m d = monthStart (12 * y + m - 1) + (d - 1) := by
  simp only [monthStart, dayNumber]
  rw [show 0 + (12 * y + m - 1 + 1 - 1) / 12 = y + (m - 1) / 12 by omega,
    show (12 * y + m - 1 + 1 - 1) % 12 = (m - 1) % 12 by omega]
  omega

/-- The first of a month, by the tables of the year. -/
theorem monthStart_eq {y m : ℤ} (h1 : 1 ≤ m) (h12 : m ≤ 12) :
    monthStart (12 * y + m - 1) = daysBeforeYear y + daysBeforeMonth (isLeap y) m := by
  simp only [monthStart, dayNumber]
  rw [show 0 + (12 * y + m - 1 + 1 - 1) / 12 = y by omega,
    show (12 * y + m - 1 + 1 - 1) % 12 + 1 = m by omega]
  omega

/-- The first of January is the first day of the year. -/
theorem monthStart_january (y : ℤ) : monthStart (12 * y) = daysBeforeYear y := by
  have h := @monthStart_eq y 1 le_rfl (by decide)
  rw [show 12 * y + 1 - 1 = 12 * y by omega] at h
  rw [h]
  cases isLeap y <;> simp [daysBeforeMonth]

/-- Months follow one another. -/
theorem monthStart_strictMono : StrictMono monthStart := by
  refine strictMono_int_of_lt_succ (fun k => ?_)
  have hnext := (dayNumber_next (k / 12) (k % 12 + 1) 1 (by omega)).1
  rw [dayNumber_eq_monthStart, dayNumber_eq_monthStart,
    show 12 * (k / 12) + (k % 12 + 1) - 1 = k by omega,
    show 12 * (k / 12) + (k % 12 + 1 + 1) - 1 = k + 1 by omega] at hnext
  omega

/-- The twelve months of a year: the month of a day of the year is the one it lies in. -/
theorem monthOfYearDay_cell {leap : Bool} {yday : ℤ} (h0 : 0 ≤ yday)
    (h : yday < daysBeforeMonth leap 13) :
    daysBeforeMonth leap (monthOfYearDay leap yday) ≤ yday ∧
      yday < daysBeforeMonth leap (monthOfYearDay leap yday + 1) := by
  -- 366 days at most, so the table is checked day by day
  have htable : ∀ (b : Bool) (i : Fin 366), (i.val : ℤ) < daysBeforeMonth b 13 →
      daysBeforeMonth b (monthOfYearDay b i.val) ≤ i.val ∧
        (i.val : ℤ) < daysBeforeMonth b (monthOfYearDay b i.val + 1) := by
    decide +kernel
  have hlen : daysBeforeMonth leap 13 ≤ 366 := by cases leap <;> decide
  lift yday to ℕ using h0
  exact htable leap ⟨yday, by omega⟩ h

/-- The month of a day is the one it lies in. -/
theorem monthIndex_cell (n : ℤ) :
    monthStart (monthIndex n) ≤ n ∧ n < monthStart (monthIndex n + 1) := by
  obtain ⟨hlo, hhi⟩ := yearOfDay_cell n
  have hlen := daysBeforeYear_succ (yearOfDay n)
  obtain ⟨h1, h12⟩ := monthOfYearDay_mem (isLeap (yearOfDay n)) (sub_nonneg.mpr hlo)
  obtain ⟨hmlo, hmhi⟩ := @monthOfYearDay_cell (isLeap (yearOfDay n))
    (n - daysBeforeYear (yearOfDay n)) (sub_nonneg.mpr hlo) (by omega)
  simp only [monthIndex]
  generalize hm : monthOfYearDay (isLeap (yearOfDay n)) (n - daysBeforeYear (yearOfDay n)) = m at *
  constructor
  · rw [monthStart_eq h1 h12]
    omega
  · rcases Int.lt_or_le m 12 with hlt | hge
    · rw [show 12 * yearOfDay n + m - 1 + 1 = 12 * yearOfDay n + (m + 1) - 1 by omega,
        monthStart_eq (by omega) (by omega)]
      omega
    · -- December ends with its year
      rw [show 12 * yearOfDay n + m - 1 + 1 = 12 * (yearOfDay n + 1) by omega, monthStart_january]
      exact hhi

/-! ## Instants, locations, dates

The functions of `time`, on nanoseconds. -/

/-- A time zone: the seconds east of UTC in force at each Unix second.  Real offsets stay well
    within a day. -/
structure Location where
  offset : ℤ → ℤ
  offset_le : ∀ s, offset s ≤ 86400
  neg_le_offset : ∀ s, -86400 ≤ offset s

/-- No offset at any time. -/
def utc : Location := ⟨fun _ => 0, fun _ => by decide, fun _ => by decide⟩

/-- A second. -/
def nanosPerSecond : ℤ := 1000000000

/-- The second an instant lies in. -/
def unixSecond (t : ℤ) : ℤ := t / nanosPerSecond

/-- Seconds of the wall clock, counted as if it showed UTC. -/
def wallSecond (loc : Location) (t : ℤ) : ℤ := unixSecond t + loc.offset (unixSecond t)

/-- Day number the wall clock shows. -/
def wallDay (loc : Location) (t : ℤ) : ℤ := wallSecond loc t / 86400 + unixEpochDay

/-- `Time.Date`: year, month and day. -/
def date (loc : Location) (t : ℤ) : ℤ × ℤ × ℤ :=
  let n := wallDay loc t
  let y := yearOfDay n
  let yday := n - daysBeforeYear y
  let m := monthOfYearDay (isLeap y) yday
  (y, m, yday - daysBeforeMonth (isLeap y) m + 1)

/-- `Time.Hour`. -/
def hour (loc : Location) (t : ℤ) : ℤ := wallSecond loc t % 86400 / 3600

/-- `Time.Weekday`, Sunday `0`: 0001-01-01 was a Monday. -/
def weekday (loc : Location) (t : ℤ) : ℤ := (wallDay loc t + 1) % 7

/-- `time.Date` after the calendar part: the instant at which the wall clock shows second `s` of
    day `n`.  The offset is looked up at the second taken as UTC, then once more at the result. -/
def atWall (loc : Location) (n s nanos : ℤ) : ℤ :=
  let wall := (n - unixEpochDay) * 86400 + s
  (wall - loc.offset (wall - loc.offset wall)) * nanosPerSecond + nanos

/-- `time.Date`. -/
def dateTime (loc : Location) (y m d hh mm ss nanos : ℤ) : ℤ :=
  atWall loc (dayNumber y m d) (hh * 3600 + mm * 60 + ss) nanos

/-- `Time.AddDate`: the same clock time on the date moved by years, months and days. -/
def addDate (loc : Location) (t years months days : ℤ) : ℤ :=
  let (y, m, d) := date loc t
  atWall loc (dayNumber (y + years) (m + months) (d + days)) (wallSecond loc t % 86400)
    (t % nanosPerSecond)

/-- `Time.Truncate` for a divisor of a minute: the zero time is a whole minute from the epoch. -/
def truncate (t d : ℤ) : ℤ := t - t % d

/-! ## Stepping the date moves the instant

In any zone: an offset may change by two days at most between the two dates, and a month has 28. -/

/-- The date read off an instant names the day it was read from. -/
theorem dayNumber_date (loc : Location) (t : ℤ) :
    dayNumber (date loc t).1 (date loc t).2.1 (date loc t).2.2 = wallDay loc t := by
  have hy := daysBeforeYear_yearOfDay_le (wallDay loc t)
  have hm := monthOfYearDay_mem (isLeap (yearOfDay (wallDay loc t))) (sub_nonneg.mpr hy)
  simp only [date, dayNumber]
  generalize monthOfYearDay (isLeap (yearOfDay (wallDay loc t)))
    (wallDay loc t - daysBeforeYear (yearOfDay (wallDay loc t))) = m at hm ⊢
  rw [show (m - 1) / 12 = 0 by omega, show (m - 1) % 12 + 1 = m by omega, add_zero]
  omega

/-- Moving to a day at least 28 days later moves the instant forward: offsets stay within a day. -/
theorem atWall_ge (loc : Location) {t n : ℤ} (h : wallDay loc t + 28 ≤ n) :
    t + nanosPerSecond ≤ atWall loc n (wallSecond loc t % 86400) (t % nanosPerSecond) := by
  -- the clock shows at least 28 days more
  have hspan : wallSecond loc t + 28 * 86400 ≤
      (n - unixEpochDay) * 86400 + wallSecond loc t % 86400 := by
    have := Int.mul_ediv_add_emod (wallSecond loc t) 86400
    simp only [wallDay] at h
    omega
  have hw : unixSecond t + loc.offset (unixSecond t) = wallSecond loc t := rfl
  have h1 := loc.neg_le_offset (unixSecond t)
  simp only [atWall]
  generalize (n - unixEpochDay) * 86400 + wallSecond loc t % 86400 = wall at hspan ⊢
  have h2 := loc.offset_le (wall - loc.offset wall)
  generalize loc.offset (wall - loc.offset wall) = o at h2 ⊢
  have hlt : unixSecond t + 1 ≤ wall - o := by omega
  have ht := Int.mul_ediv_add_emod t nanosPerSecond
  simp only [unixSecond, nanosPerSecond] at hlt ht ⊢
  omega

/-- **Stepping the date forward by a month, or by a year, moves the instant forward**, by a second
    at least. -/
theorem addDate_months_ge (loc : Location) (t : ℤ) :
    t + nanosPerSecond ≤ addDate loc t 0 1 0 ∧ t + nanosPerSecond ≤ addDate loc t 1 0 0 := by
  have hday := dayNumber_date loc t
  have hy := daysBeforeYear_yearOfDay_le (wallDay loc t)
  have hm : 1 ≤ (date loc t).2.1 ∧ (date loc t).2.1 ≤ 12 :=
    monthOfYearDay_mem _ (sub_nonneg.mpr hy)
  obtain ⟨hmonth, hyear⟩ := dayNumber_next (date loc t).1 (date loc t).2.1 (date loc t).2.2 hm
  rw [hday] at hmonth hyear
  constructor
  · show t + nanosPerSecond ≤ atWall loc (dayNumber ((date loc t).1 + 0) ((date loc t).2.1 + 1)
      ((date loc t).2.2 + 0)) _ _
    rw [add_zero, add_zero]
    exact atWall_ge loc hmonth
  · show t + nanosPerSecond ≤ atWall loc (dayNumber ((date loc t).1 + 1) ((date loc t).2.1 + 0)
      ((date loc t).2.2 + 0)) _ _
    rw [add_zero, add_zero]
    exact atWall_ge loc hyear

/-! ## A zone that never shifts

There the wall clock and the instant differ by a constant, and a date names exactly one instant. -/

/-- The date an instant shows is its month and the day of it. -/
theorem date_monthIndex (loc : Location) (t : ℤ) :
    12 * (date loc t).1 + (date loc t).2.1 - 1 = monthIndex (wallDay loc t) ∧
      (date loc t).2.2 = wallDay loc t - monthStart (monthIndex (wallDay loc t)) + 1 := by
  refine ⟨rfl, ?_⟩
  have hday := dayNumber_date loc t
  rw [dayNumber_eq_monthStart] at hday
  have hmonth : 12 * (date loc t).1 + (date loc t).2.1 - 1 = monthIndex (wallDay loc t) := rfl
  rw [hmonth] at hday
  omega

section Steady

variable {loc : Location} {o : ℤ} (hsteady : ∀ s, loc.offset s = o)

include hsteady

/-- The instant a day and a second name. -/
theorem atWall_steady (n s nanos : ℤ) :
    atWall loc n s nanos = ((n - unixEpochDay) * 86400 + s - o) * nanosPerSecond + nanos := by
  simp only [atWall, hsteady]

/-- The second the wall clock shows. -/
theorem wallSecond_steady (t : ℤ) : wallSecond loc t = t / nanosPerSecond + o := by
  rw [wallSecond, hsteady, unixSecond]

/-- Midnight of a day shows that day. -/
theorem wallDay_midnight (n : ℤ) : wallDay loc (atWall loc n 0 0) = n := by
  rw [wallDay, wallSecond_steady hsteady, atWall_steady hsteady]
  simp only [nanosPerSecond]
  omega

/-- **From the first of a month, months and years forward**: the first of the month that many
    months later. -/
theorem addDate_first (k years months : ℤ) :
    addDate loc (atWall loc (monthStart k) 0 0) years months 0 =
      atWall loc (monthStart (k + 12 * years + months)) 0 0 := by
  have hday := wallDay_midnight hsteady (monthStart k)
  have hindex : monthIndex (monthStart k) = k :=
    (cell_eq_iff monthStart_strictMono monthIndex_cell _ _).mpr
      ⟨le_rfl, monthStart_strictMono (lt_add_one k)⟩
  obtain ⟨hmonth, hfirst⟩ := date_monthIndex loc (atWall loc (monthStart k) 0 0)
  rw [hday, hindex] at hmonth hfirst
  -- the clock shows midnight, so the new date is at midnight too
  have hsecond : wallSecond loc (atWall loc (monthStart k) 0 0) % 86400 = 0 := by
    rw [wallSecond_steady hsteady, atWall_steady hsteady]
    simp only [nanosPerSecond]
    omega
  have hnanos : atWall loc (monthStart k) 0 0 % nanosPerSecond = 0 := by
    rw [atWall_steady hsteady]
    simp only [nanosPerSecond]
    omega
  simp only [addDate, hsecond, hnanos]
  rw [dayNumber_eq_monthStart, hfirst]
  congr 1
  rw [show 12 * ((date loc (atWall loc (monthStart k) 0 0)).1 + years) +
      ((date loc (atWall loc (monthStart k) 0 0)).2.1 + months) - 1 = k + 12 * years + months by
    omega]
  omega

end Steady

end Calendar
