/-
  GREGORIAN INTERVALS TILE THE CALENDAR (`interval.go`, `GregorianDuration` and
  `GregorianExpiration`).

  The two functions compute one interval by different means: truncation, a date rebuilt from its
  parts, day offsets to Sunday, `AddDate`, fixed lengths.  Here both are read off ONE table:

  1. `cellOf` numbers the interval of each kind an instant lies in, and `cellStart` is the
     millisecond an interval of that number begins.  Every instant lies in its own cell.

  2. `gregorianExpiration_cell`, `gregorianDuration_cell`: the functions are the start of the next
     cell, less a nanosecond, and the distance of the two starts.  They hold in every zone that
     never shifts, UTC being one.

  3. `calendarPeriod` is the calendar's own answer to "which minute, hour, …, year is it": two
     instants are in one period exactly if they are in one cell.

  So the interval both functions describe is the calendar's, and they describe the same one from
  wherever in it they are asked.
-/
import Gubernator.Interval

namespace Gubernator

open Calendar

/-! ## The cells

A table for the six kinds, in milliseconds; it is the only place where the kinds are told apart. -/

/-- Which interval of kind `d` the instant lies in, where the wall clock is `o` seconds ahead of
    UTC.  Minutes are counted in UTC: `Truncate` works on absolute time. -/
def cellOf (o d t : ℤ) : ℤ :=
  let second := t / nanosPerSecond + o
  let day := second / 86400 + unixEpochDay
  match d with
  | 0 => t / minute
  | 1 => second / 3600
  | 2 => day
  | 3 => day / 7
  | 4 => monthIndex day
  | _ => yearOfDay day

/-- The first millisecond of interval number `k`. -/
def cellStart (o d k : ℤ) : ℤ :=
  match d with
  | 0 => k * 60000
  | 1 => (k * 3600 - o) * 1000
  | 2 => ((k - unixEpochDay) * 86400 - o) * 1000
  | 3 => ((7 * k - unixEpochDay) * 86400 - o) * 1000
  | 4 => ((monthStart k - unixEpochDay) * 86400 - o) * 1000
  | _ => ((daysBeforeYear k - unixEpochDay) * 86400 - o) * 1000

/-- Intervals of a kind follow one another. -/
theorem cellStart_strictMono (o d : ℤ) : StrictMono (cellStart o d) := by
  intro j k hjk
  have hmonth := monthStart_strictMono hjk
  have hyear := daysBeforeYear_strictMono hjk
  simp only [cellStart]
  split <;> omega

/-- **An instant lies in its cell.** -/
theorem cellOf_cell (o : ℤ) {d : ℤ} (hd : ValidGregorian d) (t : ℤ) :
    cellStart o d (cellOf o d t) * millisecond ≤ t ∧
      t < cellStart o d (cellOf o d t + 1) * millisecond := by
  have hmonth := monthIndex_cell ((t / nanosPerSecond + o) / 86400 + unixEpochDay)
  have hyear := yearOfDay_cell ((t / nanosPerSecond + o) / 86400 + unixEpochDay)
  simp only [nanosPerSecond] at hmonth hyear
  obtain ⟨h0, h5⟩ := hd
  interval_cases d <;> simp only [cellStart, cellOf, millisecond, minute, nanosPerSecond] <;> omega

/-- An instant lies in no other cell. -/
theorem cellOf_eq_iff (o : ℤ) {d : ℤ} (hd : ValidGregorian d) (t k : ℤ) :
    cellOf o d t = k ↔
      cellStart o d k * millisecond ≤ t ∧ t < cellStart o d (k + 1) * millisecond := by
  have hmono : StrictMono (fun k => cellStart o d k * millisecond) := by
    intro j k hjk
    have := cellStart_strictMono o d hjk
    simp only [millisecond]
    omega
  exact cell_eq_iff hmono (cellOf_cell o hd) t k

/-! ## The two functions

Kind by kind, the function unfolds to what the table says, and arithmetic does the rest. -/

/-- The first of the month an instant lies in, as the source rebuilds it from the date. -/
theorem dateTime_month (loc : Location) (t : ℤ) :
    dateTime loc (date loc t).1 (date loc t).2.1 1 0 0 0 0 =
      atWall loc (monthStart (monthIndex (wallDay loc t))) 0 0 := by
  rw [dateTime, dayNumber_eq_monthStart, (date_monthIndex loc t).1, sub_self, add_zero]
  rfl

/-- The first of January of the year an instant lies in. -/
theorem dateTime_year (loc : Location) (t : ℤ) :
    dateTime loc (date loc t).1 1 1 0 0 0 0 =
      atWall loc (monthStart (12 * yearOfDay (wallDay loc t))) 0 0 := by
  rw [dateTime, dayNumber_eq_monthStart, sub_self, add_zero,
    show 12 * (date loc t).1 + 1 - 1 = 12 * (date loc t).1 by omega]
  rfl

section Steady

variable {loc : Location} {o : ℤ} (hsteady : ∀ s, loc.offset s = o)

include hsteady

/-- The day the wall clock shows. -/
theorem wallDay_steady (t : ℤ) :
    wallDay loc t = (t / nanosPerSecond + o) / 86400 + unixEpochDay := by
  rw [wallDay, wallSecond_steady hsteady]

/-- **The end of an interval is a nanosecond before the next one.** -/
theorem gregorianExpiration_cell {d : ℤ} (hd : ValidGregorian d) (now : ℤ) :
    gregorianExpiration loc now d =
      .ok ((cellStart o d (cellOf o d now + 1) * millisecond - 1).tdiv millisecond) := by
  have hday := wallDay_steady hsteady now
  have hdate := dayNumber_date loc now
  -- days out of range just count on, which is how the source finds Sunday
  have hshift : ∀ days, dayNumber (date loc now).1 (date loc now).2.1 ((date loc now).2.2 + days) =
      wallDay loc now + days := by
    intro days
    rw [dayNumber_eq_monthStart] at hdate ⊢
    omega
  obtain ⟨h0, h5⟩ := hd
  interval_cases d
  · -- minutes, by truncation
    simp only [gregorianExpiration, cellStart, cellOf, truncate, minute, millisecond]
    congr 2
    omega
  · -- hours and days, by a date rebuilt
    simp only [gregorianExpiration, dateTime, hdate, atWall_steady hsteady, cellStart, cellOf, hour,
      wallSecond_steady hsteady, hday, hourNanos, millisecond, nanosPerSecond]
    congr 2
    omega
  · simp only [gregorianExpiration, dateTime, hdate, atWall_steady hsteady, cellStart, cellOf, hday,
      millisecond, nanosPerSecond]
    congr 2
    omega
  · -- weeks, by the days to Sunday
    simp only [gregorianExpiration, dateTime, hshift, atWall_steady hsteady, cellStart, cellOf,
      weekday, hday, millisecond, nanosPerSecond]
    congr 2
    omega
  · -- months and years, by `AddDate`
    simp only [gregorianExpiration, dateTime_month, addDate_first hsteady]
    rw [mul_zero, add_zero]
    simp only [atWall_steady hsteady, cellStart, cellOf, hday, millisecond, nanosPerSecond]
    congr 2
    omega
  · simp only [gregorianExpiration, dateTime_year, addDate_first hsteady]
    rw [add_zero, ← mul_add, monthStart_january]
    simp only [atWall_steady hsteady, cellStart, cellOf, hday, millisecond, nanosPerSecond]
    congr 2
    omega

/-- **Its length is the distance of the two starts.** -/
theorem gregorianDuration_cell {d : ℤ} (hd : ValidGregorian d) (now : ℤ) :
    gregorianDuration loc now d =
      .ok (cellStart o d (cellOf o d now + 1) - cellStart o d (cellOf o d now)) := by
  have hday := wallDay_steady hsteady now
  obtain ⟨h0, h5⟩ := hd
  interval_cases d
  · -- four fixed lengths, and two that are measured
    simp only [gregorianDuration, cellStart]
    congr 1
    omega
  · simp only [gregorianDuration, cellStart]
    congr 1
    omega
  · simp only [gregorianDuration, cellStart]
    congr 1
    omega
  · simp only [gregorianDuration, cellStart]
    congr 1
    omega
  · simp only [gregorianDuration, dateTime_month, addDate_first hsteady]
    rw [mul_zero, add_zero]
    simp only [atWall_steady hsteady, cellStart, cellOf, hday, millisecond, nanosPerSecond]
    congr 1
    exact Int.tdiv_eq_of_eq_mul_left (by decide) (by ring)
  · simp only [gregorianDuration, dateTime_year, addDate_first hsteady]
    rw [add_zero, ← mul_add, monthStart_january, monthStart_january]
    simp only [atWall_steady hsteady, cellStart, cellOf, hday, millisecond, nanosPerSecond]
    congr 1
    exact Int.tdiv_eq_of_eq_mul_left (by decide) (by ring)

/-- From 1970 on, the end in milliseconds is the last one before the next interval. -/
theorem gregorianExpiration_last {d : ℤ} (hd : ValidGregorian d) {now : ℤ} (hnow : 0 ≤ now) :
    gregorianExpiration loc now d = .ok (cellStart o d (cellOf o d now + 1) - 1) := by
  rw [gregorianExpiration_cell hsteady hd]
  have hcell := (cellOf_cell o hd now).2
  generalize cellStart o d (cellOf o d now + 1) = next at hcell ⊢
  simp only [millisecond] at hcell ⊢
  rw [Int.tdiv_eq_ediv_of_nonneg (by omega)]
  congr 1
  omega

end Steady

/-! ## The calendar's own periods

Stated without the cells, so that the tiling is about the calendar and not about a table made for
it. -/

/-- The Monday on or before the day an instant shows. -/
def mondayOf (t : ℤ) : ℤ := wallDay utc t - (weekday utc t + 6) % 7

/-- The minute the clock shows. -/
def minuteOfHour (t : ℤ) : ℤ := wallSecond utc t % 3600 / 60

/-- **The calendar minute, hour, day, week, month or year** an instant of UTC lies in, by what a
    calendar and a clock show of it. -/
def calendarPeriod (d t : ℤ) : List ℤ :=
  let (y, m, day) := date utc t
  match d with
  | 0 => [y, m, day, hour utc t, minuteOfHour t]
  | 1 => [y, m, day, hour utc t]
  | 2 => [y, m, day]
  | 3 => [mondayOf t]
  | 4 => [y, m]
  | _ => [y]

/-- UTC never shifts. -/
theorem utc_steady : ∀ s, utc.offset s = 0 := fun _ => rfl

/-- Two instants show one date exactly if they show one day, and one month exactly if their months
    have one number. -/
theorem date_eq_iff (t u : ℤ) :
    ((date utc t).1 = (date utc u).1 ∧ (date utc t).2.1 = (date utc u).2.1 ∧
        (date utc t).2.2 = (date utc u).2.2 ↔ wallDay utc t = wallDay utc u) ∧
      ((date utc t).1 = (date utc u).1 ∧ (date utc t).2.1 = (date utc u).2.1 ↔
        monthIndex (wallDay utc t) = monthIndex (wallDay utc u)) := by
  obtain ⟨ht, hdt⟩ := date_monthIndex utc t
  obtain ⟨hu, hdu⟩ := date_monthIndex utc u
  have hmt : 1 ≤ (date utc t).2.1 ∧ (date utc t).2.1 ≤ 12 :=
    monthOfYearDay_mem _ (sub_nonneg.mpr (daysBeforeYear_yearOfDay_le _))
  have hmu : 1 ≤ (date utc u).2.1 ∧ (date utc u).2.1 ≤ 12 :=
    monthOfYearDay_mem _ (sub_nonneg.mpr (daysBeforeYear_yearOfDay_le _))
  refine ⟨⟨?_, ?_⟩, ?_, ?_⟩
  · rintro ⟨hy, hm, hday⟩
    rw [← dayNumber_date utc t, ← dayNumber_date utc u, hy, hm, hday]
  · intro h
    simp [date, h]
  · rintro ⟨hy, hm⟩
    rw [← ht, ← hu, hy, hm]
  · intro h
    rw [← ht, ← hu] at h
    omega

/-- **A period of the calendar is a cell.** -/
theorem calendarPeriod_eq_iff {d : ℤ} (hd : ValidGregorian d) (t u : ℤ) :
    calendarPeriod d t = calendarPeriod d u ↔ cellOf 0 d t = cellOf 0 d u := by
  obtain ⟨hdate, hmonth⟩ := date_eq_iff t u
  have hyear : (date utc t).1 = (date utc u).1 ↔
      yearOfDay (wallDay utc t) = yearOfDay (wallDay utc u) := Iff.rfl
  rw [← and_assoc] at hdate
  have hwt := wallSecond_steady utc_steady t
  have hwu := wallSecond_steady utc_steady u
  have hday : ∀ v, wallDay utc v = (v / nanosPerSecond + 0) / 86400 + unixEpochDay :=
    wallDay_steady utc_steady
  -- kind by kind: what is shown of the date is a day, a month or a year, and the rest is arithmetic
  obtain ⟨h0, h5⟩ := hd
  interval_cases d
  · simp only [calendarPeriod, List.cons.injEq, and_true, cellOf, hour, minuteOfHour, hwt, hwu,
      ← and_assoc, hdate, hday, minute, nanosPerSecond]
    omega
  · simp only [calendarPeriod, List.cons.injEq, and_true, cellOf, hour, hwt, hwu, ← and_assoc,
      hdate, hday, nanosPerSecond]
    omega
  · simp only [calendarPeriod, List.cons.injEq, and_true, cellOf, ← and_assoc, hdate, hday]
  · simp only [calendarPeriod, List.cons.injEq, and_true, cellOf, mondayOf, weekday, hday]
    omega
  · simp only [calendarPeriod, List.cons.injEq, and_true, cellOf, hmonth, hday]
  · simp only [calendarPeriod, List.cons.injEq, and_true, cellOf, hyear, hday]

/-! ## Tiling

The interval that the functions name, compared with the calendar period of the instant. -/

/-- **Gregorian intervals tile the calendar**: the interval that ends at `e` and is `L` long holds
    the instant; it is the calendar period of the instant, from its first millisecond on; and from
    every instant in it both functions give the same answer. -/
theorem gregorian_intervals_tile {d : ℤ} (hd : ValidGregorian d) {now : ℤ} (hnow : 0 ≤ now) :
    ∃ e L, gregorianExpiration utc now d = .ok e ∧ gregorianDuration utc now d = .ok L ∧
      e + 1 - L ≤ now / millisecond ∧ now / millisecond ≤ e ∧
      (∀ t, calendarPeriod d t = calendarPeriod d now ↔
        (e + 1 - L) * millisecond ≤ t ∧ t < (e + 1) * millisecond) ∧
      ∀ t, (e + 1 - L) * millisecond ≤ t → t < (e + 1) * millisecond →
        gregorianExpiration utc t d = .ok e ∧ gregorianDuration utc t d = .ok L := by
  set k := cellOf 0 d now with hk
  have hcell := cellOf_cell 0 hd now
  rw [← hk] at hcell
  have hstart : cellStart 0 d (k + 1) - 1 + 1 -
      (cellStart 0 d (k + 1) - cellStart 0 d k) = cellStart 0 d k := by ring
  refine ⟨cellStart 0 d (k + 1) - 1, cellStart 0 d (k + 1) - cellStart 0 d k,
    gregorianExpiration_last utc_steady hd hnow, gregorianDuration_cell utc_steady hd now, ?_⟩
  rw [hstart, sub_add_cancel]
  refine ⟨?_, ?_, ?_, ?_⟩
  · simp only [millisecond] at hcell ⊢
    omega
  · simp only [millisecond] at hcell ⊢
    omega
  · intro t
    rw [calendarPeriod_eq_iff hd, ← hk, cellOf_eq_iff 0 hd]
  · intro t hlo hhi
    -- the instant lies in the same cell, so both functions read the same table entry
    have hsame : cellOf 0 d t = k := (cellOf_eq_iff 0 hd t k).mpr ⟨hlo, hhi⟩
    constructor
    · rw [← gregorianExpiration_last utc_steady hd hnow, gregorianExpiration_cell utc_steady hd,
        gregorianExpiration_cell utc_steady hd, hsame, hk]
    · rw [gregorianDuration_cell utc_steady hd, hsame]

/-- The week of Friday 2027-01-01: it began on Monday 2026-12-28 and ends with Sunday the 3rd. -/
theorem gregorian_intervals_tile_newYearWeek :
    gregorianExpiration utc 1798804800000000000 3 = .ok 1799020799999 ∧
      ∃ e L, gregorianExpiration utc 1798804800000000000 3 = .ok e ∧
        gregorianDuration utc 1798804800000000000 3 = .ok L ∧
        e + 1 - L ≤ 1798804800000000000 / millisecond ∧ 1798804800000000000 / millisecond ≤ e ∧
        (∀ t, calendarPeriod 3 t = calendarPeriod 3 1798804800000000000 ↔
          (e + 1 - L) * millisecond ≤ t ∧ t < (e + 1) * millisecond) ∧
        ∀ t, (e + 1 - L) * millisecond ≤ t → t < (e + 1) * millisecond →
          gregorianExpiration utc t 3 = .ok e ∧ gregorianDuration utc t 3 = .ok L :=
  ⟨by decide +kernel, gregorian_intervals_tile (by decide) (by decide)⟩

end Gubernator
