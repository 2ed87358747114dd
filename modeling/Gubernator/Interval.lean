/-
  Gregorian intervals (`interval.go`): how long the calendar interval around an instant is, and
  its last millisecond.

  Go's `time` package is `Lib/Calendar`; an instant is its Unix time in nanoseconds.  The two
  functions fail, with the same text, on a code that names no interval — the only error either
  bucket algorithm can return.
-/
import Gubernator.Lib.Calendar

namespace Gubernator

open Calendar

/-! ## Units

Lengths of time in nanoseconds, as `time.Duration` has them. -/

def millisecond : ℤ := 1000000
def minute : ℤ := 60000000000
def hourNanos : ℤ := 3600000000000

/-- `epochMillis` and `MillisecondNow`: `UnixNano() / 1_000_000`, truncating. -/
def epochMillis (t : ℤ) : ℤ := t.tdiv millisecond

/-- Milliseconds keep the order of instants. -/
theorem epochMillis_mono {t u : ℤ} (h : t ≤ u) : epochMillis t ≤ epochMillis u :=
  Int.tdiv_le_tdiv (by decide) h

/-! ## The two functions

The codes are those of the enum in `interval.go`: minutes, hours, days, weeks, months, years. -/

/-- The one error text of both. -/
def invalidGregorian : String :=
  "behavior DURATION_IS_GREGORIAN is set; but `Duration` is not a valid gregorian interval"

/-- The whole length of the interval, in milliseconds.  Months and years are measured from their
    first instant to the next one's. -/
def gregorianDuration (loc : Location) (now d : ℤ) : Except String ℤ :=
  match d with
  | 0 => .ok 60000
  | 1 => .ok 3600000
  | 2 => .ok 86400000
  | 3 => .ok 604800000
  | 4 =>
    let (y, m, _) := date loc now
    let start := dateTime loc y m 1 0 0 0 0
    .ok ((addDate loc start 0 1 0 - start).tdiv millisecond)
  | 5 =>
    let (y, _, _) := date loc now
    let start := dateTime loc y 1 1 0 0 0 0
    .ok ((addDate loc start 1 0 0 - start).tdiv millisecond)
  | _ => .error invalidGregorian

/-- The end of the interval, in epoch milliseconds. -/
def gregorianExpiration (loc : Location) (now d : ℤ) : Except String ℤ :=
  match d with
  | 0 => .ok ((truncate now minute + (minute - 1)).tdiv millisecond)
  | 1 =>
    let (y, m, d) := date loc now
    .ok ((dateTime loc y m d (hour loc now) 0 0 0 + (hourNanos - 1)).tdiv millisecond)
  | 2 =>
    let (y, m, d) := date loc now
    .ok ((dateTime loc y m d 23 59 59 (nanosPerSecond - 1)).tdiv millisecond)
  -- weeks end with Sunday, so a Sunday has no days to go
  | 3 =>
    let (y, m, d) := date loc now
    let daysUntilSunday := (7 - weekday loc now) % 7
    .ok ((dateTime loc y m (d + daysUntilSunday) 23 59 59 (nanosPerSecond - 1)).tdiv millisecond)
  | 4 =>
    let (y, m, _) := date loc now
    .ok ((addDate loc (dateTime loc y m 1 0 0 0 0) 0 1 0 - 1).tdiv millisecond)
  | 5 =>
    let (y, _, _) := date loc now
    .ok ((addDate loc (dateTime loc y 1 1 0 0 0 0) 1 0 0 - 1).tdiv millisecond)
  | _ => .error invalidGregorian

/-! ## Which codes are accepted, and how long an interval is

The lengths matter because a rate is a length divided by a limit. -/

/-- The codes both functions accept. -/
def ValidGregorian (d : ℤ) : Prop := 0 ≤ d ∧ d ≤ 5

instance (d : ℤ) : Decidable (ValidGregorian d) := inferInstanceAs (Decidable (_ ∧ _))

/-- Both functions succeed on exactly the same codes. -/
theorem gregorianExpiration_ok_iff (loc : Location) (now d : ℤ) :
    (∃ e, gregorianExpiration loc now d = .ok e) ↔ ValidGregorian d := by
  constructor
  · rintro ⟨e, h⟩
    unfold gregorianExpiration at h
    split at h
    case h_7 => cases h
    all_goals decide
  · rintro ⟨h0, h5⟩
    interval_cases d <;> exact ⟨_, rfl⟩

/-- The length is known of just these codes, too. -/
theorem gregorianDuration_ok_iff (loc : Location) (now d : ℤ) :
    (∃ e, gregorianDuration loc now d = .ok e) ↔ ValidGregorian d := by
  constructor
  · rintro ⟨e, h⟩
    unfold gregorianDuration at h
    split at h
    case h_7 => cases h
    all_goals decide
  · rintro ⟨h0, h5⟩
    interval_cases d <;> exact ⟨_, rfl⟩

/-- A second is a thousand milliseconds, truncated or not. -/
theorem millis_ge {t : ℤ} (h : nanosPerSecond ≤ t) : 1000 ≤ t.tdiv millisecond := by
  rw [Int.tdiv_eq_ediv_of_nonneg ((by decide : (0 : ℤ) ≤ nanosPerSecond).trans h)]
  simp only [nanosPerSecond, millisecond] at h ⊢
  omega

/-- Every interval lasts a second at least: a month or a year ends after it starts. -/
theorem gregorianDuration_ge {loc : Location} {now d len : ℤ}
    (h : gregorianDuration loc now d = .ok len) : 1000 ≤ len := by
  unfold gregorianDuration at h
  split at h
  case h_5 =>
    obtain rfl := Except.ok.inj h
    exact millis_ge (le_sub_iff_add_le'.mpr (addDate_months_ge loc _).1)
  case h_6 =>
    obtain rfl := Except.ok.inj h
    exact millis_ge (le_sub_iff_add_le'.mpr (addDate_months_ge loc _).2)
  case h_7 => cases h
  all_goals
    obtain rfl := Except.ok.inj h
    decide

/-- No interval is empty. -/
theorem gregorianDuration_pos {loc : Location} {now d len : ℤ}
    (h : gregorianDuration loc now d = .ok len) : 0 < len :=
  lt_of_lt_of_le (by decide) (gregorianDuration_ge h)

end Gubernator
