import Mathlib.Data.Nat.Init
import Mathlib.Logic.ExistsUnique

/-!
# The Gregorian calendar

Dates, times of day and instants, as Python's `datetime` module has them: a `Date` lies
in the years 1 to 9999, `toOrdinal` numbers the dates from 1 on, and an instant counts
microseconds since the midnight (UTC) that starts 1970-01-01.

Every instant of the calendar lies on exactly one date (`existsUnique_contains`), and a
date contains the instants from its `Time.min` to its `Time.max` (`contains_iff`), which the
next date follows without a gap (`within_next`, `within_lt`).
-/

namespace Calendar

/-! ## Years and months -/

/-- A year of 366 days, in the proleptic Gregorian calendar. -/
def isLeap (year : Nat) : Bool := year % 4 = 0 && (year % 100 ≠ 0 || year % 400 = 0)

/-- The number of days of a year. -/
def daysInYear (year : Nat) : Nat := if isLeap year then 366 else 365

/-- The number of days of a month, by the names 1 to 12. -/
def daysInMonth (year : Nat) : Nat → Nat
  | 2 => if isLeap year then 29 else 28
  | 4 | 6 | 9 | 11 => 30
  | _ => 31

/-- Every month has a day. -/
theorem daysInMonth_pos {year month : Nat} : 1 ≤ daysInMonth year month := by
  unfold daysInMonth
  split
  · split <;> omega
  all_goals omega

/-- The days before 1 January of a year. -/
def daysBeforeYear (year : Nat) : Nat :=
  (year - 1) * 365 + (year - 1) / 4 - (year - 1) / 100 + (year - 1) / 400

/-- The days of a year before the first of a month. -/
def daysBeforeMonth (year : Nat) : Nat → Nat
  | 0 | 1 => 0
  | month + 2 => daysBeforeMonth year (month + 1) + daysInMonth year (month + 1)

/-- A year begins the length of the year before it later. -/
theorem daysBeforeYear_succ {year : Nat} (h : 1 ≤ year) :
    daysBeforeYear (year + 1) = daysBeforeYear year + daysInYear year := by
  obtain ⟨n, rfl⟩ := Nat.exists_eq_add_of_le' h
  have hle : n / 100 ≤ n / 4 := Nat.div_le_div_left (by decide) (by decide)
  have h400 : (n + 1) % 400 = 0 → (n + 1) % 100 = 0 := by omega
  have h100 : (n + 1) % 100 = 0 → (n + 1) % 4 = 0 := by omega
  unfold daysBeforeYear daysInYear isLeap
  -- the quotients grow exactly in the years that the rule of leap years names
  simp only [Nat.add_sub_cancel, Nat.succ_div, Nat.dvd_iff_mod_eq_zero]
  generalize n / 4 = q4, n / 100 = q100, n / 400 = q400 at *
  by_cases hc4 : (n + 1) % 4 = 0 <;> by_cases hc100 : (n + 1) % 100 = 0 <;>
    by_cases hc400 : (n + 1) % 400 = 0 <;> simp [hc4, hc100, hc400] at * <;> omega

/-- A month begins the length of the month before it later. -/
theorem daysBeforeMonth_succ (year : Nat) {month : Nat} (h : 1 ≤ month) :
    daysBeforeMonth year (month + 1) = daysBeforeMonth year month + daysInMonth year month := by
  obtain ⟨n, rfl⟩ := Nat.exists_eq_add_of_le' h
  rfl

/-- The twelve months fill the year. -/
theorem daysBeforeMonth_thirteen (year : Nat) : daysBeforeMonth year 13 = daysInYear year := by
  simp only [daysBeforeMonth, daysInMonth, daysInYear]
  split <;> rfl

/-- A month ends before a later one begins. -/
theorem daysBeforeMonth_add_le (year : Nat) {month month' : Nat} (h : 1 ≤ month)
    (hlt : month < month') :
    daysBeforeMonth year month + daysInMonth year month ≤ daysBeforeMonth year month' := by
  induction month', hlt using Nat.le_induction with
  | base => exact Nat.le_of_eq (daysBeforeMonth_succ year h).symm
  | succ n hn ih =>
    have hsucc := daysBeforeMonth_succ year (by omega : 1 ≤ n)
    omega

/-- A year ends before a later one begins. -/
theorem daysBeforeYear_add_le {year year' : Nat} (h : 1 ≤ year) (hlt : year < year') :
    daysBeforeYear year + daysInYear year ≤ daysBeforeYear year' := by
  induction year', hlt using Nat.le_induction with
  | base => exact Nat.le_of_eq (daysBeforeYear_succ h).symm
  | succ n hn ih =>
    have hsucc := daysBeforeYear_succ (by omega : 1 ≤ n)
    omega

/-! ## Dates -/

/-- A day that the calendar has, in a year that `date` can name. -/
structure Date where
  year : Nat
  month : Nat
  day : Nat
  year_pos : 1 ≤ year
  year_le : year ≤ 9999
  month_pos : 1 ≤ month
  month_le : month ≤ 12
  day_pos : 1 ≤ day
  day_le : day ≤ daysInMonth year month
  deriving DecidableEq

namespace Date

/-- Day 1 is 0001-01-01. -/
def toOrdinal (d : Date) : Nat :=
  daysBeforeYear d.year + daysBeforeMonth d.year d.month + d.day

/-- The first day of the calendar. -/
def min : Date := ⟨1, 1, 1, by decide, by decide, by decide, by decide, by decide, by decide⟩

/-- The ordinal of the last day, 9999-12-31. -/
def maxOrdinal : Nat := 3652059

/-- A day lies within its year. -/
theorem dayOfYear_le (d : Date) :
    daysBeforeMonth d.year d.month + d.day ≤ daysInYear d.year := by
  have hday := d.day_le
  have hmonth := d.month_le
  have hend := daysBeforeMonth_add_le d.year d.month_pos (by omega : d.month < 13)
  rw [daysBeforeMonth_thirteen] at hend
  omega

/-- A day of an earlier year is earlier. -/
theorem toOrdinal_lt_of_year {d d' : Date} (h : d.year < d'.year) :
    d.toOrdinal < d'.toOrdinal := by
  have hyear := daysBeforeYear_add_le d.year_pos h
  have hend := d.dayOfYear_le
  have hday := d'.day_pos
  unfold toOrdinal
  omega

/-- A day of an earlier month of the same year is earlier. -/
theorem toOrdinal_lt_of_month {d d' : Date} (hyear : d.year = d'.year) (h : d.month < d'.month) :
    d.toOrdinal < d'.toOrdinal := by
  have hmonth := daysBeforeMonth_add_le d.year d.month_pos h
  have hend := d.day_le
  have hday := d'.day_pos
  unfold toOrdinal
  rw [← hyear]
  omega

/-- Different days have different ordinals. -/
theorem toOrdinal_inj {d d' : Date} (h : d.toOrdinal = d'.toOrdinal) : d = d' := by
  have hyear : d.year = d'.year := by
    -- another year has its days on one side of this year's
    rcases Nat.lt_trichotomy d.year d'.year with hlt | heq | hgt
    · have := toOrdinal_lt_of_year hlt
      omega
    · exact heq
    · have := toOrdinal_lt_of_year hgt
      omega
  have hmonth : d.month = d'.month := by
    -- and so has another month of the same year
    rcases Nat.lt_trichotomy d.month d'.month with hlt | heq | hgt
    · have := toOrdinal_lt_of_month hyear hlt
      omega
    · exact heq
    · have := toOrdinal_lt_of_month hyear.symm hgt
      omega
  have hday : d.day = d'.day := by
    unfold toOrdinal at h
    rw [hyear, hmonth] at h
    omega
  cases d
  cases d'
  simp_all

/-! ## The next day -/

/-- The day after `d`, which the last day of the calendar does not have. -/
def next? (d : Date) : Option Date :=
  if hday : d.day < daysInMonth d.year d.month then
    some { d with day := d.day + 1, day_pos := by omega, day_le := hday }
  else if hmonth : d.month < 12 then
    some { d with
      month := d.month + 1, day := 1, month_pos := by omega, month_le := hmonth
      day_pos := by omega, day_le := daysInMonth_pos }
  else if hyear : d.year < 9999 then
    some { d with
      year := d.year + 1, month := 1, day := 1, year_pos := by omega, year_le := hyear
      month_pos := by omega, month_le := by omega, day_pos := by omega, day_le := daysInMonth_pos }
  else none

/-- The last day of December is the last day of its year. -/
theorem toOrdinal_of_last {d : Date} (hday : ¬d.day < daysInMonth d.year d.month)
    (hmonth : ¬d.month < 12) : d.toOrdinal = daysBeforeYear d.year + daysInYear d.year := by
  have hle := d.month_le
  have hlast : d.month = 12 := by omega
  have hend := d.day_le
  have hfull := daysBeforeMonth_thirteen d.year
  rw [daysBeforeMonth_succ d.year (by omega : 1 ≤ 12)] at hfull
  unfold toOrdinal
  rw [hlast] at hday hend ⊢
  omega

/-- The next day has the next ordinal. -/
theorem toOrdinal_next? {d d' : Date} (h : d.next? = some d') :
    d'.toOrdinal = d.toOrdinal + 1 := by
  unfold next? at h
  split at h
  · obtain rfl := Option.some.inj h
    rfl
  · rename_i hday
    split at h
    · -- the first of the next month
      obtain rfl := Option.some.inj h
      have hend := d.day_le
      have hmonth := daysBeforeMonth_succ d.year d.month_pos
      unfold toOrdinal
      simp only
      omega
    · rename_i hmonth
      split at h
      · -- the first of January
        obtain rfl := Option.some.inj h
        rw [toOrdinal_of_last hday hmonth, ← daysBeforeYear_succ d.year_pos]
        rfl
      · cases h

/-- Only the last day has no next one. -/
theorem toOrdinal_of_next?_eq_none {d : Date} (h : d.next? = none) :
    d.toOrdinal = maxOrdinal := by
  unfold next? at h
  split at h
  · cases h
  · rename_i hday
    split at h
    · cases h
    · rename_i hmonth
      split at h
      · cases h
      · rename_i hyear
        have hlast : d.year = 9999 := by
          have := d.year_le
          omega
        -- the last day of the last month of the last year
        rw [toOrdinal_of_last hday hmonth, hlast]
        rfl

/-- The ordinals leave no gap. -/
theorem exists_toOrdinal {n : Nat} (h : 1 ≤ n) (hn : n ≤ maxOrdinal) :
    ∃ d : Date, d.toOrdinal = n := by
  induction n, h using Nat.le_induction with
  | base => exact ⟨min, rfl⟩
  | succ n hpos ih =>
    obtain ⟨d, rfl⟩ := ih (by omega)
    cases hnext : d.next? with
    | none =>
      -- the calendar ends at `maxOrdinal`
      have hlast := toOrdinal_of_next?_eq_none hnext
      omega
    | some d' => exact ⟨d', toOrdinal_next? hnext⟩

end Date

/-! ## Times of day -/

/-- A time of the day, in microseconds. -/
structure Time where
  hour : Fin 24
  minute : Fin 60
  second : Fin 60
  microsecond : Fin 1000000
  deriving DecidableEq

namespace Time

/-- The first instant of a day. -/
def min : Time := ⟨0, 0, 0, 0⟩

/-- The last microsecond of a day. -/
def max : Time := ⟨23, 59, 59, 999999⟩

/-- Microseconds since midnight. -/
def sinceMidnight (t : Time) : Int :=
  ((t.hour * 60 + t.minute) * 60 + t.second : Nat) * 1000000 + t.microsecond

end Time

/-! ## Instants -/

/-- The length of a day. -/
def microsecondsPerDay : Int := 86400000000

/-- `time.min` is midnight. -/
@[simp] theorem Time.sinceMidnight_min : Time.min.sinceMidnight = 0 := rfl

/-- `time.max` is the last microsecond of a day. -/
@[simp] theorem Time.sinceMidnight_max : Time.max.sinceMidnight = microsecondsPerDay - 1 := rfl

/-- The days from 1970-01-01 to `d`. -/
def Date.sinceEpoch (d : Date) : Int := d.toOrdinal - 719163

/-- `datetime.combine(d, t)`, in UTC. -/
def combine (d : Date) (t : Time) : Int := d.sinceEpoch * microsecondsPerDay + t.sinceMidnight

/-- The UTC calendar day of the instant `t` is `d`. -/
def Date.Contains (d : Date) (t : Int) : Prop := t / microsecondsPerDay = d.sinceEpoch

instance (d : Date) (t : Int) : Decidable (d.Contains t) := inferInstanceAs (Decidable (_ = _))

/-- A day is known by its distance from the epoch. -/
theorem Date.sinceEpoch_inj {d d' : Date} (h : d.sinceEpoch = d'.sinceEpoch) : d = d' := by
  refine Date.toOrdinal_inj ?_
  unfold Date.sinceEpoch at h
  omega

/-- `t` lies between the first microsecond of `first` and the last one of `last`, both
    included. -/
def Within (first last : Date) (t : Int) : Prop := combine first .min ≤ t ∧ t ≤ combine last .max

/-- A day has the instants from its first to its last microsecond. -/
theorem Date.contains_iff {d : Date} {t : Int} : d.Contains t ↔ Within d d t := by
  rw [Date.Contains, Within, combine, combine, Time.sinceMidnight_min, Time.sinceMidnight_max]
  unfold microsecondsPerDay
  omega

/-- Every instant of the calendar lies on exactly one day. -/
theorem existsUnique_contains {t : Int} (hmin : -719162 * microsecondsPerDay ≤ t)
    (hmax : t < 2932897 * microsecondsPerDay) : ∃! d : Date, d.Contains t := by
  unfold microsecondsPerDay at hmin hmax
  -- the day number of the moment, which is that of some date
  obtain ⟨n, hn⟩ : ∃ n : Nat, (n : Int) = t / 86400000000 + 719163 :=
    ⟨(t / 86400000000 + 719163).toNat, by omega⟩
  obtain ⟨d, hd⟩ := Date.exists_toOrdinal (by omega : 1 ≤ n) (by unfold Date.maxOrdinal; omega)
  have hcontains : d.Contains t := by
    unfold Date.Contains Date.sinceEpoch microsecondsPerDay
    omega
  refine ⟨d, hcontains, ?_⟩
  intro d' hd'
  exact Date.sinceEpoch_inj (hd'.symm.trans hcontains)

/-! ## Ranges of days -/

/-- `days` are the days from `first` to `last`. -/
inductive Days : Date → List Date → Date → Prop
  | single (day : Date) : Days day [day] day
  | cons {first day last : Date} {days : List Date} (hnext : first.next? = some day)
      (h : Days day days last) : Days first (first :: days) last

/-- A range of days does not end before it begins. -/
theorem Days.le {first last : Date} {days : List Date} (h : Days first days last) :
    first.sinceEpoch ≤ last.sinceEpoch := by
  induction h with
  | single day => exact Int.le_refl _
  | cons hnext h ih =>
    have hstep := Date.toOrdinal_next? hnext
    unfold Date.sinceEpoch at *
    omega

/-- The next day starts right after the last microsecond of a day. -/
theorem combine_next? {day day' : Date} (h : day.next? = some day') :
    combine day' .min = combine day .max + 1 := by
  have hstep := Date.toOrdinal_next? h
  rw [combine, combine, Time.sinceMidnight_min, Time.sinceMidnight_max]
  unfold Date.sinceEpoch microsecondsPerDay
  omega

/-- A day's first moment is not after the last moment of the same or a later day. -/
theorem combine_min_le_max {first last : Date} (h : first.sinceEpoch ≤ last.sinceEpoch) :
    combine first .min ≤ combine last .max := by
  rw [combine, combine, Time.sinceMidnight_min, Time.sinceMidnight_max]
  unfold microsecondsPerDay
  omega

/-- A range is the range of the days after the first one, and that day. -/
theorem within_next {first day last : Date} {days : List Date} {t : Int}
    (hnext : first.next? = some day) (hdays : Days day days last) :
    Within first last t ↔ Within day last t ∨ Within first first t := by
  have hstart := combine_next? hnext
  have hrest := combine_min_le_max hdays.le
  have hfirst := combine_min_le_max (Int.le_refl first.sinceEpoch)
  unfold Within
  omega

/-- A day ends before the days after it. -/
theorem within_lt {first day last : Date} {t t' : Int} (hnext : first.next? = some day)
    (ht : Within day last t) (ht' : Within first first t') : t' < t := by
  have hstart := combine_next? hnext
  unfold Within at ht ht'
  omega

end Calendar
