import Mathlib.Algebra.Group.Int.Defs
import Mathlib.Algebra.Order.Ring.Int
import Mathlib.Tactic.Common

/-!
# The Gregorian calendar

Days are counted from the first of January of the year 0, and years on both sides of it have the
rules of the calendar.

- `daysBefore`: the days before a year. `yearOf`: the year of a day.
- `daysBeforeMonth`: the days of a year before a month, from 0 on. `monthOf`: the month of a day of
  the year.
- `dateOf`, `dayOf`: days and dates, which are inverse to each other (`dayOf_dateOf`).
- `months_mono`, `months_half`: how the months go on with the days.
-/

namespace Gregorian

/-! ## Years -/

def IsLeap (y : Int) : Prop := y % 4 = 0 ∧ (y % 100 ≠ 0 ∨ y % 400 = 0)

instance (y : Int) : Decidable (IsLeap y) := inferInstanceAs (Decidable (_ ∧ _))

/-- One day for a leap year. -/
def leapDay (y : Int) : Int := if IsLeap y then 1 else 0

/-- The days before the first one of the year. -/
def daysBefore (y : Int) : Int := 365 * y + (y + 3) / 4 - (y + 99) / 100 + (y + 399) / 400

/-- The year of a day: 400 years have 146097 days, so that the quotient is not off by more than
one. -/
def yearOf (d : Int) : Int :=
  let y := 400 * d / 146097
  if d < daysBefore y then y - 1 else if daysBefore (y + 1) ≤ d then y + 1 else y

theorem leapDay_range (y : Int) : 0 ≤ leapDay y ∧ leapDay y ≤ 1 := by
  unfold leapDay
  split <;> decide

theorem daysBefore_succ (y : Int) : daysBefore (y + 1) = daysBefore y + 365 + leapDay y := by
  unfold daysBefore
  by_cases hleap : IsLeap y
  · rw [leapDay, if_pos hleap]
    unfold IsLeap at hleap
    omega
  · rw [leapDay, if_neg hleap]
    unfold IsLeap at hleap
    omega

/-- A later year begins at least 365 days later for each year in between. -/
theorem daysBefore_add (y : Int) (n : Nat) : daysBefore y + 365 * n ≤ daysBefore (y + n) := by
  induction n with
  | zero => simp
  | succ n ih =>
    have hstep := daysBefore_succ (y + n)
    have hleap := leapDay_range (y + n)
    rw [Int.natCast_succ, ← Int.add_assoc]
    omega

theorem daysBefore_le {y y' : Int} (h : y ≤ y') :
    daysBefore y + 365 * (y' - y) ≤ daysBefore y' := by
  have hadd := daysBefore_add y (y' - y).toNat
  rw [Int.toNat_of_nonneg (Int.sub_nonneg_of_le h), add_sub_cancel] at hadd
  exact hadd

theorem yearOf_spec (d : Int) : daysBefore (yearOf d) ≤ d ∧ d < daysBefore (yearOf d + 1) := by
  have hlow : 146097 * (400 * d / 146097) ≤ 400 * d := Int.mul_ediv_self_le (by decide)
  have hhigh : 400 * d < 146097 * (400 * d / 146097) + 146097 := by omega
  unfold yearOf
  simp only
  generalize 400 * d / 146097 = y at hlow hhigh
  split
  · next hless =>
    rw [Int.sub_add_cancel]
    refine ⟨?_, hless⟩
    unfold daysBefore
    omega
  · next hmore =>
    split
    · next hnext =>
      refine ⟨hnext, ?_⟩
      unfold daysBefore
      omega
    · next hthis => exact ⟨by omega, by omega⟩

/-- A day is in one year only. -/
theorem yearOf_eq {d y : Int} (hlow : daysBefore y ≤ d) (hhigh : d < daysBefore (y + 1)) :
    yearOf d = y := by
  obtain ⟨hlow', hhigh'⟩ := yearOf_spec d
  by_contra hne
  obtain hlt | hgt := lt_or_gt_of_ne hne
  · have hle := daysBefore_le (show yearOf d + 1 ≤ y by omega)
    omega
  · have hle := daysBefore_le (show y + 1 ≤ yearOf d by omega)
    omega

theorem yearOf_mono {d d' : Int} (h : d ≤ d') : yearOf d ≤ yearOf d' := by
  by_contra hgt
  have hle := daysBefore_le (show yearOf d' + 1 ≤ yearOf d by omega)
  have hlow := (yearOf_spec d).1
  have hhigh := (yearOf_spec d').2
  omega

/-! ## Months -/

/-- The last index up to `n` whose bound is not above `x`, or 0. -/
def lastLe (f : Nat → Int) (x : Int) : Nat → Nat
  | 0 => 0
  | n + 1 => if f (n + 1) ≤ x then n + 1 else lastLe f x n

theorem lastLe_le (f : Nat → Int) (x : Int) (n : Nat) : lastLe f x n ≤ n := by
  induction n with
  | zero => exact Nat.le_refl _
  | succ n ih =>
    rw [lastLe]
    split
    · exact Nat.le_refl _
    · exact Nat.le_succ_of_le ih

theorem le_lastLe {f : Nat → Int} {x : Int} (h : f 0 ≤ x) (n : Nat) : f (lastLe f x n) ≤ x := by
  induction n with
  | zero => exact h
  | succ n ih =>
    rw [lastLe]
    split
    · next hle => exact hle
    · exact ih

theorem lt_of_lastLe_lt {f : Nat → Int} {x : Int} {n m : Nat} (hm : lastLe f x n < m) (hn : m ≤ n) :
    x < f m := by
  induction n with
  | zero => omega
  | succ n ih =>
    rw [lastLe] at hm
    split at hm
    · omega
    · next hgt =>
      obtain rfl | hle := Nat.eq_or_lt_of_le hn
      · exact Int.lt_of_not_ge hgt
      · exact ih hm (Nat.le_of_lt_succ hle)

/-- The days of a year before a month, where the year has `leap` days more than 365. -/
def daysBeforeMonth (leap : Int) (m : Nat) : Int :=
  [0, 31, 59, 90, 120, 151, 181, 212, 243, 273, 304, 334, 365].getD m 0 + if 2 ≤ m then leap else 0

/-- The month of a day of the year. -/
def monthOf (leap yday : Int) : Nat := lastLe (daysBeforeMonth leap) yday 11

/-- No month has more than 31 days, or none. -/
theorem daysBeforeMonth_succ {leap : Int} (hleap : 0 ≤ leap ∧ leap ≤ 1) {m : Nat} (hm : m < 12) :
    daysBeforeMonth leap m < daysBeforeMonth leap (m + 1) ∧
      daysBeforeMonth leap (m + 1) ≤ daysBeforeMonth leap m + 31 := by
  obtain rfl | rfl : leap = 0 ∨ leap = 1 := by omega
  · exact (by decide : ∀ m < 12, daysBeforeMonth 0 m < daysBeforeMonth 0 (m + 1) ∧
      daysBeforeMonth 0 (m + 1) ≤ daysBeforeMonth 0 m + 31) m hm
  · exact (by decide : ∀ m < 12, daysBeforeMonth 1 m < daysBeforeMonth 1 (m + 1) ∧
      daysBeforeMonth 1 (m + 1) ≤ daysBeforeMonth 1 m + 31) m hm

theorem daysBeforeMonth_lt {leap : Int} (hleap : 0 ≤ leap ∧ leap ≤ 1) {m m' : Nat} (h : m < m')
    (hm' : m' ≤ 12) : daysBeforeMonth leap m < daysBeforeMonth leap m' := by
  induction m' with
  | zero => omega
  | succ n ih =>
    have hstep := (daysBeforeMonth_succ hleap (show n < 12 by omega)).1
    obtain rfl | hlt := Nat.eq_or_lt_of_le (Nat.le_of_lt_succ h)
    · exact hstep
    · have hless := ih hlt (by omega)
      omega

theorem monthOf_lt (leap yday : Int) : monthOf leap yday < 12 :=
  Nat.lt_succ_of_le (lastLe_le _ _ _)

/-- A day of the year lies in its month. -/
theorem monthOf_spec {leap yday : Int} (hlow : 0 ≤ yday) (hhigh : yday < 365 + leap) :
    daysBeforeMonth leap (monthOf leap yday) ≤ yday ∧
      yday < daysBeforeMonth leap (monthOf leap yday + 1) := by
  refine ⟨le_lastLe (f := daysBeforeMonth leap) hlow 11, ?_⟩
  obtain heq | hlt := Nat.eq_or_lt_of_le (Nat.le_of_lt_succ (monthOf_lt leap yday))
  · rw [heq]
    exact hhigh
  · exact lt_of_lastLe_lt (Nat.lt_succ_self _) hlt

theorem monthOf_mono {leap yday yday' : Int} (hleap : 0 ≤ leap ∧ leap ≤ 1) (hlow : 0 ≤ yday)
    (h : yday ≤ yday') (hhigh : yday' < 365 + leap) : monthOf leap yday ≤ monthOf leap yday' := by
  by_contra hgt
  have hspec := monthOf_spec hlow (Int.lt_of_le_of_lt h hhigh)
  have hspec' := monthOf_spec (Int.le_trans hlow h) hhigh
  have hlt := monthOf_lt leap yday
  obtain heq | hless :=
    Nat.eq_or_lt_of_le (show monthOf leap yday' + 1 ≤ monthOf leap yday by omega)
  · rw [← heq] at hspec
    omega
  · have hmonths := daysBeforeMonth_lt hleap hless (by omega)
    omega

theorem daysBeforeMonth_nonneg {leap : Int} (hleap : 0 ≤ leap ∧ leap ≤ 1) {m : Nat} (hm : m ≤ 12) :
    0 ≤ daysBeforeMonth leap m := by
  cases m with
  | zero => exact Int.le_refl 0
  | succ m => exact Int.le_of_lt (daysBeforeMonth_lt hleap (Nat.zero_lt_succ m) hm)

/-! ## Dates -/

/-- A date, with the months from 0 on and the days from 1 on. -/
structure Date where
  year : Int
  mon : Nat
  mday : Int

def dateOf (d : Int) : Date :=
  let year := yearOf d
  let mon := monthOf (leapDay year) (d - daysBefore year)
  ⟨year, mon, d - daysBefore year - daysBeforeMonth (leapDay year) mon + 1⟩

def dayOf (date : Date) : Int :=
  daysBefore date.year + daysBeforeMonth (leapDay date.year) date.mon + date.mday - 1

/-- The month of a date, counted through the years. -/
def Date.months (date : Date) : Int := 12 * date.year + date.mon

theorem dayOf_dateOf (d : Int) : dayOf (dateOf d) = d := by
  show daysBefore (dateOf d).year + daysBeforeMonth (leapDay (dateOf d).year) (dateOf d).mon +
    (d - daysBefore (dateOf d).year - daysBeforeMonth (leapDay (dateOf d).year)
      (dateOf d).mon + 1) - 1 = d
  omega

/-- Where a day lies in its year and in its month. -/
theorem dateOf_spec (d : Int) :
    (0 ≤ d - daysBefore (dateOf d).year ∧
      d - daysBefore (dateOf d).year < 365 + leapDay (dateOf d).year) ∧
    (dateOf d).mon < 12 ∧
    daysBeforeMonth (leapDay (dateOf d).year) (dateOf d).mon ≤ d - daysBefore (dateOf d).year ∧
    d - daysBefore (dateOf d).year < daysBeforeMonth (leapDay (dateOf d).year)
      ((dateOf d).mon + 1) := by
  obtain ⟨hlow, hhigh⟩ := yearOf_spec d
  rw [daysBefore_succ] at hhigh
  have hyear :
      0 ≤ d - daysBefore (yearOf d) ∧ d - daysBefore (yearOf d) < 365 + leapDay (yearOf d) := by
    omega
  exact ⟨hyear, monthOf_lt _ _, monthOf_spec hyear.1 hyear.2⟩

theorem dateOf_mday (d : Int) : 1 ≤ (dateOf d).mday ∧ (dateOf d).mday ≤ 31 := by
  obtain ⟨-, hmon, hlow, hhigh⟩ := dateOf_spec d
  have hdays := (daysBeforeMonth_succ (leapDay_range (dateOf d).year) hmon).2
  have hmday : (dateOf d).mday = d - daysBefore (dateOf d).year -
    daysBeforeMonth (leapDay (dateOf d).year) (dateOf d).mon + 1 := rfl
  omega

/-- A day that its month does not have is one of the same year. -/
theorem yearOf_dayOf (date : Date) (hmon : date.mon < 12) (hmday : 1 ≤ date.mday ∧ date.mday ≤ 31) :
    yearOf (dayOf date) = date.year := by
  have hleap := leapDay_range date.year
  have hlow := daysBeforeMonth_nonneg hleap (Nat.le_of_lt hmon)
  have hhigh : daysBeforeMonth (leapDay date.year) date.mon ≤ 334 + leapDay date.year := by
    obtain heq | hlt := Nat.eq_or_lt_of_le (Nat.le_of_lt_succ hmon)
    · rw [heq]
      exact Int.le_refl _
    · exact Int.le_of_lt (daysBeforeMonth_lt hleap hlt (by decide))
  apply yearOf_eq
  · rw [dayOf]
    omega
  · rw [dayOf, daysBefore_succ]
    omega

theorem months_mono {d d' : Int} (h : d ≤ d') : (dateOf d).months ≤ (dateOf d').months := by
  have hyears : (dateOf d).year ≤ (dateOf d').year := yearOf_mono h
  obtain ⟨hyear, hmon, -⟩ := dateOf_spec d
  obtain ⟨hyear', -⟩ := dateOf_spec d'
  unfold Date.months
  obtain heq | hlt := Int.le_iff_eq_or_lt.mp hyears
  · have hmonths : (dateOf d).mon ≤ (dateOf d').mon := by
      have hle := monthOf_mono (leapDay_range (dateOf d).year) hyear.1
        (show d - daysBefore (dateOf d).year ≤ d' - daysBefore (dateOf d).year by omega)
        (by rw [heq]; exact hyear'.2)
      have hsame : (dateOf d').mon =
        monthOf (leapDay (dateOf d').year) (d' - daysBefore (dateOf d').year) := rfl
      rw [hsame, ← heq]
      exact hle
    omega
  · omega

/-- 180 days are less than eleven months. -/
theorem months_half {d d' : Int} (h : d' ≤ d + 180) :
    (dateOf d').months < (dateOf d).months + 12 := by
  obtain ⟨hyear, hmon, hlow, hhigh⟩ := dateOf_spec d
  obtain ⟨hyear', hmon', hlow', hhigh'⟩ := dateOf_spec d'
  unfold Date.months
  by_contra hgt
  have hlater : (dateOf d).year + 1 ≤ (dateOf d').year := by omega
  have hfirst := daysBefore_le hlater
  have hnext := daysBefore_succ (dateOf d).year
  have hyears : (dateOf d').year = (dateOf d).year + 1 := by omega
  rw [hyears] at hlow' hyear'
  have hleap := leapDay_range (dateOf d).year
  have hleap' := leapDay_range ((dateOf d).year + 1)
  -- the month that comes again has been over for less than 180 days
  have hdays := (daysBeforeMonth_succ hleap hmon).2
  have hmonths : daysBeforeMonth (leapDay ((dateOf d).year + 1)) (dateOf d).mon ≤
      daysBeforeMonth (leapDay ((dateOf d).year + 1)) (dateOf d').mon := by
    obtain heq | hlt := Nat.eq_or_lt_of_le (show (dateOf d).mon ≤ (dateOf d').mon by omega)
    · rw [heq]
    · exact Int.le_of_lt (daysBeforeMonth_lt hleap' hlt (Nat.le_of_lt hmon'))
  have hyear_leap : daysBeforeMonth (leapDay (dateOf d).year) (dateOf d).mon ≤
      daysBeforeMonth (leapDay ((dateOf d).year + 1)) (dateOf d).mon + 1 := by
    unfold daysBeforeMonth
    split <;> omega
  omega

end Gregorian
