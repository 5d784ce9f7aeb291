import Spegla.Lib.Gregorian
import Spegla.RowFormat

/-!
# The year of a row without one (`parserow.c`, `parse_row`)

A row that shows its time as `hh:mm` leaves the year to `parse_row`, which compares the month with
the one of now.

- `Calendar`: `localtime` and `mktime` of the C library, with what is relied on of them.
- `gregorian`: the calendar of a time zone without summer time.
- `parseRow_year`: the time of a row is the one that it shows exactly where that lies in no later
  month than now, and before the year 3800.
-/

namespace Spegla

open CString

/-! ## Calendars -/

/-- The fields of a date, as `localtime` gives them. -/
def Tm.InRange (tm : Tm) : Prop :=
  (0 ≤ tm.tmMon ∧ tm.tmMon ≤ 11) ∧ (1 ≤ tm.tmMday ∧ tm.tmMday ≤ 31) ∧
    (0 ≤ tm.tmHour ∧ tm.tmHour ≤ 23) ∧ (0 ≤ tm.tmMin ∧ tm.tmMin ≤ 59) ∧
    (0 ≤ tm.tmSec ∧ tm.tmSec ≤ 59)

/-- The month, counted through the years. -/
def Tm.months (tm : Tm) : Int := 12 * tm.tmYear + tm.tmMon

/-- Conversions between times and dates that are inverse to each other. `mktime` also takes days
that a month does not have, for days of the next one. -/
structure Calendar where
  localtime : Int → Tm
  mktime : Tm → Int
  inverse : ∀ t, mktime (localtime t) = t
  inRange : ∀ t, (localtime t).InRange
  minute : ∀ t, localtime (t - (localtime t).tmSec) = { localtime t with tmSec := 0 }
  sameYear : ∀ tm, tm.InRange → (localtime (mktime tm)).tmYear = tm.tmYear
  months_mono : ∀ t t', t ≤ t' → (localtime t).months ≤ (localtime t').months
  halfYear : ∀ t t', t' ≤ t + 180 * SECSPERDAY → (localtime t').months < (localtime t).months + 12

/-- What `parse_row` asks the C library, at the time `now`. -/
def Calendar.rowEnv (cal : Calendar) (now : Int) : RowEnv where
  nowMon := (cal.localtime now).tmMon
  nowYear := (cal.localtime now).tmYear
  mktime := cal.mktime

/-- The row shows the time `t` as `hh:mm`. -/
structure LsEntry.Shows (e : LsEntry) (cal : Calendar) (t : Int) : Prop where
  mon : (e.mon.val : Int) = (cal.localtime t).tmMon
  mday : (e.mday : Int) = (cal.localtime t).tmMday
  date : ∃ hour min : Nat, e.date = .minutes hour min ∧ (hour : Int) = (cal.localtime t).tmHour ∧
    (min : Int) = (cal.localtime t).tmMin

theorem toInt_small {n : Nat} (h : n < 2 ^ 31) : toInt (clampLong n) = n := by
  have hclamp : clampLong n = n := by
    unfold clampLong
    omega
  rw [hclamp]
  exact Int.bmod_eq_of_le (by omega) (by omega)

/-! ## The year -/

variable {cal : Calendar} {now t : Int} {e : LsEntry}

/-- What `parse_row` makes of the time of a row. -/
theorem parseRow_time (hshows : e.Shows cal t) {text leftover : Str} (htext : text ≠ [])
    {spf : SpFile} (hrow : parseRow (cal.rowEnv now) (e.head ++ text) leftover = some spf) :
    spf.spfTime = cal.mktime ({ cal.localtime t with
      tmYear := (cal.rowEnv now).recentYear (cal.localtime t).tmMon
      tmSec := 0 } : Tm).fromYear1900 := by
  obtain ⟨hour, min, hdate, hhour, hmin⟩ := hshows.date
  obtain ⟨-, hdays, hhours, hmins, -⟩ := cal.inRange t
  have hmday := hshows.mday
  rw [parseRow_head _ e htext] at hrow
  obtain ⟨p, -, rfl⟩ := Option.map_eq_some_iff.mp hrow
  have htm : (e.date.tm (cal.rowEnv now) e.mon.val (toInt (clampLong e.mday))).1 =
      { cal.localtime t with
        tmYear := (cal.rowEnv now).recentYear (cal.localtime t).tmMon
        tmSec := 0 } := by
    rw [hdate, LsDate.tm, toInt_small (by omega), toInt_small (by omega), toInt_small (by omega),
      hshows.mon, hmday, hhour, hmin]
  show cal.mktime
    (e.date.tm (cal.rowEnv now) e.mon.val (toInt (clampLong e.mday))).1.fromYear1900 = _
  rw [htm]

/-- The year that is guessed is the right one for the months up to now. -/
theorem recentYear_iff (hrecent : now - 180 * SECSPERDAY ≤ t) :
    (cal.rowEnv now).recentYear (cal.localtime t).tmMon = (cal.localtime t).tmYear ↔
      (cal.localtime t).months ≤ (cal.localtime now).months := by
  obtain ⟨hmon, -⟩ := cal.inRange t
  obtain ⟨hnow, -⟩ := cal.inRange now
  have hhalf := cal.halfYear t now (by omega)
  unfold Tm.months at hhalf ⊢
  show (if (cal.localtime now).tmMon < (cal.localtime t).tmMon then (cal.localtime now).tmYear - 1
    else (cal.localtime now).tmYear) = _ ↔ _
  split
  · omega
  · omega

/-- **The year.** -/
theorem parseRow_year (hrecent : now - 180 * SECSPERDAY ≤ t) (hshows : e.Shows cal t)
    {text leftover : Str} (htext : text ≠ []) {spf : SpFile}
    (hrow : parseRow (cal.rowEnv now) (e.head ++ text) leftover = some spf) :
    spf.spfTime = t - (cal.localtime t).tmSec ↔
      (cal.localtime t).months ≤ (cal.localtime now).months ∧ (cal.localtime t).tmYear < 1900 := by
  rw [parseRow_time hshows htext hrow, ← recentYear_iff hrecent]
  have hrange := cal.inRange t
  have hhalf := cal.halfYear t now (by omega)
  have hguess :
      (cal.rowEnv now).recentYear (cal.localtime t).tmMon ≤ (cal.localtime now).tmYear := by
    show (if (cal.localtime now).tmMon < (cal.localtime t).tmMon then (cal.localtime now).tmYear - 1
      else (cal.localtime now).tmYear) ≤ _
    split <;> omega
  have hmonths : (cal.localtime now).tmYear ≤ (cal.localtime t).tmYear + 1 := by
    obtain ⟨hmon, -⟩ := hrange
    obtain ⟨hnow, -⟩ := cal.inRange now
    unfold Tm.months at hhalf
    omega
  generalize (cal.rowEnv now).recentYear (cal.localtime t).tmMon = year at hguess ⊢
  have hsec := cal.minute t
  constructor
  · intro hright
    have hyear :=
      cal.sameYear ({ cal.localtime t with tmYear := year, tmSec := 0 } : Tm).fromYear1900
      ⟨hrange.1, hrange.2.1, hrange.2.2.1, hrange.2.2.2.1,
        (by decide : (0 : Int) ≤ 0 ∧ (0 : Int) ≤ 59)⟩
    rw [hright, hsec] at hyear
    have hyear : (cal.localtime t).tmYear = if year ≥ 1900 then year - 1900 else year := hyear
    split at hyear
    · omega
    · omega
  · rintro ⟨rfl, hbefore⟩
    rw [Tm.fromYear1900]
    simp only [if_neg (Int.not_le.mpr hbefore)]
    rw [← hsec]
    exact cal.inverse _

/-! ## A calendar -/

/-- The days from the first of January of the year 0 to that of the year 1970. -/
def EPOCH : Int := 719528

/-- `localtime` in a time zone that is `offset` seconds before UTC. -/
def gregorianTime (offset t : Int) : Tm :=
  let date := Gregorian.dateOf ((t + offset) / SECSPERDAY + EPOCH)
  let sec := (t + offset) % SECSPERDAY
  ⟨date.year - 1900, date.mon, date.mday, sec / 3600, sec / 60 % 60, sec % 60⟩

/-- `mktime` there. -/
def gregorianMktime (offset : Int) (tm : Tm) : Int :=
  let day := Gregorian.dayOf ⟨tm.tmYear + 1900 + tm.tmMon / 12, (tm.tmMon % 12).toNat, tm.tmMday⟩
  (day - EPOCH) * SECSPERDAY + tm.tmHour * 3600 + tm.tmMin * 60 + tm.tmSec - offset

theorem gregorianMktime_day (offset : Int) {tm : Tm} (h : tm.InRange) :
    (gregorianMktime offset tm + offset) / SECSPERDAY + EPOCH =
      Gregorian.dayOf ⟨tm.tmYear + 1900, tm.tmMon.toNat, tm.tmMday⟩ := by
  obtain ⟨hmon, -, hhour, hmin, hsec⟩ := h
  have hyear : tm.tmYear + 1900 + tm.tmMon / 12 = tm.tmYear + 1900 := by omega
  have hmonth : tm.tmMon % 12 = tm.tmMon := by omega
  unfold gregorianMktime SECSPERDAY
  simp only [hyear, hmonth]
  omega

theorem gregorianTime_inRange (offset t : Int) : (gregorianTime offset t).InRange := by
  obtain ⟨-, hmon, -⟩ := Gregorian.dateOf_spec ((t + offset) / SECSPERDAY + EPOCH)
  have hmday := Gregorian.dateOf_mday ((t + offset) / SECSPERDAY + EPOCH)
  unfold Tm.InRange gregorianTime SECSPERDAY at *
  simp only
  omega

/-- The day of a time is the day of its date. -/
theorem dayOf_gregorianTime (offset t : Int) :
    Gregorian.dayOf ⟨(gregorianTime offset t).tmYear + 1900, (gregorianTime offset t).tmMon.toNat,
      (gregorianTime offset t).tmMday⟩ = (t + offset) / SECSPERDAY + EPOCH := by
  have hday := Gregorian.dayOf_dateOf ((t + offset) / SECSPERDAY + EPOCH)
  rw [gregorianTime]
  simp only [Int.sub_add_cancel, Int.toNat_natCast]
  exact hday

theorem gregorianMktime_gregorianTime (offset t : Int) :
    gregorianMktime offset (gregorianTime offset t) = t := by
  have hday := gregorianMktime_day offset (gregorianTime_inRange offset t)
  rw [dayOf_gregorianTime] at hday
  have hsec : (gregorianMktime offset (gregorianTime offset t) + offset) % SECSPERDAY =
      (t + offset) % SECSPERDAY := by
    rw [gregorianMktime]
    generalize Gregorian.dayOf _ = day
    simp only [gregorianTime, SECSPERDAY]
    omega
  unfold SECSPERDAY at hday hsec
  omega

/-- The date and the minute do not change within a minute. -/
theorem gregorianTime_minute (offset t : Int) :
    gregorianTime offset (t - (gregorianTime offset t).tmSec) =
      { gregorianTime offset t with tmSec := 0 } := by
  have hsec : (gregorianTime offset t).tmSec = (t + offset) % SECSPERDAY % 60 := rfl
  have hday : (t - (gregorianTime offset t).tmSec + offset) / SECSPERDAY =
      (t + offset) / SECSPERDAY := by
    rw [hsec]
    unfold SECSPERDAY
    omega
  have hmin : (t - (gregorianTime offset t).tmSec + offset) % SECSPERDAY =
      (t + offset) % SECSPERDAY - (t + offset) % SECSPERDAY % 60 := by
    rw [hsec]
    unfold SECSPERDAY
    omega
  generalize (gregorianTime offset t).tmSec = sec at hday hmin
  simp only [gregorianTime, hday, hmin, Tm.mk.injEq, true_and]
  omega

/-- The calendar of such a time zone. -/
def gregorian (offset : Int) : Calendar where
  localtime := gregorianTime offset
  mktime := gregorianMktime offset
  inverse := gregorianMktime_gregorianTime offset
  inRange := gregorianTime_inRange offset
  minute := gregorianTime_minute offset
  sameYear tm h := by
    have hmon := h.1
    have hyear := Gregorian.yearOf_dayOf ⟨tm.tmYear + 1900, tm.tmMon.toNat, tm.tmMday⟩
      (by simp only; omega) h.2.1
    rw [← gregorianMktime_day offset h] at hyear
    show Gregorian.yearOf _ - 1900 = tm.tmYear
    rw [hyear, add_sub_cancel_right]
  months_mono t t' h := by
    have hday : (t + offset) / SECSPERDAY + EPOCH ≤ (t' + offset) / SECSPERDAY + EPOCH := by
      unfold SECSPERDAY
      omega
    have hmonths := Gregorian.months_mono hday
    unfold Gregorian.Date.months at hmonths
    unfold Tm.months gregorianTime
    simp only
    omega
  halfYear t t' h := by
    have hday : (t' + offset) / SECSPERDAY + EPOCH ≤ (t + offset) / SECSPERDAY + EPOCH + 180 := by
      unfold SECSPERDAY at *
      omega
    have hmonths := Gregorian.months_half hday
    unfold Gregorian.Date.months at hmonths
    unfold Tm.months gregorianTime
    simp only
    omega

/-- A row with such a date. -/
def minuteEntry (mon : Fin 12) (mday hour min : Nat) : LsEntry :=
  { fileX with
    mon := mon
    mday := mday
    date := .minutes hour min }

theorem minuteEntry_shows {mon : Fin 12} {mday hour min : Nat}
    (hmon : (mon.val : Int) = (cal.localtime t).tmMon)
    (hmday : (mday : Int) = (cal.localtime t).tmMday)
    (hhour : (hour : Int) = (cal.localtime t).tmHour)
    (hmin : (min : Int) = (cal.localtime t).tmMin) :
    (minuteEntry mon mday hour min).Shows cal t :=
  ⟨hmon, hmday, hour, min, rfl, hhour, hmin⟩

theorem minuteEntry_parses (mon : Fin 12) (mday hour min : Nat) (env : RowEnv) :
    ∃ spf, parseRow env ((minuteEntry mon mday hour min).head ++ ['x']) [] = some spf := by
  have hname : parseName .plainfile 0o644#12 ['x'] = some (['x'], none) := by decide
  refine ⟨(minuteEntry mon mday hour min).entry env ['x'] none, ?_⟩
  rw [parseRow_head env _ (by decide)]
  show (parseName .plainfile 0o644#12 ['x']).map _ = _
  rw [hname]
  rfl

/-- Seen on 31 January 2001 at 23:59:59, a file of 22 December. -/
theorem parseRow_year_december :
    ∃ spf, parseRow ((gregorian 0).rowEnv 980985599) ((minuteEntry 11 22 23 59).head ++ ['x']) [] =
      some spf ∧ spf.spfTime = 977529599 - 59 := by
  obtain ⟨spf, hrow⟩ := minuteEntry_parses 11 22 23 59 ((gregorian 0).rowEnv 980985599)
  have hshows : (minuteEntry 11 22 23 59).Shows (gregorian 0) 977529599 :=
    minuteEntry_shows (by decide +kernel) (by decide +kernel) (by decide +kernel)
      (by decide +kernel)
  exact ⟨spf, hrow, (parseRow_year (by decide) hshows (by decide) hrow).mpr
    ⟨by decide +kernel, by decide +kernel⟩⟩

/-- Seen then, a file that is one second newer is of February, and so of the year before. -/
theorem parseRow_year_february :
    ∃ spf, parseRow ((gregorian 0).rowEnv 980985599) ((minuteEntry 1 1 0 0).head ++ ['x']) [] =
      some spf ∧ (minuteEntry 1 1 0 0).Shows (gregorian 0) 980985600 ∧
      spf.spfTime = 949363200 := by
  obtain ⟨spf, hrow⟩ := minuteEntry_parses 1 1 0 0 ((gregorian 0).rowEnv 980985599)
  have hshows : (minuteEntry 1 1 0 0).Shows (gregorian 0) 980985600 :=
    minuteEntry_shows (by decide +kernel) (by decide +kernel) (by decide +kernel)
      (by decide +kernel)
  refine ⟨spf, hrow, hshows, (parseRow_time hshows (by decide) hrow).trans ?_⟩
  decide +kernel

end Spegla
