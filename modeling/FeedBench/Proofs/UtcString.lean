import FeedBench.Lib.Calendar
import FeedBench.Report

/-!
# The report's clock is the Gregorian calendar

The source counts eras of 400 years from March 1 of the year 0, years from March to February, and
months within such a year, so that the leap day is the last one of its year.  The year of the era
is the one whose days contain the day, which bounds every later step.
-/

namespace FeedBench.Report

open I64 Lib.Calendar

/-! ## The year of the era -/

/-- The days of an era before the first one of a year that begins in March. -/
def daysBefore (yoe : Int) : Int := 365 * yoe + yoe / 4 - yoe / 100

def yearOfEra (doe : Int) : Int := (doe - doe / 1460 + doe / 36524 - doe / 146096) / 365

section Era

variable {doe : Int}

theorem yearOfEra_bounds (hpos : 0 ≤ doe) (hlt : doe < 146097) :
    0 ≤ yearOfEra doe ∧ yearOfEra doe < 400 := by
  unfold yearOfEra
  omega

theorem daysBefore_le (hpos : 0 ≤ doe) (hlt : doe < 146097) :
    daysBefore (yearOfEra doe) ≤ doe := by
  obtain ⟨c, hc⟩ : ∃ c, c = doe / 36524 := ⟨_, rfl⟩
  obtain ⟨e, he⟩ : ∃ e, e = doe / 146096 := ⟨_, rfl⟩
  unfold daysBefore yearOfEra
  rw [← hc, ← he]
  have hc0 : 0 ≤ c := by omega
  have hc4 : c ≤ 4 := by omega
  have he0 : 0 ≤ e := by omega
  have he1 : e ≤ 1 := by omega
  have hfours : (doe - doe / 1460 + c - e) / 365 / 4 ≤ doe / 1460 := by
    interval_cases c <;> omega
  -- One case for each century and for the last day of the era.
  interval_cases c <;> interval_cases e <;> omega

theorem lt_daysBefore (hpos : 0 ≤ doe) (hlt : doe < 146097) :
    doe < daysBefore (yearOfEra doe + 1) + (yearOfEra doe + 1) / 400 := by
  have hlow := daysBefore_le hpos hlt
  obtain ⟨c, hc⟩ : ∃ c, c = doe / 36524 := ⟨_, rfl⟩
  obtain ⟨e, he⟩ : ∃ e, e = doe / 146096 := ⟨_, rfl⟩
  unfold daysBefore at hlow ⊢
  obtain ⟨yoe, hyoe⟩ : ∃ yoe, yoe = yearOfEra doe := ⟨_, rfl⟩
  rw [← hyoe] at hlow ⊢
  unfold yearOfEra at hyoe
  rw [← hc, ← he] at hyoe
  have hc0 : 0 ≤ c := by omega
  have hc4 : c ≤ 4 := by omega
  have he0 : 0 ≤ e := by omega
  have he1 : e ≤ 1 := by omega
  have hfours : doe / 1460 ≤ (yoe + 1) / 4 := by
    interval_cases c <;> omega
  have hcentury : (yoe + 1) / 100 ≤ c + 1 := by
    interval_cases c <;> omega
  by_cases hlast : (yoe + 1) / 100 = c + 1
  · interval_cases c <;> interval_cases e <;> omega
  · interval_cases c <;> interval_cases e <;> omega

end Era

/-! ## The month of the year -/

theorem daysBeforeMonth_march (y : Int) {mp : Int} (hmp : 0 ≤ mp ∧ mp ≤ 10) :
    daysBeforeMonth y (mp + 3) = (153 * mp + 2) / 5 + 59 + if IsLeap y then 1 else 0 := by
  obtain ⟨hpos, hle⟩ := hmp
  rw [daysBeforeMonth_eq y (by omega), if_neg (by omega)]
  split_ifs
  · interval_cases mp <;> rfl
  · interval_cases mp <;> rfl

theorem daysBeforeMonth_january (y : Int) {mp : Int} (hmp : 10 ≤ mp ∧ mp ≤ 11) :
    daysBeforeMonth y (mp - 9) = (153 * mp + 2) / 5 - 306 := by
  obtain ⟨hpos, hle⟩ := hmp
  rw [daysBeforeMonth_eq y (by omega), if_pos (by omega)]
  interval_cases mp <;> rfl

/-! ## The date -/

def marchDay (doe : Int) : Int := doe - daysBefore (yearOfEra doe)

theorem marchDay_bounds {doe : Int} (hpos : 0 ≤ doe) (hlt : doe < 146097) :
    0 ≤ marchDay doe ∧ marchDay doe ≤ 365 := by
  have hyoe := yearOfEra_bounds hpos hlt
  have hlow := daysBefore_le hpos hlt
  have hhigh := lt_daysBefore hpos hlt
  unfold marchDay
  unfold daysBefore at hlow hhigh ⊢
  omega

/-- What civil-from-days computes where nothing overflows. -/
def civil (era doe : Int) : Int × Int × Int :=
  let mp := (5 * marchDay doe + 2) / 153
  let m := if mp < 10 then mp + 3 else mp - 9
  (if m ≤ 2 then yearOfEra doe + era * 400 + 1 else yearOfEra doe + era * 400, m,
    marchDay doe - (153 * mp + 2) / 5 + 1)

theorem civilFromDays_eq {days : Int} (hpos : 0 ≤ days) (hmax : days < 4611686018427387904) :
    civilFromDays days =
      some (civil ((days + 719468) / 146097) ((days + 719468) % 146097)) := by
  have hmod : days + 719468 - (days + 719468) / 146097 * 146097 = (days + 719468) % 146097 := by
    omega
  unfold civilFromDays
  rw [checked_bind (by omega) (by omega)]
  dsimp only
  rw [checked_bind (by omega) (by omega), checked_bind (by omega) (by omega), hmod]
  have hera : 0 ≤ (days + 719468) / 146097 ∧ (days + 719468) / 146097 ≤ days + 719468 := by omega
  have hdoe : 0 ≤ (days + 719468) % 146097 ∧ (days + 719468) % 146097 < 146097 := by omega
  generalize (days + 719468) / 146097 = era at *
  generalize (days + 719468) % 146097 = doe at *
  simp only [Int.tdiv_eq_ediv_of_nonneg hdoe.1]
  rw [checked_bind (by omega) (by omega), checked_bind (by omega) (by omega),
    checked_bind (by omega) (by omega), Int.tdiv_eq_ediv_of_nonneg (by omega)]
  have hyear : (doe - doe / 1460 + doe / 36524 - doe / 146096) / 365 = yearOfEra doe := rfl
  have hyoe := yearOfEra_bounds hdoe.1 hdoe.2
  rw [hyear]
  clear hyear
  simp only [Int.tdiv_eq_ediv_of_nonneg hyoe.1]
  rw [checked_bind (by omega) (by omega), checked_bind (by omega) (by omega),
    checked_bind (by omega) (by omega), checked_bind (by omega) (by omega),
    checked_bind (by omega) (by omega), checked_bind (by omega) (by omega)]
  have hday : doe - (365 * yearOfEra doe + yearOfEra doe / 4 - yearOfEra doe / 100) =
      marchDay doe := rfl
  have hdoy := marchDay_bounds hdoe.1 hdoe.2
  rw [hday]
  clear hday
  rw [checked_bind (by omega) (by omega), checked_bind (by omega) (by omega),
    Int.tdiv_eq_ediv_of_nonneg (by omega)]
  have hmonth : 0 ≤ (5 * marchDay doe + 2) / 153 ∧ (5 * marchDay doe + 2) / 153 ≤ 11 := by omega
  unfold civil
  generalize (5 * marchDay doe + 2) / 153 = mp at *
  rw [checked_bind (by omega) (by omega), checked_bind (by omega) (by omega),
    Int.tdiv_eq_ediv_of_nonneg (by omega), checked_bind (by omega) (by omega),
    checked_bind (by omega) (by omega)]
  by_cases hlate : mp < 10
  · simp only [hlate, if_true]
    rw [checked_bind (by omega) (by omega), if_neg (by omega), if_neg (by omega)]
    rfl
  · simp only [hlate, if_false]
    rw [checked_bind (by omega) (by omega), if_pos (by omega), if_pos (by omega),
      checked_bind (by omega) (by omega)]
    rfl

theorem daysOfYears_march {yoe : Int} (era : Int) (hyoe : 0 ≤ yoe ∧ yoe < 400) :
    daysOfYears 1970 (yoe + era * 400 + 1) =
      era * 146097 + daysBefore yoe + 306 - 719468 := by
  rw [daysOfYears_eq]
  unfold leapDays daysBefore
  omega

theorem leap_of_marchDay {doe : Int} (era : Int) (hpos : 0 ≤ doe) (hlt : doe < 146097)
    (hday : marchDay doe = 365) : IsLeap (yearOfEra doe + era * 400 + 1) := by
  have hyoe := yearOfEra_bounds hpos hlt
  have hhigh := lt_daysBefore hpos hlt
  unfold marchDay at hday
  unfold daysBefore at hday hhigh
  generalize yearOfEra doe = yoe at *
  have hfour : (yoe + 1) % 4 = 0 := by
    by_contra hodd
    have hsame : (yoe + 1) / 4 = yoe / 4 := by omega
    have hera : (yoe + 1) / 400 = 0 := by
      apply Int.ediv_eq_zero_of_lt
      · omega
      · have hne : yoe ≠ 399 := by
          rintro rfl
          exact hodd rfl
        omega
    have hmono : yoe / 100 ≤ (yoe + 1) / 100 := by omega
    omega
  have hcentury : (yoe + 1) % 100 = 0 → (yoe + 1) % 400 = 0 := by omega
  refine ⟨by omega, ?_⟩
  by_cases h : (yoe + 1) % 100 = 0
  · have hera := hcentury h
    right
    omega
  · left
    omega

theorem march_date {y mp doy : Int} (hmp : 0 ≤ mp ∧ mp < 10)
    (hfirst : (153 * mp + 2) / 5 ≤ doy) (hlast : doy < (153 * (mp + 1) + 2) / 5) :
    ∃ date : Date, date.year = y ∧ date.month = mp + 3 ∧
      date.day = doy - (153 * mp + 2) / 5 + 1 ∧
      date.number = daysOfYears 1970 (y + 1) - 306 + doy := by
  have hlength := daysBeforeMonth_succ (y := y) (m := mp + 3) (by omega)
  rw [Int.add_right_comm, daysBeforeMonth_march _ (by omega),
    daysBeforeMonth_march _ (by omega)] at hlength
  refine ⟨⟨y, mp + 3, doy - (153 * mp + 2) / 5 + 1, by omega, by omega⟩, rfl, rfl, rfl, ?_⟩
  unfold Date.number
  dsimp only
  rw [daysBeforeMonth_march _ (by omega), daysOfYears_succ, yearLength_eq]
  split_ifs
  · omega
  · omega

theorem january_date {y mp doy : Int} (hmp : 10 ≤ mp ∧ mp ≤ 11)
    (hfirst : (153 * mp + 2) / 5 ≤ doy) (hlast : doy < (153 * (mp + 1) + 2) / 5)
    (hdoy : doy ≤ 365) (hleap : doy = 365 → IsLeap y) :
    ∃ date : Date, date.year = y ∧ date.month = mp - 9 ∧
      date.day = doy - (153 * mp + 2) / 5 + 1 ∧
      date.number = daysOfYears 1970 y - 306 + doy := by
  have hlength : doy - (153 * mp + 2) / 5 + 1 ≤ monthLength y (mp - 9) := by
    unfold monthLength
    split_ifs with hfeb hyear
    · omega
    · have hne : doy ≠ 365 := fun h => hyear (hleap h)
      omega
    · omega
    · omega
  refine ⟨⟨y, mp - 9, doy - (153 * mp + 2) / 5 + 1, by omega, by omega, hlength⟩,
    rfl, rfl, rfl, ?_⟩
  unfold Date.number
  dsimp only
  rw [daysBeforeMonth_january _ hmp]
  omega

/-- The date that civil-from-days computes. -/
theorem civil_date (era : Int) {doe : Int} (hpos : 0 ≤ doe) (hlt : doe < 146097) :
    ∃ date : Date, civil era doe = (date.year, date.month, date.day) ∧
      date.number + 719468 = era * 146097 + doe := by
  have hyoe := yearOfEra_bounds hpos hlt
  have hdoy := marchDay_bounds hpos hlt
  have hleap := leap_of_marchDay era hpos hlt
  have hyears := daysOfYears_march era hyoe
  have hmp : 0 ≤ (5 * marchDay doe + 2) / 153 ∧ (5 * marchDay doe + 2) / 153 ≤ 11 := by omega
  have hfirst : (153 * ((5 * marchDay doe + 2) / 153) + 2) / 5 ≤ marchDay doe := by omega
  have hlast : marchDay doe < (153 * ((5 * marchDay doe + 2) / 153 + 1) + 2) / 5 := by omega
  have hday : marchDay doe = doe - daysBefore (yearOfEra doe) := rfl
  unfold civil
  generalize (5 * marchDay doe + 2) / 153 = mp at *
  by_cases hlate : mp < 10
  · obtain ⟨date, hy, hm, hd, hnumber⟩ :=
      march_date (y := yearOfEra doe + era * 400) ⟨hmp.1, hlate⟩ hfirst hlast
    refine ⟨date, ?_, by omega⟩
    rw [hy, hm, hd]
    simp only [hlate, if_true]
    rw [if_neg (by omega)]
  · obtain ⟨date, hy, hm, hd, hnumber⟩ := january_date ⟨not_lt.mp hlate, hmp.2⟩ hfirst hlast
      hdoy.2 hleap
    refine ⟨date, ?_, by omega⟩
    rw [hy, hm, hd]
    simp only [hlate, if_false]
    rw [if_pos (by omega)]

theorem civilFromDays_date {days : Int} (hpos : 0 ≤ days) (hmax : days < 4611686018427387904) :
    ∃ date : Date, civilFromDays days = some (date.year, date.month, date.day) ∧
      date.number = days := by
  have hmod : 0 ≤ (days + 719468) % 146097 ∧ (days + 719468) % 146097 < 146097 := by omega
  obtain ⟨date, hcivil, hnumber⟩ :=
    civil_date ((days + 719468) / 146097) hmod.1 hmod.2
  refine ⟨date, ?_, by omega⟩
  rw [civilFromDays_eq hpos hmax, hcivil]

/-- **The clock of the report.** For every time from the epoch on whose seconds fit `i64`, nothing
overflows, and the text is that of the valid date-time as many seconds after 1970-01-01 00:00:00;
its date is as many steps of the calendar after that day. -/
theorem utcString_gregorian {t : Int} (hpos : 0 ≤ t)
    (hmax : t / 1000000000 < 9223372036854775808) :
    ∃ dt : DateTime,
      utcString t = some
        (render dt.date.year dt.date.month dt.date.day dt.hour dt.minute dt.second) ∧
      dt.seconds = t / 1000000000 ∧
      dt.date = Date.next^[(t / 1000000000 / 86400).toNat] epoch := by
  have hsecs : (if t < 0 then 0 else ofU64 (t / 1000000000).toNat) = t / 1000000000 := by
    rw [if_neg (not_lt.mpr hpos), ofU64_of_lt (by omega)]
    omega
  have hsecs0 : 0 ≤ t / 1000000000 := by omega
  unfold utcString
  simp only [hsecs]
  generalize t / 1000000000 = secs at *
  have hdays : 0 ≤ secs / 86400 ∧ secs / 86400 < 4611686018427387904 := by omega
  have hsod : 0 ≤ secs % 86400 := by omega
  obtain ⟨date, hcivil, hnumber⟩ := civilFromDays_date hdays.1 hdays.2
  refine ⟨⟨date, secs % 86400 / 3600, secs % 86400 / 60 % 60, secs % 86400 % 60, by omega,
    by omega, by omega⟩, ?_, ?_, ?_⟩
  · rw [hcivil, Int.tdiv_eq_ediv_of_nonneg hsod, Int.tdiv_eq_ediv_of_nonneg hsod,
      Int.tmod_eq_emod_of_nonneg hsod, Int.tmod_eq_emod_of_nonneg (by omega)]
    rfl
  · unfold DateTime.seconds
    dsimp only
    omega
  · apply Date.eq_iterate_next
    rw [Int.toNat_of_nonneg hdays.1]
    exact hnumber

theorem utcString_leapDay :
    ∃ dt : DateTime,
      utcString (951825600 * 1000000000) = some
        (render dt.date.year dt.date.month dt.date.day dt.hour dt.minute dt.second) ∧
      dt.seconds = 951825600 * 1000000000 / 1000000000 ∧
      dt.date = Date.next^[(951825600 * 1000000000 / 1000000000 / 86400 : Int).toNat] epoch :=
  utcString_gregorian (by decide) (by decide)

end FeedBench.Report
