import Mathlib.Algebra.BigOperators.Group.List.Basic
import Mathlib.Data.Int.Init
import Mathlib.Logic.Function.Iterate
import Mathlib.Tactic.IntervalCases

/-!
# The proleptic Gregorian calendar

Dates with their months in range, the day after a date, and the number of a day counted from
1970-01-01 by the lengths of the years and the months between.  The number determines the date,
and the next day has the next number.
-/

namespace FeedBench.Lib.Calendar

def total (f : Int → Int) (a b : Int) : Int :=
  ((List.range (b - a).toNat).map fun k : Nat => f (a + k)).sum

def IsLeap (y : Int) : Prop := 4 ∣ y ∧ (¬ 100 ∣ y ∨ 400 ∣ y)

instance (y : Int) : Decidable (IsLeap y) := inferInstanceAs (Decidable (_ ∧ _))

def monthLength (y m : Int) : Int :=
  if m = 2 then (if IsLeap y then 29 else 28)
  else if m = 4 ∨ m = 6 ∨ m = 9 ∨ m = 11 then 30
  else 31

theorem monthLength_pos (y m : Int) : 1 ≤ monthLength y m := by
  unfold monthLength
  split_ifs <;> decide

def daysBeforeMonth (y m : Int) : Int := total (monthLength y) 1 m

def yearLength (y : Int) : Int := daysBeforeMonth y 13

def daysOfYears (a b : Int) : Int :=
  total yearLength a b - total yearLength b a

@[ext]
structure Date where
  year : Int
  month : Int
  day : Int
  month_mem : 1 ≤ month ∧ month ≤ 12
  day_mem : 1 ≤ day ∧ day ≤ monthLength year month
  deriving DecidableEq

def epoch : Date := ⟨1970, 1, 1, by decide, by decide⟩

namespace Date

/-- The number of a day, counted from the epoch. -/
def number (d : Date) : Int :=
  daysOfYears 1970 d.year + daysBeforeMonth d.year d.month + (d.day - 1)

def next (d : Date) : Date :=
  if h : d.day < monthLength d.year d.month then
    ⟨d.year, d.month, d.day + 1, d.month_mem, by have := d.day_mem; omega⟩
  else if h : d.month < 12 then
    ⟨d.year, d.month + 1, 1, by have := d.month_mem; omega, le_rfl, monthLength_pos _ _⟩
  else ⟨d.year + 1, 1, 1, by decide, le_rfl, monthLength_pos _ _⟩

end Date

/-! ## Counting -/

theorem total_of_le {f : Int → Int} {a b : Int} (hle : b ≤ a) : total f a b = 0 := by
  unfold total
  rw [Int.toNat_of_nonpos (by omega)]
  rfl

theorem total_succ {f : Int → Int} {a b : Int} (hle : a ≤ b) :
    total f a (b + 1) = total f a b + f b := by
  have hmore : (b + 1 - a).toNat = (b - a).toNat + 1 := by omega
  have hlast : a + ((b - a).toNat : Int) = b := by omega
  unfold total
  rw [hmore, List.range_succ, List.map_append, List.sum_append, List.map_singleton,
    List.sum_singleton, hlast]

theorem total_first {f : Int → Int} {a b : Int} (hlt : a < b) :
    total f a b = f a + total f (a + 1) b := by
  have hmore : (b - a).toNat = (b - (a + 1)).toNat + 1 := by omega
  have hshift : ∀ k : Nat, a + ((k + 1 : Nat) : Int) = a + 1 + k := by
    intro k
    omega
  unfold total
  rw [hmore, List.range_succ_eq_map, List.map_cons, List.sum_cons, List.map_map]
  simp only [Function.comp_def, Nat.succ_eq_add_one, hshift, Int.natCast_zero, Int.add_zero]

theorem daysBeforeMonth_succ {y m : Int} (hm : 1 ≤ m) :
    daysBeforeMonth y (m + 1) = daysBeforeMonth y m + monthLength y m := total_succ hm

theorem daysOfYears_succ (a b : Int) :
    daysOfYears a (b + 1) = daysOfYears a b + yearLength b := by
  unfold daysOfYears
  rcases le_or_gt a b with hle | hlt
  · rw [total_succ hle, total_of_le hle, total_of_le (a := b + 1) (by omega)]
    omega
  · rw [total_first hlt, total_of_le (a := a) hlt.le, total_of_le (a := a) hlt]
    omega

/-- The months of a year in closed form. -/
theorem daysBeforeMonth_eq (y : Int) {m : Int} (hm : 1 ≤ m ∧ m ≤ 13) :
    daysBeforeMonth y m =
      (367 * m - 362) / 12 - if m ≤ 2 then 0 else if IsLeap y then 1 else 2 := by
  obtain ⟨hone, hlast⟩ := hm
  induction m, hone using Int.leInduction with
  | base => rfl
  | succ m hone ih =>
      have hm : m ≤ 12 := by omega
      rw [daysBeforeMonth_succ hone, ih (by omega)]
      unfold monthLength
      by_cases hleap : IsLeap y
      · simp only [hleap, if_true]
        interval_cases m <;> decide
      · simp only [hleap, if_false]
        interval_cases m <;> decide

theorem yearLength_eq (y : Int) : yearLength y = if IsLeap y then 366 else 365 := by
  unfold yearLength
  rw [daysBeforeMonth_eq y (by decide), if_neg (by decide)]
  split_ifs
  · rfl
  · rfl

def leapDays (y : Int) : Int := (y - 1) / 4 - (y - 1) / 100 + (y - 1) / 400

theorem leapDays_succ (y : Int) : leapDays (y + 1) = leapDays y + if IsLeap y then 1 else 0 := by
  unfold leapDays IsLeap
  split_ifs with h
  · omega
  · omega

theorem daysOfYears_eq (a b : Int) :
    daysOfYears a b = 365 * (b - a) + (leapDays b - leapDays a) := by
  refine Int.inductionOn' b a ?_ ?_ ?_
  · unfold daysOfYears
    omega
  · intro b _ ih
    rw [daysOfYears_succ, ih, leapDays_succ, yearLength_eq]
    split_ifs
    · omega
    · omega
  · intro b _ ih
    have hsucc := daysOfYears_succ a (b - 1)
    have hleap := leapDays_succ (b - 1)
    rw [Int.sub_add_cancel] at hsucc hleap
    rw [yearLength_eq] at hsucc
    split_ifs at hsucc hleap
    · omega
    · omega

namespace Date

@[simp] theorem number_epoch : epoch.number = 0 := by
  unfold number epoch
  rw [daysOfYears_eq, daysBeforeMonth_eq 1970 (by decide)]
  decide

@[simp] theorem number_next (d : Date) : d.next.number = d.number + 1 := by
  obtain ⟨hmonth, hmonth'⟩ := d.month_mem
  obtain ⟨hday, hday'⟩ := d.day_mem
  unfold next number
  split_ifs with hlast hyear
  · dsimp only
    omega
  · have hcount := daysBeforeMonth_succ (y := d.year) hmonth
    dsimp only
    omega
  · have hdec : d.month = 12 := by omega
    have hcount := daysBeforeMonth_succ (y := d.year) hmonth
    have hfirst : daysBeforeMonth (d.year + 1) 1 = 0 := rfl
    rw [hdec] at hcount hlast hday'
    dsimp only
    rw [daysOfYears_succ, hfirst, hdec]
    unfold yearLength
    norm_num at hcount
    omega

theorem number_iterate_next (d : Date) (n : Nat) : (next^[n] d).number = d.number + n := by
  induction n with
  | zero => simp
  | succ n ih =>
      rw [Function.iterate_succ_apply', number_next, ih]
      omega

end Date

/-! ## The number determines the date -/

theorem daysBeforeMonth_mono {y m m' : Int} (hm : 1 ≤ m) (hle : m ≤ m') :
    daysBeforeMonth y m ≤ daysBeforeMonth y m' := by
  induction m', hle using Int.leInduction with
  | base => exact le_rfl
  | succ m' hle ih =>
      have hlength := monthLength_pos y m'
      rw [daysBeforeMonth_succ (by omega)]
      omega

theorem daysOfYears_mono {a b b' : Int} (hle : b ≤ b') : daysOfYears a b ≤ daysOfYears a b' := by
  induction b', hle using Int.leInduction with
  | base => exact le_rfl
  | succ b' hle ih =>
      have hlength : 0 ≤ yearLength b' := by
        rw [yearLength_eq]
        split_ifs <;> decide
      rw [daysOfYears_succ]
      omega

namespace Date

theorem day_bounds (d : Date) {m : Int} (hm : d.month < m) :
    daysBeforeMonth d.year d.month + d.day ≤ daysBeforeMonth d.year m := by
  have hmonth := d.month_mem
  have hday := d.day_mem
  calc daysBeforeMonth d.year d.month + d.day
      ≤ daysBeforeMonth d.year d.month + monthLength d.year d.month := by omega
    _ = daysBeforeMonth d.year (d.month + 1) := (daysBeforeMonth_succ hmonth.1).symm
    _ ≤ daysBeforeMonth d.year m := daysBeforeMonth_mono (by omega) hm

theorem number_bounds (d : Date) {y : Int} (hy : d.year < y) :
    daysOfYears 1970 d.year ≤ d.number ∧ d.number < daysOfYears 1970 y := by
  have hmonth := d.month_mem
  have hday := d.day_mem
  have hfirst : 0 ≤ daysBeforeMonth d.year d.month := daysBeforeMonth_mono le_rfl hmonth.1
  have hlast : daysBeforeMonth d.year d.month + d.day ≤ yearLength d.year :=
    d.day_bounds (by omega)
  have hyears : daysOfYears 1970 (d.year + 1) ≤ daysOfYears 1970 y := daysOfYears_mono hy
  rw [daysOfYears_succ] at hyears
  unfold number
  constructor
  · omega
  · omega

theorem year_le_of_number_eq {d d' : Date} (h : d.number = d'.number) : d.year ≤ d'.year := by
  by_contra hlt
  have hbefore := (d'.number_bounds (not_le.mp hlt)).2
  have hafter := (d.number_bounds (lt_add_one d.year)).1
  omega

theorem month_le_of_number_eq {d d' : Date} (h : d.number = d'.number) (hyear : d.year = d'.year) :
    d.month ≤ d'.month := by
  by_contra hlt
  have hbefore := d'.day_bounds (not_le.mp hlt)
  have hday := d.day_mem
  unfold number at h
  rw [hyear] at h
  omega

theorem number_injective : Function.Injective number := by
  intro d d' h
  have hyear := le_antisymm (year_le_of_number_eq h) (year_le_of_number_eq h.symm)
  have hmonth := le_antisymm (month_le_of_number_eq h hyear)
    (month_le_of_number_eq h.symm hyear.symm)
  apply Date.ext hyear hmonth
  unfold number at h
  rw [hyear, hmonth] at h
  omega

/-- A day that many days after the epoch is reached from it by as many steps. -/
theorem eq_iterate_next {d : Date} {n : Nat} (h : d.number = n) : d = next^[n] epoch := by
  apply number_injective
  rw [number_iterate_next, number_epoch, h]
  omega

end Date

/-! ## Seconds -/

/-- A valid date-time. -/
@[ext]
structure DateTime where
  date : Date
  hour : Int
  minute : Int
  second : Int
  hour_mem : 0 ≤ hour ∧ hour < 24
  minute_mem : 0 ≤ minute ∧ minute < 60
  second_mem : 0 ≤ second ∧ second < 60

def DateTime.seconds (t : DateTime) : Int :=
  t.date.number * 86400 + t.hour * 3600 + t.minute * 60 + t.second

end FeedBench.Lib.Calendar
