import Mathlib.Algebra.BigOperators.Intervals
import Mathlib.Algebra.Order.BigOperators.Group.Finset
import Mathlib.Data.Prod.Lex
import Mathlib.Tactic.Ring

/-!
# The Gregorian calendar

Dates with a time of day in the Gregorian calendar, for years before and after its beginning, and
the number of seconds since the year 0.  Dates lie in time as their fields do, the year first.
-/

namespace MillenniumDB
namespace Calendar

def IsLeapYear (year : Int) : Prop := year % 4 = 0 ∧ (year % 100 ≠ 0 ∨ year % 400 = 0)

instance (year : Int) : Decidable (IsLeapYear year) :=
  inferInstanceAs (Decidable (year % 4 = 0 ∧ (year % 100 ≠ 0 ∨ year % 400 = 0)))

def daysInMonth (year : Int) (month : Nat) : Nat :=
  if month = 2 then if IsLeapYear year then 29 else 28
  else if month = 4 ∨ month = 6 ∨ month = 9 ∨ month = 11 then 30
  else 31

def daysBeforeYear (year : Int) : Int :=
  365 * year + (year + 3) / 4 - (year + 99) / 100 + (year + 399) / 400

def daysBeforeMonth (year : Int) (month : Nat) : Nat :=
  ∑ m ∈ Finset.Ico 1 month, daysInMonth year m

structure Civil where
  year : Int
  month : Nat
  day : Nat
  hour : Nat
  minute : Nat
  second : Nat

namespace Civil

structure Valid (c : Civil) : Prop where
  month_pos : 1 ≤ c.month
  month_le : c.month ≤ 12
  day_pos : 1 ≤ c.day
  day_le : c.day ≤ daysInMonth c.year c.month
  hour : c.hour < 24
  minute : c.minute < 60
  second : c.second < 60

def days (c : Civil) : Int := daysBeforeYear c.year + daysBeforeMonth c.year c.month + (c.day - 1)

def seconds (c : Civil) : Int := ((c.days * 24 + c.hour) * 60 + c.minute) * 60 + c.second

def key (c : Civil) : Int ×ₗ Nat ×ₗ Nat ×ₗ Nat ×ₗ Nat ×ₗ Nat :=
  toLex (c.year, toLex (c.month, toLex (c.day, toLex (c.hour, toLex (c.minute, c.second)))))

end Civil

section

variable {year year' : Int} {month month' : Nat} {a b : Civil}

theorem daysBeforeYear_succ (year : Int) :
    daysBeforeYear (year + 1) = daysBeforeYear year + if IsLeapYear year then 366 else 365 := by
  unfold daysBeforeYear IsLeapYear
  split_ifs
  all_goals omega

theorem daysBeforeYear_le (h : year ≤ year') : daysBeforeYear year ≤ daysBeforeYear year' := by
  apply monotone_int_of_le_succ _ h
  intro year
  rw [daysBeforeYear_succ]
  split_ifs
  all_goals omega

theorem daysBeforeMonth_succ (year : Int) (h : 1 ≤ month) :
    daysBeforeMonth year (month + 1) = daysBeforeMonth year month + daysInMonth year month :=
  Finset.sum_Ico_succ_top h _

theorem daysBeforeMonth_mono (year : Int) : Monotone (daysBeforeMonth year) := by
  intro month month' h
  exact Finset.sum_le_sum_of_subset (Finset.Ico_subset_Ico_right h)

theorem daysBeforeMonth_thirteen (year : Int) :
    daysBeforeMonth year 13 = if IsLeapYear year then 366 else 365 := by
  by_cases hleap : IsLeapYear year
  · simp only [daysBeforeMonth, daysInMonth, hleap, if_true]
    rfl
  · simp only [daysBeforeMonth, daysInMonth, hleap, if_false]
    rfl

namespace Civil

variable {c : Civil}

theorem days_lt_month (h : c.Valid) :
    c.days < daysBeforeYear c.year + daysBeforeMonth c.year (c.month + 1) := by
  have hday := h.day_le
  rw [daysBeforeMonth_succ _ h.month_pos]
  unfold days
  omega

theorem days_lt_year (h : c.Valid) : c.days < daysBeforeYear (c.year + 1) := by
  have hmonth := days_lt_month h
  have hyear := daysBeforeMonth_mono c.year (Nat.add_le_add_right h.month_le 1)
  rw [daysBeforeMonth_thirteen] at hyear
  rw [daysBeforeYear_succ]
  split_ifs at hyear ⊢
  all_goals omega

theorem days_lt_of_year (ha : a.Valid) (hb : b.Valid) (h : a.year < b.year) : a.days < b.days := by
  have hend := days_lt_year ha
  have hstart := daysBeforeYear_le (Int.add_one_le_of_lt h)
  have hday := hb.day_pos
  have hdays : b.days = daysBeforeYear b.year + daysBeforeMonth b.year b.month + (b.day - 1) := rfl
  omega

theorem days_lt_of_month (ha : a.Valid) (hb : b.Valid) (hyear : a.year = b.year)
    (h : a.month < b.month) : a.days < b.days := by
  have hend := days_lt_month ha
  have hstart := daysBeforeMonth_mono a.year (Nat.add_one_le_iff.mpr h)
  have hday := hb.day_pos
  have hdays : b.days = daysBeforeYear b.year + daysBeforeMonth b.year b.month + (b.day - 1) := rfl
  rw [← hyear] at hdays
  omega

theorem seconds_lt_of_days (ha : a.Valid) (h : a.days < b.days) : a.seconds < b.seconds := by
  have hhour := ha.hour
  have hminute := ha.minute
  have hsecond := ha.second
  unfold seconds
  omega

theorem seconds_lt_of_key (ha : a.Valid) (hb : b.Valid) (h : a.key < b.key) :
    a.seconds < b.seconds := by
  simp only [key, Prod.Lex.toLex_lt_toLex] at h
  rcases h with hyear | ⟨hyear, hmonth | ⟨hmonth, h⟩⟩
  · exact seconds_lt_of_days ha (days_lt_of_year ha hb hyear)
  · exact seconds_lt_of_days ha (days_lt_of_month ha hb hyear hmonth)
  · have hdays : a.days - a.day = b.days - b.day := by
      unfold days
      rw [hyear, hmonth]
      ring
    have hhour := ha.hour
    have hminute := ha.minute
    have hsecond := ha.second
    unfold seconds
    omega

theorem eq_of_key_eq (h : a.key = b.key) : a = b := by
  simp only [key, toLex_inj, Prod.mk.injEq] at h
  cases a
  cases b
  simpa only [Civil.mk.injEq] using h

theorem seconds_lt_iff (ha : a.Valid) (hb : b.Valid) : a.seconds < b.seconds ↔ a.key < b.key := by
  constructor
  · intro h
    rcases lt_trichotomy a.key b.key with hlt | heq | hgt
    · exact hlt
    · exact absurd h (by rw [eq_of_key_eq heq]; exact lt_irrefl _)
    · exact absurd (seconds_lt_of_key hb ha hgt) h.asymm
  · exact seconds_lt_of_key ha hb

end Civil

end

end Calendar
end MillenniumDB
