namespace BoundedPlanning

def isLeapYear (year : Int) : Bool :=
  decide (year % 4 = 0) && (!decide (year % 100 = 0) || decide (year % 400 = 0))

/-- How many days a month has; there are none outside the months 1 to 12. -/
def daysInMonth (year : Int) (month : Nat) : Nat :=
  if month = 0 ∨ 12 < month then 0
  else if month = 2 then if isLeapYear year then 29 else 28
  else if month = 4 ∨ month = 6 ∨ month = 9 ∨ month = 11 then 30
  else 31

/-- A day of the calendar. -/
structure Date where
  year : Int
  month : Nat
  day : Nat
  day_pos : 1 ≤ day
  day_le : day ≤ daysInMonth year month
  deriving DecidableEq

namespace Date

/-- The day with the given numbers, if it exists. -/
def ofNumbers? (year : Int) (month day : Nat) : Option Date :=
  if h : 1 ≤ day ∧ day ≤ daysInMonth year month then some ⟨year, month, day, h.1, h.2⟩ else none

theorem one_le_daysInMonth {year : Int} {month : Nat} (h : 1 ≤ month) (h' : month ≤ 12) :
    1 ≤ daysInMonth year month := by
  rw [daysInMonth, if_neg (by omega)]
  repeat' split
  all_goals omega

theorem month_bounds (date : Date) : 1 ≤ date.month ∧ date.month ≤ 12 := by
  have h := Nat.le_trans date.day_pos date.day_le
  by_cases hm : date.month = 0 ∨ 12 < date.month
  · rw [daysInMonth, if_pos hm] at h; omega
  · omega

def next (date : Date) : Date :=
  if h : date.day + 1 ≤ daysInMonth date.year date.month then
    ⟨date.year, date.month, date.day + 1, by omega, h⟩
  else if hm : date.month + 1 ≤ 12 then
    ⟨date.year, date.month + 1, 1, by omega, one_le_daysInMonth (by omega) hm⟩
  else ⟨date.year + 1, 1, 1, by omega, one_le_daysInMonth (by omega) (by omega)⟩

def previous (date : Date) : Date :=
  if h : 1 < date.day then
    ⟨date.year, date.month, date.day - 1, by omega, by have := date.day_le; omega⟩
  else if hm : 1 < date.month then
    have hle : 1 ≤ daysInMonth date.year (date.month - 1) :=
      one_le_daysInMonth (by omega) (by have := date.month_bounds; omega)
    ⟨date.year, date.month - 1, daysInMonth date.year (date.month - 1), hle, Nat.le_refl _⟩
  else
    ⟨date.year - 1, 12, daysInMonth (date.year - 1) 12,
      one_le_daysInMonth (by omega) (by omega), Nat.le_refl _⟩

end Date

end BoundedPlanning
