/-
The days of the calendar. Years before the year one are counted down through zero.
-/

namespace StyleTrack.Calendar

/-! ## Lengths -/

/-- Whether a year has a 29th of February. -/
def isLeapYear (year : Int) : Bool := year % 4 = 0 && (year % 100 ≠ 0 || year % 400 = 0)

/-- The number of days of a month. -/
def daysInMonth (year : Int) (month : Nat) : Nat :=
  if month = 2 then if isLeapYear year then 29 else 28
  else if month = 4 ∨ month = 6 ∨ month = 9 ∨ month = 11 then 30
  else 31

/-- The number of seconds of a day. -/
def secondsInDay : Nat := 86400

/-! ## Days -/

/-- A day. -/
structure Day where
  year : Int
  month : Nat
  day : Nat
deriving DecidableEq, Repr

/-- The first day of the calendar. -/
def firstDay : Day := ⟨-262143, 1, 1⟩

/-- The last day of the calendar. -/
def lastDay : Day := ⟨262142, 12, 31⟩

/-- Whether the calendar has the day that lies so many seconds after the start of a day, which may be
up to a day too many or too few. -/
def reaches (d : Day) (seconds : Int) : Bool :=
  !(seconds < 0 && d = firstDay) && !(secondsInDay ≤ seconds && d = lastDay)

end StyleTrack.Calendar
