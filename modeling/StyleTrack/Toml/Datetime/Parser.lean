/-
Reading dates and times.

The clock runs to 23:59:60, so that a minute may have a leap second, and an offset is less than a day.
-/
import StyleTrack.Calendar
import StyleTrack.Text.Digits
import StyleTrack.Toml.Datetime

namespace StyleTrack.Toml

open StyleTrack.Text (Parser numberOf)

/-! ## Parts -/

/-- A day that the calendar has. -/
def date : Parser Date := do
  let year ← Parser.fixed 4 0 9999
  let _ ← Parser.char '-'
  let month ← Parser.fixed 2 1 12
  let _ ← Parser.char '-'
  let day ← Parser.fixed 2 1 31
  if day ≤ Calendar.daysInMonth year month then return ⟨year, month, day⟩ else Parser.fail

/-- The nanoseconds that digits after a point write; digits after the ninth are left out. -/
def nanosecondsOf (fraction : List Char) : Nat :=
  let shown := fraction.take 9
  numberOf 10 0 (shown ++ List.replicate (9 - shown.length) '0')

/-- A fraction of a second. -/
def secondFraction : Parser Nat := do
  let _ ← Parser.char '.'
  let first ← Parser.satisfy Char.isDigit
  let others ← Parser.takeWhile Char.isDigit
  return nanosecondsOf (first :: others)

/-- A time of a day; a minute may have a leap second. -/
def time : Parser Time := do
  let hour ← Parser.fixed 2 0 23
  let _ ← Parser.char ':'
  let minute ← Parser.fixed 2 0 59
  let _ ← Parser.char ':'
  let second ← Parser.fixed 2 0 60
  let nanosecond ← Parser.optional secondFraction
  return ⟨hour, minute, second, nanosecond.getD 0⟩

/-- `Z`, or a sign, hours and minutes. -/
def offset : Parser Offset :=
  Parser.or
    (do
      let _ ← Parser.satisfy fun c => c = 'Z' || c = 'z'
      return .utc)
    (do
      let mark ← Parser.satisfy fun c => c = '+' || c = '-'
      let hour ← Parser.fixed 2 0 23
      let _ ← Parser.char ':'
      let minute ← Parser.fixed 2 0 59
      let n : Int := hour * 60 + minute
      return .minutes (if mark = '-' then -n else n))

/-- The time after a date, with an optional offset. -/
def timeOfDate : Parser (Time × Option Offset) := do
  let _ ← Parser.satisfy fun c => c = 'T' || c = 't' || c = ' '
  let t ← time
  return (t, ← Parser.optional offset)

/-! ## Whole dates and times -/

/-- A date, a time, or both. -/
def datetime : Parser Datetime :=
  Parser.or
    (do
      let d ← date
      match ← Parser.optional timeOfDate with
      | none => return .date d
      | some (t, o) => return .both d t o)
    (do return .time (← time))

/-- A date, a time, or both, with nothing after it. -/
def loneDatetime : Parser Datetime := do
  let d ← datetime
  Parser.eof
  return d

/-- The date or time that a text on its own writes. -/
def Datetime.ofText? (text : List Char) : Option Datetime := (loneDatetime text).map (·.1)

end StyleTrack.Toml
