/-
Dates and times of TOML documents, and their text.
-/

namespace StyleTrack.Toml

/-! ## Parts -/

/-- A day of a calendar. -/
structure Date where
  year : Nat
  month : Nat
  day : Nat
deriving DecidableEq, Repr

/-- A time of a day. -/
structure Time where
  hour : Nat
  minute : Nat
  second : Nat
  nanosecond : Nat
deriving DecidableEq, Repr

/-- The distance of a clock from universal time. -/
inductive Offset where
  | utc
  | minutes (n : Int)
deriving DecidableEq, Repr

/-- A date, a time, or both with an optional offset. -/
inductive Datetime where
  | date (d : Date)
  | time (t : Time)
  | both (d : Date) (t : Time) (offset : Option Offset)
deriving DecidableEq, Repr

/-! ## Text -/

/-- A number with zeros in front, up to a width. -/
def padded (width n : Nat) : String :=
  let digits := toString n
  String.ofList (List.replicate (width - digits.length) '0') ++ digits

/-- The year, the month and the day, with dashes. -/
def Date.text (d : Date) : String := s!"{padded 4 d.year}-{padded 2 d.month}-{padded 2 d.day}"

/-- The digits of a fraction of nanoseconds, without zeros at the end. -/
def fractionDigits (nanosecond : Nat) : String :=
  String.ofList ((padded 9 nanosecond).toList.reverse.dropWhile (· = '0')).reverse

/-- The hour, the minute and the second, with colons, and a fraction if there is one. -/
def Time.text (t : Time) : String :=
  let whole := s!"{padded 2 t.hour}:{padded 2 t.minute}:{padded 2 t.second}"
  if t.nanosecond = 0 then whole else s!"{whole}.{fractionDigits t.nanosecond}"

/-- `Z`, or the sign, the hours and the minutes. -/
def Offset.text : Offset → String
  | utc => "Z"
  | minutes n =>
    let sign := if n < 0 then "-" else "+"
    s!"{sign}{padded 2 (n.natAbs / 60)}:{padded 2 (n.natAbs % 60)}"

/-- The text of a date or time; `T` stands between the two. -/
def Datetime.text : Datetime → String
  | date d => d.text
  | time t => t.text
  | both d t none => s!"{d.text}T{t.text}"
  | both d t (some offset) => s!"{d.text}T{t.text}{offset.text}"

end StyleTrack.Toml
