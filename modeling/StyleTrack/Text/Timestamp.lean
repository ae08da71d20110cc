/-
Time stamps in the manner of RFC 3339, read with some leeway: blanks may stand in front of numbers and
separators, the offset may be written `UTC`, and its hours and minutes may be set apart by colons and
blanks. Only whether a text is a time stamp matters here.
-/
import StyleTrack.Calendar
import StyleTrack.Text.Blank
import StyleTrack.Text.Digits

namespace StyleTrack.Text.Timestamp

/-! ## Parts -/

/-- Blanks, as many as there are. -/
def skip : Parser Unit := fun text => some ((), text.dropWhile isBlank)

/-- A number of one digit up to `most` digits. -/
def number (most : Nat) : Parser Nat := fun text =>
  let digits := (text.take most).takeWhile Char.isDigit
  if digits = [] then none else some (numberOf 10 0 digits, text.drop digits.length)

/-- A number between two bounds, after blanks. -/
def part (least greatest : Nat) : Parser Nat := do
  skip
  let n ← number 2
  if least ≤ n ∧ n ≤ greatest then return n else Parser.fail

/-- A year, after blanks. With a sign it may have any number of digits. -/
def year : Parser Int := do
  skip
  let y : Int ← fun text =>
    match text with
    | '-' :: rest => (number rest.length rest).map fun (n, rest) => (-(n : Int), rest)
    | '+' :: rest => (number rest.length rest).map fun (n, rest) => ((n : Int), rest)
    | _ => (number 4 text).map fun (n, rest) => ((n : Int), rest)
  if Calendar.firstDay.year ≤ y ∧ y ≤ Calendar.lastDay.year then return y else Parser.fail

/-- A separator, after blanks. -/
def separator (c : Char) : Parser Unit := do
  skip
  let _ ← Parser.char c

/-! ## Dates, times and offsets -/

/-- A day that the calendar has. -/
def date : Parser Calendar.Day := do
  let y ← year
  separator '-'
  let month ← part 1 12
  separator '-'
  let day ← part 1 31
  if day ≤ Calendar.daysInMonth y month then return ⟨y, month, day⟩ else Parser.fail

/-- A time of a day in seconds, with an optional fraction, which is left out. A minute may have a leap
second, which counts as the second before it. -/
def time : Parser Nat := do
  let hour ← part 0 23
  separator ':'
  let minute ← part 0 59
  separator ':'
  let second ← part 0 60
  let _ ← Parser.optional do
    let _ ← Parser.char '.'
    let _ ← Parser.satisfy Char.isDigit
    let _ ← Parser.takeWhile Char.isDigit
    return ()
  skip
  return hour * 3600 + minute * 60 + min second 59

/-- The name of universal time, in letters of either case. -/
def universal : Parser Unit := fun text =>
  if (text.take 3).map Char.toLower = ['u', 't', 'c'] then some ((), text.drop 3) else none

/-- An offset of less than a day, in seconds. -/
def offset : Parser Int :=
  Parser.or
    (do
      universal
      return 0)
    (Parser.or
      (do
        let _ ← Parser.satisfy fun c => c = 'Z' || c = 'z'
        return 0)
      (do
        let mark ← Parser.satisfy fun c => c = '+' || c = '-' || c = '−'
        let hour ← Parser.fixed 2 0 23
        let _ ← Parser.takeWhile fun c => c = ':' || isBlank c
        let minute ← Parser.fixed 2 0 59
        let n : Int := hour * 3600 + minute * 60
        return if mark = '+' then n else -n))

/-- A time stamp with nothing but blanks after it. In universal time too it must be on a day that the
calendar has. -/
def stamp : Parser Unit := do
  let day ← date
  let _ ← Parser.satisfy fun c => c = 'T' || c = 't' || c = ' '
  let second ← time
  let ahead ← offset
  skip
  Parser.eof
  if Calendar.reaches day (second - ahead) then return () else Parser.fail

/-- Whether a text is a time stamp. -/
def isStamp (text : List Char) : Bool := (stamp text).isSome

end StyleTrack.Text.Timestamp
