/-
Numbers of TOML documents.

Underscores may stand between digits. A number that starts with a zero has no further digits in front
of its point. Whole numbers have 64 bits with a sign. A fraction is the nearest double; one that is
too large is refused, and one that is too large below zero is minus infinity.
-/
import StyleTrack.Text.Digits
import StyleTrack.Toml.Value

namespace StyleTrack.Toml

open StyleTrack.Text (Parser numberOf)

/-! ## Digits -/

/-- Further digits of a number, with single underscores in front of some. -/
def moreDigits (isDigit : Char → Bool) : List Char → List Char × List Char
  | [] => ([], [])
  | '_' :: d :: rest =>
    if isDigit d then
      let (digits, rest) := moreDigits isDigit rest
      (d :: digits, rest)
    else ([], '_' :: d :: rest)
  | c :: rest =>
    if isDigit c then
      let (digits, rest) := moreDigits isDigit rest
      (c :: digits, rest)
    else ([], c :: rest)

/-- One digit or more. -/
def digits (isDigit : Char → Bool) : Parser (List Char) := do
  let first ← Parser.satisfy isDigit
  let others ← fun text => some (moreDigits isDigit text)
  return first :: others

/-- A sign, if there is one: whether it is a minus. -/
def sign : Parser Bool
  | '+' :: rest => some (false, rest)
  | '-' :: rest => some (true, rest)
  | text => some (false, text)

/-- The digits of a whole number: a zero alone, or digits that do not start with a zero. -/
def wholeDigits : Parser (List Char)
  | '0' :: rest => some (['0'], rest)
  | text => digits Char.isDigit text

/-! ## Whole numbers -/

/-- A whole number, if it has a place in 64 bits. -/
def inRange (n : Int) : Parser Value :=
  if -integerLimit ≤ n ∧ n < integerLimit then return .integer n else Parser.fail

/-- A whole number in digits of some base. -/
def based (base : Nat) (isDigit : Char → Bool) : Parser Value := do
  inRange (numberOf base 0 (← digits isDigit))

/-- Whether a character is a hexadecimal digit. -/
def isHexDigit (c : Char) : Bool := c.isDigit || ('a' ≤ c && c ≤ 'f') || ('A' ≤ c && c ≤ 'F')

/-- A whole number. -/
def integer : Parser Value
  | '0' :: 'x' :: rest => based 16 isHexDigit rest
  | '0' :: 'o' :: rest => based 8 (fun c => '0' ≤ c && c ≤ '7') rest
  | '0' :: 'b' :: rest => based 2 (fun c => c = '0' || c = '1') rest
  | text => (do
    let negative ← sign
    let n := numberOf 10 0 (← wholeDigits)
    inRange (if negative then -n else n) : Parser Value) text

/-! ## Fractions -/

/-- The double that is nearest to `mantissa · 10^exponent`. -/
def nearest (mantissa : Nat) (exponent : Int) : Float :=
  let magnitude := exponent + (toString mantissa).length
  if mantissa = 0 ∨ magnitude < -400 then 0
  else if 400 < magnitude then 1 / 0
  else Float.ofScientific mantissa (exponent < 0) exponent.natAbs

/-- The digits after a point. -/
def fractionPart : Parser (List Char) := do
  let _ ← Parser.char '.'
  digits Char.isDigit

/-- The power of ten after an `e`. -/
def exponentPart : Parser Int := do
  let _ ← Parser.satisfy fun c => c = 'e' || c = 'E'
  let negative ← sign
  let n : Int := numberOf 10 0 (← digits Char.isDigit)
  return if negative then -n else n

/-- A point with digits, a power of ten, or both. -/
def fractionAndExponent : Parser (List Char × Int) :=
  Parser.or
    (do
      let exponent ← exponentPart
      return ([], exponent))
    (do
      let fraction ← fractionPart
      let exponent ← Parser.optional exponentPart
      return (fraction, exponent.getD 0))

/-- A fraction in digits. -/
def decimal : Parser Value := do
  let negative ← sign
  let whole ← wholeDigits
  let (fraction, exponent) ← fractionAndExponent
  let x := nearest (numberOf 10 0 (whole ++ fraction)) (exponent - fraction.length)
  if x.isInf && !negative then Parser.fail
  else return .float (if negative then -x else x)

/-- Infinity or the value that is no number. -/
def special : Parser Value := do
  let negative ← sign
  let x ← Parser.or (do Parser.word ['i', 'n', 'f']; return (1 / 0 : Float))
    (do Parser.word ['n', 'a', 'n']; return (0 / 0 : Float))
  return .float (if negative then -x else x)

/-- A fraction. -/
def float : Parser Value := Parser.or decimal special

end StyleTrack.Toml
