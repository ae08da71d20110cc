/-
Numbers in digits.
-/
import StyleTrack.Text.Parser

namespace StyleTrack.Text

/-- The number that digits of a base write, after the digits of `value`. -/
def numberOf (base value : Nat) : List Char → Nat
  | [] => value
  | c :: rest =>
    let d := if c.isDigit then c.toNat - '0'.toNat else c.toLower.toNat - 'a'.toNat + 10
    numberOf base (value * base + d) rest

/-- A number of exactly `count` decimal digits between two bounds. -/
def Parser.fixed (count least greatest : Nat) : Parser Nat := do
  let n := numberOf 10 0 (← Parser.times (Parser.satisfy Char.isDigit) count)
  if least ≤ n ∧ n ≤ greatest then return n else Parser.fail

end StyleTrack.Text
