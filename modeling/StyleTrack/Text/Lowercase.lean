/-
Lower case for all of Unicode, version 17.

A capital becomes the one letter that its alphabet pairs it with. Two characters need more: `İ`
becomes two characters, and a capital sigma becomes `ς` at the end of a word and `σ` elsewhere.
-/
import StyleTrack.Text.Lowercase.Capital
import StyleTrack.Text.Lowercase.Cased

namespace StyleTrack.Text

/-- Whether the nearest character that interrupts a word is a letter with a case. -/
def meetsLetter (text : List Char) : Bool := (text.dropWhile isCaseIgnorable).head?.any isCased

/-- The lower case of a capital sigma, given the text before it, read backwards, and the text after it. -/
def lowerSigma (before after : List Char) : Char :=
  if meetsLetter before && !meetsLetter after then 'ς' else 'σ'

/-- The lower case of a character that does not depend on its neighbours. -/
def lowerChar (c : Char) : List Char :=
  if c = 'İ' then ['i', '\u0307']
  else match CapitalRun.all.find? fun r => r.contains c.toNat with
    | some r => [Char.ofNat (c.toNat + r.offset).toNat]
    | none => [c]

/-- The lower case of a text that follows the characters `before`, which are read backwards. -/
def lowerFrom (before : List Char) : List Char → List Char
  | [] => []
  | 'Σ' :: rest => lowerSigma before rest :: lowerFrom ('Σ' :: before) rest
  | c :: rest => lowerChar c ++ lowerFrom (c :: before) rest

/-- The lower case of a text. -/
def toLowercase (text : List Char) : List Char := lowerFrom [] text

end StyleTrack.Text
