/-
Occurrences of a keyword in comment-free text, outside strings and unquoted `url(…)` bodies.
-/
import StyleTrack.Source.Lexeme

namespace StyleTrack.Source

/-- A keyword and the characters that may stand in front of it. -/
structure Keyword where
  /-- The word, in lower case. -/
  word : List Char
  /-- Whether the keyword may follow a character. -/
  follows : Char → Bool

/-- Where a keyword occurs. -/
structure Occurrence where
  /-- The line of the keyword's first character, counted from one. -/
  line : Nat
  /-- The text after the keyword. -/
  rest : List Char
deriving DecidableEq, Repr

namespace Keyword

/-- Recognises strings, the keyword in letters of either case, and unquoted `url(…)` bodies. -/
def step (k : Keyword) : Step := fun before c rest =>
  if isQuote c then (.quoted, quotedLength c rest)
  else if startsWord k.word (c :: rest) && before.all k.follows then (.keyword, k.word.length - 1)
  else urlStep before c rest

/-- The occurrences among the lexemes of a text that starts on `line`. -/
def occurrences (line : Nat) (text : List Char) : List Lexeme → List Occurrence
  | [] => []
  | l :: rest =>
    let after := text.drop l.text.length
    let later := occurrences (line + l.text.count '\n') after rest
    if l.kind = .keyword then ⟨line, after⟩ :: later else later

/-- The occurrences of the keyword in a text, in order. -/
def find (k : Keyword) (text : List Char) : List Occurrence := occurrences 1 text (segment k.step none text)

end Keyword

end StyleTrack.Source
