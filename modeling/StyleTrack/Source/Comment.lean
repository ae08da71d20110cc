/-
Comments: `/* … */` and `//` to the end of the line. A stripped text has a space for every byte of a
comment and keeps the line feeds inside, so its length in bytes and its lines are those of the text.
-/
import StyleTrack.Source.Lexeme

namespace StyleTrack.Source

/-- How many characters a block comment takes after its opening, its `*/` included. -/
def blockLength : List Char → Nat
  | [] => 0
  | '*' :: '/' :: _ => 2
  | _ :: rest => blockLength rest + 1

/-- Recognises strings, comments and unquoted `url(…)` bodies. -/
def commentStep : Step := fun before c rest =>
  if isQuote c then (.quoted, quotedLength c rest)
  else if c = '/' && rest.head? = some '*' then (.comment, blockLength (rest.drop 1) + 1)
  else if c = '/' && rest.head? = some '/' then (.comment, (rest.takeWhile (· ≠ '\n')).length)
  else urlStep before c rest

/-- What a character of a comment leaves behind. -/
def blanked (c : Char) : List Char := if c = '\n' then ['\n'] else List.replicate c.utf8Size ' '

/-- What a lexeme leaves behind when comments are stripped. -/
def Lexeme.stripped (l : Lexeme) : List Char :=
  if l.kind = .comment then l.text.flatMap blanked else l.text

/-- The text with its comments blanked out. -/
def stripComments (text : List Char) : List Char :=
  (segment commentStep none text).flatMap Lexeme.stripped

end StyleTrack.Source
