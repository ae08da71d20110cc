/-
What stands between the parts of a TOML document: blanks, line ends and comments.
-/
import StyleTrack.Text.Parser

namespace StyleTrack.Toml

open StyleTrack.Text (Parser)

/-- Whether a character is a blank inside a line. -/
def isLineBlank (c : Char) : Bool := c = ' ' || c = '\t'

/-- Whether a character may stand in a comment. -/
def isCommentChar (c : Char) : Bool := c = '\t' || (' ' ≤ c && c ≠ '\x7f')

/-- Blanks inside a line. -/
def blanks : Parser Unit := fun text => some ((), text.dropWhile isLineBlank)

/-- A line end, with or without a carriage return. -/
def newline : Parser Unit
  | '\n' :: rest => some ((), rest)
  | '\r' :: '\n' :: rest => some ((), rest)
  | _ => none

/-- A comment up to the end of its line. -/
def comment : Parser Unit := do
  let _ ← Parser.char '#'
  let _ ← Parser.takeWhile isCommentChar

/-- The end of a line or of the text. -/
def lineEnd : Parser Unit := Parser.or newline Parser.eof

/-- What may follow the last part of a line. -/
def lineTrailing : Parser Unit := do
  blanks
  let _ ← Parser.optional comment
  lineEnd

/-- Blanks, comments and line ends, as many as there are. -/
def filling : Parser Unit := do
  let _ ← Parser.many
    (Parser.or newline (Parser.or comment do let _ ← Parser.satisfy isLineBlank))

end StyleTrack.Toml
