/-
Just enough lexing to find directives and calls in stylesheet text.

A text is cut into lexemes: quoted strings and unquoted `url(…)` bodies are opaque, and what else is
recognised depends on the step that does the cutting. A lexeme always takes at least one character
and the lexemes of a text, written one after the other, are the text again. Every character that
decides anything is ASCII.
-/
import StyleTrack.Text.Blank

namespace StyleTrack.Source

open StyleTrack.Text

/-! ## Characters and words -/

/-- Whether a character may stand inside an identifier. -/
def isIdent (c : Char) : Bool := c.isAlphanum || c = '-' || c = '_'

/-- Whether a character opens a quoted string. -/
def isQuote (c : Char) : Bool := c = '"' || c = '\''

/-- Whether a text starts with a lower-case word, letters of either case standing for it. -/
def startsWord : (word text : List Char) → Bool
  | [], _ => true
  | w :: ws, c :: cs => c.toLower = w && startsWord ws cs
  | _ :: _, [] => false

/-! ## Opaque parts -/

/-- How many characters after an opening quote belong to the string, its closing quote included.
A backslash takes the next character with it; a string that is not closed takes all there is. -/
def quotedLength (quote : Char) : List Char → Nat
  | [] => 0
  | '\\' :: _ :: rest => quotedLength quote rest + 2
  | c :: rest => if c = quote then 1 else quotedLength quote rest + 1

/-- Whether `url(` stands at the start of a text as a token of its own, where `before` is the
character in front of it. -/
def opensUrl (before : Option Char) (text : List Char) : Bool :=
  startsWord ['u', 'r', 'l', '('] text && !before.any isIdent

/-- How many characters there are up to the first closing parenthesis, which is included, or to the
end of the text. -/
def closeLength : List Char → Nat
  | [] => 0
  | c :: rest => if c = ')' then 1 else closeLength rest + 1

/-- How many characters after `url(` belong to an unquoted body, its closing parenthesis included;
`none` if the body is quoted. -/
def rawUrlLength? (text : List Char) : Option Nat :=
  if (skipBlanks text).head?.any isQuote then none else some (closeLength text)

/-! ## Lexemes -/

/-- What a lexeme is. -/
inductive Kind where
  /-- A quoted string. -/
  | quoted
  /-- `url(` with an unquoted body. -/
  | url
  /-- A comment. -/
  | comment
  /-- An occurrence of the word that is looked for. -/
  | keyword
  /-- Anything else. -/
  | plain
deriving DecidableEq, Repr

/-- A piece of text and what it is. -/
structure Lexeme where
  kind : Kind
  text : List Char
deriving DecidableEq, Repr

/-- Tells, from the character before, the character at a position and the text after it, what lexeme
starts there and how many characters it takes after its first. -/
abbrev Step := Option Char → Char → List Char → Kind × Nat

/-- Cuts a text that follows the character `before` into lexemes. -/
def segment (step : Step) (before : Option Char) : List Char → List Lexeme
  | [] => []
  | c :: rest =>
    let found := step before c rest
    let text := c :: rest.take found.2
    ⟨found.1, text⟩ :: segment step text.getLast? (rest.drop found.2)
termination_by text => text.length
decreasing_by simp only [List.length_drop, List.length_cons]; omega

/-- The text that lexemes make up. -/
def written (lexemes : List Lexeme) : List Char := lexemes.flatMap (·.text)

/-- Cutting a text loses nothing and changes nothing. -/
theorem written_segment (step : Step) (before : Option Char) (text : List Char) :
    written (segment step before text) = text := by
  fun_induction segment step before text with
  | case1 => rfl
  | case2 before c rest _ text ih =>
    simp only [written, List.flatMap_cons] at ih ⊢
    rw [ih]
    simp [text]

/-- What starts at a character that is neither quoted nor a word of interest. -/
def urlStep : Step := fun before c rest =>
  if opensUrl before (c :: rest) then
    match rawUrlLength? (rest.drop 3) with
    | some n => (.url, n + 3)
    | none => (.plain, 3)
  else (.plain, 0)

end StyleTrack.Source
