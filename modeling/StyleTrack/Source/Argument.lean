/-
The arguments of a call: how the text between the parentheses splits at top-level commas, and the
static shape of one argument.
-/
import StyleTrack.Source.Lexeme

namespace StyleTrack.Source

open StyleTrack.Text

/-! ## Splitting -/

/-- The arguments of a call and the text after its closing parenthesis. -/
structure Arguments where
  first : List Char
  others : List (List Char)
  rest : List Char
deriving DecidableEq, Repr

namespace Arguments

/-- All arguments in order. -/
def toList (a : Arguments) : List (List Char) := a.first :: a.others

/-- Puts text in front of the first argument. -/
def prepend (text : List Char) (a : Arguments) : Arguments := { a with first := text ++ a.first }

/-- Splits the text after an opening parenthesis, at `depth` further open ones, up to the parenthesis
that closes the call; `none` if it is never closed. Strings are opaque. -/
def split? (depth : Nat) : List Char → Option Arguments
  | [] => none
  | c :: rest =>
    if isQuote c then
      let n := quotedLength c rest
      (split? depth (rest.drop n)).map (prepend (c :: rest.take n))
    else if c = '(' then (split? (depth + 1) rest).map (prepend [c])
    else if c = ')' then
      match depth with
      | 0 => some ⟨[], [], rest⟩
      | outer + 1 => (split? outer rest).map (prepend [c])
    else if c = ',' && depth = 0 then (split? 0 rest).map fun a => ⟨[], a.toList, a.rest⟩
    else (split? depth rest).map (prepend [c])
termination_by text => text.length
decreasing_by all_goals (simp only [List.length_drop, List.length_cons]; omega)

end Arguments

/-! ## Shapes -/

/-- The static shape of an argument. -/
inductive Argument where
  /-- A quoted string without interpolation, without its quotes. -/
  | literal (text : String)
  /-- An unquoted token such as `image/png` or `logo.png`. -/
  | bare (text : String)
  /-- `@name`, `@@name` or `$name`. -/
  | variable (text : String)
  /-- A quoted string in which a variable is interpolated, without its quotes. -/
  | interpolated (text : String)
  /-- Anything else: operations, nested calls. -/
  | expression (text : String)
  /-- Nothing between the separators. -/
  | empty
deriving DecidableEq, Repr

/-- Whether a text holds the opening `@{` of an interpolation. -/
def hasInterpolation : List Char → Bool
  | '@' :: '{' :: _ => true
  | _ :: rest => hasInterpolation rest
  | [] => false

/-- What stands between the quotes of a text that is one quoted string from start to end. -/
def unquoted? : List Char → Option (List Char)
  | quote :: body =>
    if isQuote quote && quotedLength quote body = body.length && body.getLast? = some quote then
      some body.dropLast
    else none
  | [] => none

/-- The text without one leading `~`. -/
def dropTilde : List Char → List Char
  | '~' :: rest => rest
  | text => text

/-- Whether a character introduces a variable or a property. -/
def isSigil (c : Char) : Bool := c = '@' || c = '$'

/-- Whether a character may stand in an unquoted token. -/
def isBare (c : Char) : Bool := isIdent c || c = '.' || c = '/' || c = '+'

/-- The shape of the text between two separators. -/
def Argument.classify (raw : List Char) : Argument :=
  let text := trim raw
  if text = [] then .empty
  else match unquoted? (dropTilde text) with
    | some inner =>
      if hasInterpolation inner then .interpolated (String.ofList inner) else .literal (String.ofList inner)
    | none =>
      if text.head?.any isSigil && (text.dropWhile isSigil).all isIdent then .variable (String.ofList text)
      else if text.all isBare && text.head? ≠ some '+' then .bare (String.ofList text)
      else .expression (String.ofList text)

/-- The text of an argument; an empty one has none. -/
def Argument.text? : Argument → Option String
  | .literal t | .bare t | .variable t | .interpolated t | .expression t => some t
  | .empty => none

end StyleTrack.Source
