/-
Parsers over lists of characters: a parser takes characters from the front, or fails and takes none.
-/

namespace StyleTrack.Text

/-- Reads a value from the front of a text and gives the rest. -/
abbrev Parser (α : Type) := List Char → Option (α × List Char)

namespace Parser

/-! ## Sequence and choice -/

instance : Monad Parser where
  pure a text := some (a, text)
  bind p f text :=
    match p text with
    | none => none
    | some (a, rest) => f a rest

/-- Takes nothing and fails. -/
def fail {α : Type} : Parser α := fun _ => none

/-- The second parser where the first one fails. -/
def or {α : Type} (p q : Parser α) : Parser α := fun text =>
  match p text with
  | none => q text
  | some found => some found

/-- Succeeds without a value where the parser fails. -/
def optional {α : Type} (p : Parser α) : Parser (Option α) := fun text =>
  match p text with
  | none => some (none, text)
  | some (a, rest) => some (some a, rest)

/-- Fails where the value of a step is missing. -/
def lift {α : Type} : Option α → Parser α
  | none => fail
  | some a => pure a

/-! ## Characters -/

/-- The next character, if it satisfies a condition. -/
def satisfy (accept : Char → Bool) : Parser Char
  | [] => none
  | c :: rest => if accept c then some (c, rest) else none

/-- One certain character. -/
def char (c : Char) : Parser Char := satisfy (· = c)

/-- A certain word. -/
def word (w : List Char) : Parser Unit := fun text =>
  if w.isPrefixOf text then some ((), text.drop w.length) else none

/-- All characters up to the first that does not satisfy a condition. -/
def takeWhile (accept : Char → Bool) : Parser (List Char) := fun text =>
  some (text.takeWhile accept, text.dropWhile accept)

/-- The end of the text. -/
def eof : Parser Unit
  | [] => some ((), [])
  | _ :: _ => none

/-! ## Repetition -/

/-- As many values as there are, one after the other, but at most one for each character of `bound`. -/
def manyWithin {α : Type} (p : Parser α) : (bound : List Char) → Parser (List α)
  | [] => pure []
  | _ :: bound => fun text =>
    match p text with
    | none => some ([], text)
    | some (a, rest) =>
      match manyWithin p bound rest with
      | none => none
      | some (more, rest) => some (a :: more, rest)

/-- As many values as there are, one after the other. The text itself is the bound, which is never in
the way of a parser that takes a character or more for each value. -/
def many {α : Type} (p : Parser α) : Parser (List α) := fun text => manyWithin p text text

/-- One value or more, with separators between them. -/
def separated {α β : Type} (p : Parser α) (separator : Parser β) : Parser (List α) := do
  let first ← p
  let others ← many (separator >>= fun _ => p)
  return first :: others

/-- Exactly `n` values. -/
def times {α : Type} (p : Parser α) : Nat → Parser (List α)
  | 0 => pure []
  | n + 1 => do return (← p) :: (← times p n)

end Parser

end StyleTrack.Text
