/-
JSON documents, read back from text.

A document keeps what is written: the members of an object in their order and with all repetitions, and a
number in the characters that spell it. Strings are read with their escapes resolved, so that texts that
are written differently and mean the same are read as the same text.
-/
import StyleTrack.Text.Digits
import StyleTrack.Text.Utf8

namespace StyleTrack.Json

open Text (Parser numberOf)

/-- A JSON document. -/
inductive Document where
  | null
  | bool (b : Bool)
  | number (spelling : List Char)
  | string (text : String)
  | array (items : List Document)
  | object (members : List (String × Document))

namespace Reader

/-! ## Marks -/

/-- Whether a character may stand between marks and means nothing there. -/
def isBlank (c : Char) : Bool := c = ' ' || c = '\t' || c = '\n' || c = '\r'

/-- Blanks, as many as there are. -/
def blanks : Parser Unit := do
  let _ ← Parser.takeWhile isBlank

/-- A certain character, after blanks. -/
def mark (c : Char) : Parser Unit := do
  blanks
  let _ ← Parser.char c

/-- Items with commas between them, from an opening to a closing mark. -/
def enclosed {α : Type} (opening closing : Char) (item : Parser α) : Parser (List α) := do
  mark opening
  Parser.or (do mark closing; return [])
    (do
      let items ← Parser.separated item (mark ',')
      mark closing
      return items)

/-! ## Strings -/

/-- Whether a character is a hexadecimal digit. -/
def isHexDigit (c : Char) : Bool := c.isDigit || ['a', 'b', 'c', 'd', 'e', 'f'].contains c.toLower

/-- A UTF-16 code unit, in four hexadecimal digits. -/
def unit : Parser Nat := do return numberOf 16 0 (← Parser.times (Parser.satisfy isHexDigit) 4)

/-- The character that code units stand for, from behind the first `\u`: one unit, or two surrogates that
belong together. A surrogate by itself stands for nothing. -/
def coded : Parser Char := do
  let first ← unit
  if 0xD800 ≤ first ∧ first < 0xDC00 then
    Parser.word ['\\', 'u']
    let second ← unit
    if 0xDC00 ≤ second ∧ second < 0xE000 then
      return Char.ofNat (0x10000 + (first - 0xD800) * 0x400 + (second - 0xDC00))
    else Parser.fail
  else if 0xDC00 ≤ first ∧ first < 0xE000 then Parser.fail
  else return Char.ofNat first

/-- What a single character stands for behind a backslash. -/
def meant? : Char → Option Char
  | '"' => some '"'
  | '\\' => some '\\'
  | '/' => some '/'
  | 'b' => some '\x08'
  | 'f' => some '\x0c'
  | 'n' => some '\n'
  | 'r' => some '\r'
  | 't' => some '\t'
  | _ => none

/-- Whether a character may stand in a string as itself. -/
def isPlain (c : Char) : Bool := ' ' ≤ c && c ≠ '"' && c ≠ '\\'

/-- A character of a string. -/
def character : Parser Char
  | '\\' :: 'u' :: rest => coded rest
  | '\\' :: c :: rest => (meant? c).map fun d => (d, rest)
  | text => Parser.satisfy isPlain text

/-- A string. -/
def string : Parser String := do
  let _ ← Parser.char '"'
  let text ← Parser.many character
  let _ ← Parser.char '"'
  return String.ofList text

/-! ## Numbers -/

/-- One digit or more. -/
def digits : Parser (List Char) := do
  let first ← Parser.satisfy Char.isDigit
  return first :: (← Parser.takeWhile Char.isDigit)

/-- The digits before the point, without zeros in front. -/
def whole : Parser (List Char)
  | '0' :: rest => some (['0'], rest)
  | text => digits text

/-- The digits behind a point, and the point. -/
def fraction : Parser (List Char) := do
  let point ← Parser.char '.'
  return point :: (← digits)

/-- A power of ten. -/
def exponent : Parser (List Char) := do
  let e ← Parser.satisfy fun c => c = 'e' || c = 'E'
  let sign ← Parser.optional (Parser.satisfy fun c => c = '+' || c = '-')
  return e :: (sign.toList ++ (← digits))

/-- A number. -/
def number : Parser (List Char) := do
  let sign ← Parser.optional (Parser.char '-')
  let whole ← whole
  let fraction ← Parser.optional fraction
  let exponent ← Parser.optional exponent
  return sign.toList ++ whole ++ fraction.getD [] ++ exponent.getD []

/-! ## Values -/

/-- A member of an object. -/
def member (value : Parser Document) : Parser (String × Document) := do
  blanks
  let name ← string
  mark ':'
  return (name, ← value)

/-- A value with values nested in it less than `depth` deep. -/
def value : (depth : Nat) → Parser Document
  | 0 => Parser.fail
  | depth + 1 => do
    blanks
    Parser.or (do return .string (← string)) <|
      Parser.or (do return .object (← enclosed '{' '}' (member (value depth)))) <|
      Parser.or (do return .array (← enclosed '[' ']' (value depth))) <|
      Parser.or (do Parser.word ['n', 'u', 'l', 'l']; return .null) <|
      Parser.or (do Parser.word ['t', 'r', 'u', 'e']; return .bool true) <|
      Parser.or (do Parser.word ['f', 'a', 'l', 's', 'e']; return .bool false) <|
      do return .number (← number)

/-- A value and nothing else. No text is nested deeper than it is long. -/
def document (length : Nat) : Parser Document := do
  let d ← value (length + 1)
  blanks
  Parser.eof
  return d

end Reader

namespace Document

/-- The document that a text is. -/
def read? (text : List Char) : Option Document := (Reader.document text.length text).map Prod.fst

/-- The document that bytes are. -/
def ofBytes? (bytes : List UInt8) : Option Document :=
  match Text.Utf8.decode bytes with
  | .ok text => read? text
  | .error _ => none

end Document

end StyleTrack.Json
