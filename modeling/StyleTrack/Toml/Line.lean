/-
Keys and values of TOML documents, and the lines that they make up.
-/
import StyleTrack.Toml.Node
import StyleTrack.Toml.Number
import StyleTrack.Toml.Quoted

namespace StyleTrack.Toml

open StyleTrack.Text (Parser)

/-! ## Keys -/

/-- One part of a key: a string on one line, or a word of letters, digits, `_` and `-`. -/
def keyPart : Parser String := fun text =>
  Parser.or (do return String.ofList (← lineString))
    (do
      let first ← Parser.satisfy isBareKeyChar
      let others ← Parser.takeWhile isBareKeyChar
      return String.ofList (first :: others)) text

/-- A part of a key with the blanks around it. -/
def spacedKeyPart : Parser String := do
  blanks
  let part ← keyPart
  blanks
  return part

/-- How deep keys and values may be nested. -/
def depthLimit : Nat := 80

/-- A key: the parents and the name under them. -/
def key : Parser (List String × String) := do
  let parts ← Parser.separated spacedKeyPart (Parser.char '.')
  match parts.getLast? with
  | some last => if parts.length < depthLimit then return (parts.dropLast, last) else Parser.fail
  | none => Parser.fail

/-! ## Values -/

/-- A key, an equals sign and a value. -/
def entry (value : Parser Value) : Parser ((List String × String) × Value) := do
  let k ← key
  let _ ← Parser.char '='
  blanks
  let v ← value
  return (k, v)

/-- An array from after its bracket. -/
def arrayBody (value : Parser Value) : Parser Value := do
  let element : Parser Value := do
    filling
    let v ← value
    filling
    return v
  let items ← Parser.optional (Parser.separated element (Parser.char ','))
  if items.isSome then
    let _ ← Parser.optional (Parser.char ',')
  filling
  let _ ← Parser.char ']'
  return .array (items.getD [])

/-- The table that entries between braces make up. -/
def inlineTable? (entries : List ((List String × String) × Value)) : Option Value :=
  (entries.foldlM (fun (nodes : Nodes) e => nodes.addValue? e.1.1 e.1.2 e.2) []).map fun nodes =>
    .table (toTable nodes)

/-- A table between braces from after its brace. -/
def inlineTableBody (value : Parser Value) : Parser Value := do
  let spacedEntry : Parser ((List String × String) × Value) := do
    let e ← entry value
    blanks
    return e
  let entries ← Parser.optional (Parser.separated spacedEntry (Parser.char ','))
  blanks
  let _ ← Parser.char '}'
  Parser.lift (inlineTable? (entries.getD []))

/-- A value that holds no other values. -/
def scalar : Parser Value
  | [] => none
  | c :: rest =>
    (if c = '"' || c = '\'' then do return .string (String.ofList (← string))
    else if c = '+' || c = '-' || c.isDigit then
      Parser.or (do return .datetime (← datetime)) (Parser.or float integer)
    else if c = 't' then do Parser.word ['t', 'r', 'u', 'e']; return .boolean true
    else if c = 'f' then do Parser.word ['f', 'a', 'l', 's', 'e']; return .boolean false
    else if c = 'i' || c = 'n' then special
    else Parser.fail) (c :: rest)

/-- A value with values nested in it at most `depth` deep. -/
def value : (depth : Nat) → Parser Value
  | 0 => scalar
  | depth + 1 => fun text =>
    match text with
    | '[' :: rest => arrayBody (value depth) rest
    | '{' :: rest => inlineTableBody (value depth) rest
    | _ => scalar text

/-! ## Lines -/

/-- What a line says. -/
inductive Line where
  /-- Nothing. -/
  | empty
  /-- A value under a key. -/
  | entry (path : List String) (key : String) (v : Value)
  /-- The header of a table. -/
  | table (path : List String) (key : String)
  /-- The header of one more table under the same key. -/
  | element (path : List String) (key : String)

/-- The header of a table from after its bracket. -/
def headerBody : Parser Line := do
  let (path, name) ← key
  let _ ← Parser.char ']'
  lineTrailing
  return .table path name

/-- The header of one more table from after its brackets. -/
def elementHeaderBody : Parser Line := do
  let (path, name) ← key
  Parser.word [']', ']']
  lineTrailing
  return .element path name

/-- A value under a key, and the end of the line. -/
def entryLine : Parser Line := do
  let ((path, name), v) ← entry (value (depthLimit - 1))
  lineTrailing
  return .entry path name v

/-- A line without the blanks in front of it and after it. -/
def line : Parser Line
  | '#' :: rest => (do comment; lineEnd; return .empty : Parser Line) ('#' :: rest)
  | '[' :: '[' :: rest => elementHeaderBody rest
  | '[' :: rest => headerBody rest
  | '\n' :: rest => some (.empty, rest)
  | '\r' :: rest => (do newline; return .empty : Parser Line) ('\r' :: rest)
  | text => entryLine text

/-- The lines of a document. -/
def lines : Parser (List Line) := do
  blanks
  let found ← Parser.many do
    let l ← line
    blanks
    return l
  Parser.eof
  return found

end StyleTrack.Toml
