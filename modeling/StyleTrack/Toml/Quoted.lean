/-
Strings of TOML documents, read and written.

There are four forms: between double quotes, where a backslash escapes, and between single quotes,
where nothing does, each on one line or, with three quotes, over several lines. A text is written in
the plainest form that shows it without escapes, and with escapes where no form does.
-/
import StyleTrack.Toml.Trivia

namespace StyleTrack.Toml

open StyleTrack.Text (Parser)

/-! ## Characters -/

/-- Whether a character can be written only by an escape: a control character other than a tab. -/
def isControl (c : Char) : Bool := (c < ' ' && c ≠ '\t') || c = '\x7f'

/-- Whether a character may stand between double quotes as itself. -/
def isBasic (c : Char) : Bool := !isControl c && c ≠ '"' && c ≠ '\\'

/-- Whether a character may stand between single quotes. -/
def isLiteral (c : Char) : Bool := !isControl c && c ≠ '\''

/-- The value of a hexadecimal digit. -/
def hexValue? (c : Char) : Option Nat :=
  if c.isDigit then some (c.toNat - '0'.toNat)
  else if 'a' ≤ c && c ≤ 'f' then some (c.toNat - 'a'.toNat + 10)
  else if 'A' ≤ c && c ≤ 'F' then some (c.toNat - 'A'.toNat + 10)
  else none

/-- The number that hexadecimal digits write, after the digits of `value`. -/
def hexNumber? (value : Nat) : List Char → Option Nat
  | [] => some value
  | c :: rest => do hexNumber? (value * 16 + (← hexValue? c)) rest

/-- The character of a code point, if there is one. -/
def charOf? (n : Nat) : Option Char := if n.isValidChar then some (Char.ofNat n) else none

/-! ## Reading -/

/-- The character that `digits` hexadecimal digits name. -/
def unicodeEscape? (digits : Nat) (text : List Char) : Option Char :=
  let written := text.take digits
  if written.length < digits then none else (hexNumber? 0 written).bind charOf?

/-- The character that the text after a backslash stands for, and how many characters say so. -/
def escape? : List Char → Option (Char × Nat)
  | 'b' :: _ => some ('\x08', 1)
  | 't' :: _ => some ('\t', 1)
  | 'n' :: _ => some ('\n', 1)
  | 'f' :: _ => some ('\x0c', 1)
  | 'r' :: _ => some ('\r', 1)
  | '"' :: _ => some ('"', 1)
  | '\\' :: _ => some ('\\', 1)
  | 'u' :: rest => (unicodeEscape? 4 rest).map fun c => (c, 5)
  | 'U' :: rest => (unicodeEscape? 8 rest).map fun c => (c, 9)
  | _ => none

/-- Puts a character in front of what was read. -/
def consRead (c : Char) (read : List Char × List Char) : List Char × List Char := (c :: read.1, read.2)

/-- A string from after its double quote. -/
def basicBody : Parser (List Char)
  | [] => none
  | c :: rest =>
    if c = '"' then some ([], rest)
    else if c = '\\' then
      match escape? rest with
      | none => none
      | some (d, n) => (basicBody (rest.drop n)).map (consRead d)
    else if isBasic c then (basicBody rest).map (consRead c)
    else none
termination_by text => text.length
decreasing_by all_goals (simp only [List.length_drop, List.length_cons]; omega)

/-- A string from after its single quote. -/
def literalBody : Parser (List Char)
  | [] => none
  | c :: rest =>
    if c = '\'' then some ([], rest)
    else if isLiteral c then (literalBody rest).map (consRead c)
    else none

/-- Leaves out blanks and line ends. -/
def skipLines : List Char → List Char
  | '\r' :: '\n' :: rest => skipLines rest
  | c :: rest => if isLineBlank c || c = '\n' then skipLines rest else c :: rest
  | [] => []

theorem length_skipLines_le (text : List Char) : (skipLines text).length ≤ text.length := by
  fun_induction skipLines text with
  | case1 rest ih => simp only [List.length_cons]; omega
  | case2 c rest _ _ ih => simp only [List.length_cons]; omega
  | case3 => exact Nat.le_refl _
  | case4 => exact Nat.le_refl _

/-- The text after a line end, with all blanks and line ends in front of it left out, if a backslash
before `text` joins lines. -/
def joinedLine? (text : List Char) : Option (List Char) :=
  match newline (text.dropWhile isLineBlank) with
  | some ((), rest) => some (skipLines rest)
  | none => none

theorem length_newline_le {text rest : List Char} (h : newline text = some ((), rest)) :
    rest.length ≤ text.length := by
  unfold newline at h
  split at h <;> simp at h
  all_goals (subst h; simp only [List.length_cons]; omega)

theorem length_joinedLine_le {text rest : List Char} (h : joinedLine? text = some rest) :
    rest.length ≤ text.length := by
  unfold joinedLine? at h
  split at h
  · rename_i after hnl
    simp only [Option.some.injEq] at h
    subst h
    have h1 := length_skipLines_le after
    have h2 := length_newline_le hnl
    have h3 := (List.dropWhile_sublist (l := text) (p := isLineBlank)).length_le
    omega
  · simp at h

/-- What closes a string of several lines, where `run` quotes stand in front of `rest`: up to two of
them still belong to the text. -/
def closing (quote : Char) (run : Nat) (rest : List Char) : List Char × List Char :=
  let inside := min (run - 3) 2
  (List.replicate inside quote, rest.drop (inside + 3))

/-- A string of several lines from after its double quotes. -/
def multilineBasicBody : Parser (List Char)
  | [] => none
  | c :: rest =>
    if c = '"' then
      let run := ((c :: rest).takeWhile (· = '"')).length
      if 3 ≤ run then some (closing '"' run (c :: rest))
      else (multilineBasicBody rest).map (consRead '"')
    else if c = '\\' then
      match h : joinedLine? rest with
      | some joined =>
        have := length_joinedLine_le h
        multilineBasicBody joined
      | none =>
        match escape? rest with
        | none => none
        | some (d, n) => (multilineBasicBody (rest.drop n)).map (consRead d)
    else if c = '\n' then (multilineBasicBody rest).map (consRead '\n')
    else if c = '\r' && rest.head? = some '\n' then (multilineBasicBody (rest.drop 1)).map (consRead '\n')
    else if isBasic c then (multilineBasicBody rest).map (consRead c)
    else none
termination_by text => text.length
decreasing_by all_goals (simp only [List.length_drop, List.length_cons]; omega)

/-- A string of several lines from after its single quotes. -/
def multilineLiteralBody : Parser (List Char)
  | [] => none
  | c :: rest =>
    if c = '\'' then
      let run := ((c :: rest).takeWhile (· = '\'')).length
      if 3 ≤ run then some (closing '\'' run (c :: rest))
      else (multilineLiteralBody rest).map (consRead '\'')
    else if c = '\n' then (multilineLiteralBody rest).map (consRead '\n')
    else if c = '\r' && rest.head? = some '\n' then (multilineLiteralBody (rest.drop 1)).map (consRead '\n')
    else if isLiteral c then (multilineLiteralBody rest).map (consRead c)
    else none
termination_by text => text.length
decreasing_by all_goals (simp only [List.length_drop, List.length_cons]; omega)

/-- A string on one line. -/
def lineString : Parser (List Char)
  | '"' :: rest => basicBody rest
  | '\'' :: rest => literalBody rest
  | _ => none

/-- A text without one line end in front. -/
def dropNewline (text : List Char) : List Char :=
  match newline text with
  | some ((), rest) => rest
  | none => text

/-- A string of any form. A line end right after three quotes is no part of the text. -/
def string : Parser (List Char)
  | '"' :: '"' :: '"' :: rest => multilineBasicBody (dropNewline rest)
  | '\'' :: '\'' :: '\'' :: rest => multilineLiteralBody (dropNewline rest)
  | text => lineString text

/-! ## Writing -/

/-- A hexadecimal digit, in upper case. -/
def upperHexDigit (n : Nat) : Char := (Nat.digitChar (n % 16)).toUpper

/-- How a character other than a double quote is written between double quotes; a line end stands for
itself where there are several lines. -/
def escaped (multiline : Bool) (c : Char) : List Char :=
  if c = '\x08' then ['\\', 'b']
  else if c = '\t' then ['\\', 't']
  else if c = '\n' then if multiline then ['\n'] else ['\\', 'n']
  else if c = '\x0c' then ['\\', 'f']
  else if c = '\r' then ['\\', 'r']
  else if c = '\\' then ['\\', '\\']
  else if isControl c then ['\\', 'u', '0', '0', upperHexDigit (c.toNat / 16), upperHexDigit c.toNat]
  else [c]

/-- A text between double quotes, of which `run` stand in front of it unescaped. Over several lines
only every third quote in a row is escaped. -/
def escapedFrom (multiline : Bool) (run : Nat) : List Char → List Char
  | [] => []
  | c :: rest =>
    if c = '"' then
      if multiline && run < 2 then '"' :: escapedFrom multiline (run + 1) rest
      else '\\' :: '"' :: escapedFrom multiline 0 rest
    else escaped multiline c ++ escapedFrom multiline 0 rest

/-- The length of the longest run of a character in a text that `run` of them stand in front of. -/
def longestRun (quote : Char) (run : Nat) : List Char → Nat
  | [] => run
  | c :: rest => if c = quote then longestRun quote (run + 1) rest else max run (longestRun quote 0 rest)

/-- The form with double quotes on one line. -/
def basicForm (s : List Char) : List Char := '"' :: (escapedFrom false 0 s ++ ['"'])

/-- The form with single quotes on one line. -/
def literalForm (s : List Char) : List Char := '\'' :: (s ++ ['\''])

/-- Three quotes around a text; a text that has line ends starts on a line of its own. -/
def multilineForm (quote : Char) (s body : List Char) : List Char :=
  List.replicate 3 quote ++ (if s.contains '\n' then ['\n'] else []) ++ body ++ List.replicate 3 quote

/-- Whether a text has a control character other than a tab or a line end. -/
def needsEscapes (s : List Char) : Bool := s.any fun c => isControl c && c ≠ '\n'

/-- A text as a value. -/
def quotedValue (s : List Char) : List Char :=
  if !needsEscapes s && !s.contains '\\' && !s.contains '"' && !s.contains '\n' then basicForm s
  else if !needsEscapes s && !s.contains '\'' && !s.contains '\n' then literalForm s
  else if !needsEscapes s && !s.contains '\\' && longestRun '"' 0 s ≤ 2 then
    multilineForm '"' s (escapedFrom true 0 s)
  else if !needsEscapes s && longestRun '\'' 0 s ≤ 2 then multilineForm '\'' s s
  else if s.contains '\n' then multilineForm '"' s (escapedFrom true 0 s)
  else basicForm s

/-- Whether a character may stand in a key without quotes. -/
def isBareKeyChar (c : Char) : Bool := c.isAlphanum || c = '_' || c = '-'

/-- A text as a key. -/
def quotedKey (s : List Char) : List Char :=
  if s ≠ [] && s.all isBareKeyChar then s
  else if !s.any isControl && !s.contains '\\' && !s.contains '"' then basicForm s
  else if !s.any isControl && !s.contains '\'' then literalForm s
  else basicForm s

end StyleTrack.Toml
