/-
`@import` directives of comment-free text: the options in parentheses, if there are any, and the
target, which is a quoted string or `url(…)`.
-/
import StyleTrack.Source.Keyword
import StyleTrack.Source.Argument

namespace StyleTrack.Source

open StyleTrack.Text

/-! ## Directives and faults -/

/-- The options that decide which files a directive reads. The other options of the language only
change what is written, so they are accepted and leave no mark. -/
structure ImportOptions where
  /-- The file is taken as it is and not parsed. -/
  isInline : Bool := false
  /-- The file is parsed whatever its extension. -/
  isLess : Bool := false
  /-- The directive is left to the style sheet's reader. -/
  isCss : Bool := false
  /-- The file may be missing. -/
  isOptional : Bool := false
deriving DecidableEq, Repr

/-- An `@import` directive. -/
structure Directive where
  /-- The target as it is written, without quotes. -/
  target : String
  options : ImportOptions
  /-- The line of the directive, counted from one. -/
  line : Nat
deriving DecidableEq, Repr

/-- What is wrong with a directive. -/
inductive DirectiveFault where
  /-- The parenthesis of the options is never closed. -/
  | unterminatedOptions
  /-- An option that the language does not have. -/
  | unrecognisedOption (name : String)
  /-- The target is missing, empty or not closed. -/
  | malformed
deriving DecidableEq, Repr

/-- The text of a fault. -/
def DirectiveFault.message : DirectiveFault → String
  | unterminatedOptions => "unterminated @import options"
  | unrecognisedOption name => s!"unrecognised @import option '{name}'"
  | malformed => "malformed @import"

/-! ## Options -/

namespace ImportOptions

/-- Takes in one option by name. -/
def add (o : ImportOptions) (name : String) : Except DirectiveFault ImportOptions :=
  match name with
  | "inline" => .ok { o with isInline := true }
  | "less" => .ok { o with isLess := true }
  | "css" => .ok { o with isCss := true }
  | "optional" => .ok { o with isOptional := true }
  | "reference" | "once" | "multiple" | "" => .ok o
  | _ => .error (.unrecognisedOption name)

/-- The options that are listed between the parentheses. -/
def ofText (text : List Char) : Except DirectiveFault ImportOptions :=
  (text.splitOn ',').foldlM (fun o raw => o.add (String.ofList (trim raw))) {}

end ImportOptions

/-! ## Targets -/

/-- The text up to the quote that closes a string, from after its opening quote. The text between is
taken verbatim. -/
def quotedTarget? (quote : Char) (body : List Char) : Option (List Char) :=
  let taken := body.take (quotedLength quote body)
  if taken.getLast? = some quote then some taken.dropLast else none

/-- The text before the first closing parenthesis and the text after it. -/
def splitAtClose? (text : List Char) : Option (List Char × List Char) :=
  match text.dropWhile (· ≠ ')') with
  | _ :: rest => some (text.takeWhile (· ≠ ')'), rest)
  | [] => none

/-- The target that a text starts with: a quoted string, or `url(` with a quoted or a raw body. -/
def target? (text : List Char) : Option (List Char) :=
  match text with
  | [] => none
  | c :: rest =>
    if isQuote c then quotedTarget? c rest
    else if startsWord ['u', 'r', 'l', '('] text then
      match skipBlanks (text.drop 4) with
      | [] => none
      | d :: body =>
        if isQuote d then quotedTarget? d body
        else match splitAtClose? (d :: body) with
          | none => none
          | some (raw, _) => if trim raw = [] then none else some (trim raw)
    else none

/-! ## Parsing -/

namespace Directive

/-- `@import`, where it is no part of a longer word. -/
def keyword : Keyword where
  word := ['@', 'i', 'm', 'p', 'o', 'r', 't']
  follows c := !isIdent c && c ≠ '@'

/-- The options that a text starts with, and the text from the target on. -/
def optionsOf (text : List Char) : Except DirectiveFault (ImportOptions × List Char) :=
  match skipBlanks text with
  | '(' :: inner =>
    match splitAtClose? inner with
    | none => .error .unterminatedOptions
    | some (listed, rest) => (ImportOptions.ofText listed).map fun o => (o, skipBlanks rest)
  | other => .ok ({}, other)

/-- The directive whose keyword stands on `line` before `text`. -/
def ofText (line : Nat) (text : List Char) : Except DirectiveFault Directive := do
  let (options, rest) ← optionsOf text
  match target? rest with
  | none => .error .malformed
  | some target => .ok ⟨String.ofList target, options, line⟩

/-- Whether the keyword is the beginning of a longer word, such as the name of a variable. -/
def isLongerWord (o : Occurrence) : Bool := o.rest.head?.any isIdent

/-- The directives of a text, in order, or its first fault and the line of it. -/
def parse (text : List Char) : Except (Nat × DirectiveFault) (List Directive) :=
  ((keyword.find text).filter fun o => !isLongerWord o).mapM fun o =>
    (ofText o.line o.rest).mapError fun fault => (o.line, fault)

end Directive

end StyleTrack.Source
