/-
References to embedded resources: calls of `data-uri`, which inlines a file into the generated style
sheet. A call names a path, after an optional mime type. Only a literal path is a static dependency;
any other depends on evaluation and is reported as dynamic.
-/
import StyleTrack.Source.Comment
import StyleTrack.Source.Keyword
import StyleTrack.Source.Argument

namespace StyleTrack.Source

open StyleTrack.Text

/-! ## References and faults -/

/-- The path argument of a reference. -/
inductive ReferencePath where
  /-- A path that is known without evaluation. -/
  | literal (path : String)
  /-- A variable, an interpolated string or an expression. -/
  | dynamic (text : String)
deriving DecidableEq, Repr

/-- A reference to an embedded resource. -/
structure Reference where
  path : ReferencePath
  mime : Option String
  /-- The line of the call, counted from one. -/
  line : Nat
deriving DecidableEq, Repr

/-- What is wrong with a call. -/
inductive CallFault where
  /-- The call is never closed. -/
  | unterminated
  /-- The call has neither one argument nor two. -/
  | arity (count : Nat)
  /-- The mime type is empty. -/
  | emptyMime
  /-- The path is empty. -/
  | emptyPath
deriving DecidableEq, Repr

/-- The text of a fault. -/
def CallFault.message : CallFault → String
  | unterminated => "unterminated data-uri() call"
  | arity count => s!"data-uri() expects 1 or 2 arguments, got {count}"
  | emptyMime => "data-uri() has an empty mime type argument"
  | emptyPath => "data-uri() has an empty path argument"

/-- A malformed call and its line. -/
structure MalformedCall where
  line : Nat
  fault : CallFault
deriving DecidableEq, Repr

/-- The text of a malformed call. -/
def MalformedCall.message (m : MalformedCall) : String := s!"{m.fault.message} on line {m.line}"

/-! ## Scanning -/

namespace Reference

/-- `data-uri(`, where it is no mixin, no property of a namespace and no variable. -/
def keyword : Keyword where
  word := ['d', 'a', 't', 'a', '-', 'u', 'r', 'i', '(']
  follows c := !isIdent c && !(c = '.' || c = '#' || c = '@' || c = '$')

/-- The path that an argument names. -/
def pathOf : Argument → Except CallFault ReferencePath
  | .literal p | .bare p => .ok (.literal p)
  | .variable p | .interpolated p | .expression p => .ok (.dynamic p)
  | .empty => .error .emptyPath

/-- The reference that the arguments of a call on `line` make. -/
def ofArguments (line : Nat) : List Argument → Except CallFault Reference
  | [path] => do return ⟨← pathOf path, none, line⟩
  | [mime, path] =>
    match mime.text? with
    | none => .error .emptyMime
    | some m => do return ⟨← pathOf path, some m, line⟩
  | args => .error (.arity args.length)

/-- The shapes of the arguments; blanks alone are no argument. -/
def shapes (raw : List (List Char)) : List Argument :=
  match raw with
  | [only] => if trim only = [] then [] else [Argument.classify only]
  | _ => raw.map Argument.classify

/-- The reference at one occurrence of the keyword. -/
def ofOccurrence (o : Occurrence) : Except MalformedCall Reference :=
  match Arguments.split? 0 o.rest with
  | none => .error ⟨o.line, .unterminated⟩
  | some args => (ofArguments o.line (shapes args.toList)).mapError fun fault => ⟨o.line, fault⟩

/-- The references in a text, in order, or its first malformed call. -/
def scan (text : List Char) : Except MalformedCall (List Reference) :=
  (keyword.find (stripComments text)).mapM ofOccurrence

end Reference

end StyleTrack.Source
