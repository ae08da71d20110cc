/-
Sinks: how diagnostics are printed, one line for each.

A line is either the message, after an optional label in brackets, or an object whose fields are in
the order of their names.
-/
import StyleTrack.Diagnostic.Basic
import StyleTrack.Json.Quoted

namespace StyleTrack

/-- How diagnostics are printed. -/
inductive Sink where
  /-- Not at all. -/
  | silent
  /-- As messages, with an optional label in front. -/
  | plain (label : Option String)
  /-- As objects. -/
  | json
deriving DecidableEq, Repr

namespace Sink

/-! ## Objects -/

/-- The fields of a diagnostic as an object, in the order of their names. A field without a value is
null. -/
def fields (d : Diagnostic) : List (String × Option String) :=
  match d with
  | .importNotFound path =>
    [("event", some "import_not_found"), ("message", some d.message), ("path", some path.display)]
  | .evidenceUnavailable path reason =>
    [("event", some "evidence_unavailable"), ("message", some d.message), ("path", some path.display),
      ("reason", some reason)]
  | .cacheEntryUnreadable root reason =>
    [("event", some "cache_entry_unreadable"), ("message", some d.message), ("reason", some reason),
      ("root", some root.display)]
  | .unknownKey key file suggestion =>
    [("event", some "config_warning"), ("file", some file.display), ("key", some key),
      ("message", some d.message), ("suggestion", suggestion)]

/-- A field as it is written. -/
def field (f : String × Option String) : List Char :=
  Json.quoted f.1.toList ++ ':' :: match f.2 with
    | some text => Json.quoted text.toList
    | none => ['n', 'u', 'l', 'l']

/-- A diagnostic as an object. -/
def object (d : Diagnostic) : List Char :=
  '{' :: ([','].intercalate ((fields d).map field) ++ ['}'])

/-! ## Lines -/

/-- What a sink prints for a diagnostic. -/
def line (sink : Sink) (d : Diagnostic) : String :=
  match sink with
  | silent => ""
  | plain none => s!"{d.message}\n"
  | plain (some label) => s!"[{label}] {d.message}\n"
  | json => String.ofList (object d ++ ['\n'])

/-- What a sink prints for diagnostics one after the other. -/
def output (sink : Sink) (ds : List Diagnostic) : String := String.join (ds.map sink.line)

end Sink

end StyleTrack
