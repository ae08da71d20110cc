/-
Reading configurations from TOML documents.

Keys that mean nothing are collected, in the order of the document, and all else must have the right
form. A section is a table, or an array of its values in the order of the keys.
-/
import StyleTrack.Config.Basic
import StyleTrack.Config.Suggestion
import StyleTrack.Diagnostic.Basic
import StyleTrack.File.Disk
import StyleTrack.Toml.Document

namespace StyleTrack

/-! ## Failures -/

/-- Why a configuration could not be read. -/
inductive ConfigError where
  /-- The file could not be read. -/
  | read (path : Path) (fault : IoFault)
  /-- The file is no configuration. -/
  | invalid (path : Path) (text : String)
deriving DecidableEq, Repr

/-- The text of a failure. -/
def ConfigError.message : ConfigError → String
  | read path fault => s!"failed to read config {path.display}: {fault.message}"
  | invalid path text => s!"invalid config in {path.display}: {text}"

namespace Config

open StyleTrack.Toml (Value Table)

/-! ## Values -/

/-- A path. -/
def path? (v : Value) : Option Path := v.string?.map Path.ofString

/-- A list of paths. -/
def paths? : Value → Option (List Path)
  | .array items => items.mapM path?
  | _ => none

/-- Variables. -/
def stringMap? (v : Value) : Option (SortedMap String String) := do
  let found ← (← v.entries?).mapM fun e => return (e.1, ← e.2.string?)
  return .ofList found

/-- Settings that are passed through. -/
def settings? (v : Value) : Option (SortedMap String Value) := do
  return .ofList (← Value.entriesWithDatetimes? (← v.entries?))

/-- The kind of evidence with a name. -/
def evidenceNamed? (name : String) : Option EvidenceKind :=
  if name = "mtime" then some .mtime else if name = "content" then some .content else none

/-- The kind of evidence: its name, or its name as the only key of a table that holds nothing. -/
def evidence? : Value → Option EvidenceKind
  | .string name => evidenceNamed? name
  | .table [(name, .table [])] | .table [(name, .array [])] => evidenceNamed? name
  | _ => none

/-! ## Sections -/

/-- What was read of a section: its values and the keys that mean nothing. -/
structure Section (α : Type) where
  value : α
  unknown : List String

/-- Takes in one entry of a section: `set` knows what the keys of the section mean. -/
def takeEntry {α : Type} (set : α → String → Option (Value → Option α)) (s : Section α) (e : String × Value) :
    Option (Section α) :=
  match set s.value e.1 with
  | some read => do return { s with value := ← read e.2 }
  | none => some { s with unknown := s.unknown ++ [e.1] }

/-- Takes in the value of the key at its place. -/
def takeItem {α : Type} (set : α → String → Option (Value → Option α)) (value : α) (item : String × Value) :
    Option α :=
  match set value item.1 with
  | some read => read item.2
  | none => some value

/-- A section with the given keys. -/
def section? {α : Type} (keys : List String) (set : α → String → Option (Value → Option α)) (start : α)
    (v : Value) : Option (Section α) :=
  match v with
  | .array items => do return ⟨← (keys.zip items).foldlM (takeItem set) start, []⟩
  | _ => do (← v.entries?).foldlM (takeEntry set) ⟨start, []⟩

/-- What the keys of the section about finding files mean. -/
def setResolver (r : ResolverConfig) (key : String) : Option (Value → Option ResolverConfig) :=
  match key with
  | "paths" => some fun v => do return { r with paths := ← paths? v }
  | "global_vars" => some fun v => do return { r with globalVars := ← stringMap? v }
  | "modify_vars" => some fun v => do return { r with modifyVars := ← stringMap? v }
  | "options" => some fun v => do return { r with options := ← settings? v }
  | _ => none

/-- What the keys of the section about detecting changes mean. -/
def setCache (c : CacheConfig) (key : String) : Option (Value → Option CacheConfig) :=
  match key with
  | "dir" => some fun v => do return { c with dir := some (← path? v) }
  | "evidence" => some fun v => do return { c with evidence := ← evidence? v }
  | _ => none

/-- The keys that mean nothing in a section, with the name of the section in front. -/
def qualified (name : String) (unknown : List String) : List String := unknown.map fun key => s!"{name}.{key}"

/-- Takes in one entry of a document. -/
def takeSection (s : Section Config) (e : String × Value) : Option (Section Config) :=
  match e.1 with
  | "resolver" => do
    let read ← section? ["paths", "global_vars", "modify_vars", "options"] setResolver {} e.2
    return ⟨{ s.value with resolver := read.value }, s.unknown ++ qualified "resolver" read.unknown⟩
  | "cache" => do
    let read ← section? ["dir", "evidence"] setCache {} e.2
    return ⟨{ s.value with cache := read.value }, s.unknown ++ qualified "cache" read.unknown⟩
  | key => some { s with unknown := s.unknown ++ [key] }

/-- The configuration that a table is, and the keys in it that mean nothing. -/
def ofTable? (t : Table) : Option (Section Config) := t.foldlM takeSection ⟨{}, []⟩

/-! ## Files -/

/-- What follows the last dot of a key. -/
def leaf (key : String) : String :=
  String.ofList (key.toList.reverse.takeWhile (· ≠ '.')).reverse

/-- The diagnostic about a key that means nothing. -/
def warning (file : Path) (key : String) : Diagnostic := .unknownKey key file (suggestion? (leaf key))

/-- The configuration that the text of a file is, and its diagnostics. Relative paths are meant from
the directory of the file. -/
def ofText (file : Path) (text : List Char) : Except ConfigError (Config × List Diagnostic) :=
  match (Toml.read text).bind ofTable? with
  | none => .error (.invalid file "the document is not a configuration")
  | some s =>
    let config := if file.directory.bytes = [] then s.value else s.value.relativeTo file.directory
    .ok (config, s.unknown.map (warning file))

/-- The configuration in a file, and its diagnostics. -/
def load (d : Disk) (file : Path) : Except ConfigError (Config × List Diagnostic) :=
  match d.readText file with
  | .error fault => .error (.read file fault)
  | .ok text => ofText file text

end Config

end StyleTrack
