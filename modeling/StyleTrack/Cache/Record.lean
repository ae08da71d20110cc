/-
Records: cache entries as TOML documents.

A record says which version of the format it has and which normalized root it belongs to, so that a
file of another version or under a wrong name is recognised. Reading ignores keys that a record does
not have, and needs every key that it has, apart from the time and the dependencies.
-/
import StyleTrack.Cache.Entry
import StyleTrack.Cache.Key
import StyleTrack.Text.Timestamp
import StyleTrack.Toml.Document

namespace StyleTrack

/-- A cache entry as it is written down. -/
structure CacheRecord where
  version : Nat
  /-- The normalized path that the key of the entry is the digest of. -/
  root : String
  /-- The path of the root as it was recorded. -/
  path : String
  /-- When the entry was written. -/
  recordedAt : Option String
  evidence : Evidence
  /-- Evidence about every dependency, by path. -/
  dependencies : SortedMap String Evidence
deriving DecidableEq

namespace CacheRecord

/-- The version of the format. -/
def currentVersion : Nat := 1

/-! ## Entries -/

/-- A dependency with its path as text. -/
def dependencyText (d : Path × Evidence) : Except String (String × Evidence) :=
  match d.1.toString? with
  | some name => .ok (name, d.2)
  | none => .error s!"dependency path is not valid UTF-8: {d.1.display}"

/-- The record of an entry that is written at the time `now`, or why it cannot be written. -/
def ofEntry (now : String) (key : CacheKey) (entry : CacheEntry) : Except String CacheRecord := do
  let dependencies ← entry.dependencies.entries.mapM dependencyText
  match entry.root.toString? with
  | none => throw "path contains invalid UTF-8 characters"
  | some path => return ⟨currentVersion, key.path, path, some now, entry.evidence, .ofList dependencies⟩

/-- The entry that a record is about. -/
def toEntry (r : CacheRecord) : CacheEntry :=
  .ofList (Path.ofString r.path) r.evidence (r.dependencies.entries.map fun d => (Path.ofString d.1, d.2))

/-! ## Writing -/

/-- A key and a string. -/
def stringLine (key value : String) : List Char :=
  key.toList ++ [' ', '=', ' '] ++ Toml.quotedValue value.toList ++ ['\n']

/-- A key and a number. -/
def numberLine (key : String) (n : Nat) : List Char :=
  key.toList ++ [' ', '=', ' '] ++ (toString n).toList ++ ['\n']

/-- The lines of evidence, or why it cannot be written. -/
def evidenceLines : Evidence → Except String (List Char)
  | .modified secs nanos =>
    if secs < Toml.integerLimit then
      .ok (stringLine "kind" "mtime" ++ numberLine "secs" secs ++ numberLine "nanos" nanos)
    else .error "out-of-range value for u64 type"
  | .content hash => .ok (stringLine "kind" "content" ++ stringLine "hash" hash.text)

/-- A blank line and the header of a table. -/
def header (name : List Char) : List Char := '\n' :: '[' :: (name ++ [']', '\n'])

/-- The table of a dependency. -/
def dependencyLines (d : String × Evidence) : Except String (List Char) := do
  return header ("dependencies.".toList ++ Toml.quotedKey d.1.toList) ++ (← evidenceLines d.2)

/-- The line of the time, if there is one. -/
def timeLine : Option String → List Char
  | some time => stringLine "recorded_at" time
  | none => []

/-- The document of a record, or why it cannot be written. -/
def text (r : CacheRecord) : Except String (List Char) := do
  let evidence ← evidenceLines r.evidence
  let dependencies ← r.dependencies.entries.mapM dependencyLines
  return numberLine "version" r.version ++ stringLine "root" r.root ++ stringLine "path" r.path
    ++ timeLine r.recordedAt ++ header "root_evidence".toList ++ evidence
    ++ if dependencies = [] then header "dependencies".toList else dependencies.flatten

/-! ## Reading -/

/-- A number that is not below zero. -/
def natural? : Toml.Value → Option Nat
  | .integer n => if 0 ≤ n then some n.toNat else none
  | _ => none

/-- A number that is not below zero and has a place in 32 bits. -/
def shortNatural? (v : Toml.Value) : Option Nat := (natural? v).filter (· < 0x100000000)

/-- Evidence of a kind, given how to find its other parts. -/
def evidenceOf? (kind secs nanos hash : Option Toml.Value) : Option Evidence := do
  match ← (← kind).string? with
  | "mtime" => return .modified (← natural? (← secs)) (← shortNatural? (← nanos))
  | "content" => return .content (.ofStored (← (← hash).string?))
  | _ => none

/-- The evidence that a value is: a table, or an array of the kind and the other parts in order. -/
def evidence? : Toml.Value → Option Evidence
  | .array [kind, secs, nanos] => evidenceOf? (some kind) (some secs) (some nanos) none
  | .array [kind, hash] => evidenceOf? (some kind) none none (some hash)
  | .table t => evidenceOf? (t.lookup "kind") (t.lookup "secs") (t.lookup "nanos") (t.lookup "hash")
  | _ => none

/-- The time of a record, which may be missing and must be a time stamp. -/
def recordedAt? : Option Toml.Value → Option (Option String)
  | none => some none
  | some value => do
    let time ← value.string?
    if Text.Timestamp.isStamp time.toList then some (some time) else none

/-- The dependencies of a record, which may be missing. -/
def dependencies? : Option Toml.Value → Option (SortedMap String Evidence)
  | none => some .empty
  | some value => do
    let found ← (← value.entries?).mapM fun e => return (e.1, ← evidence? e.2)
    return .ofList found

/-- The record that a table is. -/
def ofTable? (t : Toml.Table) : Option CacheRecord := do
  return {
    version := ← shortNatural? (← t.lookup "version")
    root := ← (← t.lookup "root").string?
    path := ← (← t.lookup "path").string?
    recordedAt := ← recordedAt? (t.lookup "recorded_at")
    evidence := ← evidence? (← t.lookup "root_evidence")
    dependencies := ← dependencies? (t.lookup "dependencies") }

/-- The record that a document is. -/
def read (text : List Char) : Option CacheRecord := do ofTable? (← Toml.read text)

end CacheRecord

end StyleTrack
