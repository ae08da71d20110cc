/-
Configuration: where to search for files, which variables to inject, and how to detect changes.
-/
import StyleTrack.Evidence
import StyleTrack.Options
import StyleTrack.Toml.Value

namespace StyleTrack

/-! ## Sections -/

/-- The section about finding files. -/
structure ResolverConfig where
  /-- Directories to search, after the directory of the importing file. -/
  paths : List Path := []
  /-- Variables that count as defined before a file, with or without `@` in front of their names. -/
  globalVars : SortedMap String String := .empty
  /-- Variables that count as defined after a file, with or without `@` in front of their names. -/
  modifyVars : SortedMap String String := .empty
  /-- Settings that are passed through. -/
  options : SortedMap String Toml.Value := .empty

/-- The section about detecting changes. -/
structure CacheConfig where
  /-- Where entries are stored; by default in the user's cache directory. -/
  dir : Option Path := none
  evidence : EvidenceKind := .mtime

/-- A configuration. -/
structure Config where
  resolver : ResolverConfig := {}
  cache : CacheConfig := {}

/-! ## Render options -/

mutual

/-- A setting as it is passed through. A date or time is passed as text, and a number that is no
number as null. -/
def Toml.Value.toJson : Toml.Value → Json
  | .string s => .string s
  | .integer n => .whole n
  | .float x => if x.isFinite then .fraction x else .null
  | .boolean b => .bool b
  | .datetime d => .string d.text
  | .array items => .array (Toml.Value.itemsToJson items)
  | .table entries => .ofFields (Toml.Value.entriesToJson entries)

/-- The items of an array as they are passed through. -/
def Toml.Value.itemsToJson : List Toml.Value → List Json
  | [] => []
  | v :: rest => v.toJson :: Toml.Value.itemsToJson rest

/-- The entries of a table as they are passed through. -/
def Toml.Value.entriesToJson : List (String × Toml.Value) → List (String × Json)
  | [] => []
  | (key, v) :: rest => (key, v.toJson) :: Toml.Value.entriesToJson rest

end

/-- The name of a variable without `@` in front. -/
def bareName (name : String) : String := String.ofList (name.toList.dropWhile (· = '@'))

/-- Variables under their bare names. Of several names that become equal the greatest one counts. -/
def bareVariables (vars : SortedMap String String) : SortedMap String String :=
  .ofList (vars.entries.map fun e => (bareName e.1, e.2))

/-- The render options that a section describes. -/
def ResolverConfig.renderOptions (r : ResolverConfig) : RenderOptions where
  paths := r.paths
  globalVars := bareVariables r.globalVars
  modifyVars := bareVariables r.modifyVars
  extra := .ofList (r.options.entries.map fun e => (e.1, e.2.toJson))

/-! ## Directories -/

/-- A path as it is meant in a file that lies in `dir`. -/
def inDirectory (dir p : Path) : Path := if p.isAbsolute then p else dir.join p

/-- The configuration as it is meant in a file that lies in `dir`. -/
def Config.relativeTo (c : Config) (dir : Path) : Config where
  resolver := { c.resolver with paths := c.resolver.paths.map (inDirectory dir) }
  cache := { c.cache with dir := c.cache.dir.map (inDirectory dir) }

end StyleTrack
