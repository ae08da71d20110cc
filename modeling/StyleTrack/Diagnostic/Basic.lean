/-
Diagnostics: conditions that are reported and never fail an operation.
-/
import StyleTrack.Path.Basic

namespace StyleTrack

/-- A condition that is worth reporting. -/
inductive Diagnostic where
  /-- An embedded resource was located at a path that does not exist. -/
  | importNotFound (path : Path)
  /-- Nothing can be told about a file, so the root counts as changed. -/
  | evidenceUnavailable (path : Path) (reason : String)
  /-- What is stored about a root cannot be used, so the root counts as new. -/
  | cacheEntryUnreadable (root : Path) (reason : String)
  /-- A configuration file has a key that means nothing. -/
  | unknownKey (key : String) (file : Path) (suggestion : Option String)
deriving DecidableEq, Repr

/-- The key that was perhaps meant, as an addition to a message. -/
def Diagnostic.hint : Option String → String
  | some suggestion => s!" (did you mean '{suggestion}'?)"
  | none => ""

/-- The text of a diagnostic. -/
def Diagnostic.message : Diagnostic → String
  | importNotFound path => s!"Import '{path.display}' not found."
  | evidenceUnavailable path reason => s!"Cannot read change evidence for '{path.display}': {reason}"
  | cacheEntryUnreadable root reason => s!"Ignoring cache entry for '{root.display}': {reason}"
  | unknownKey key file suggestion => s!"Unknown config key '{key}' in {file.display}{hint suggestion}"

end StyleTrack
