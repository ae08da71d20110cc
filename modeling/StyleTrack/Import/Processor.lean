/-
Processors: whoever expands the imports of a style sheet.

A processor is given the text of a file, the path of the file and the options, and reports every file
that was pulled in together with the text of each unit that it parsed.
-/
import StyleTrack.Options
import StyleTrack.Import.Lookup

namespace StyleTrack

/-! ## Failures -/

/-- Why a style sheet could not be processed. -/
inductive ProcessorError where
  /-- An import could not be located. -/
  | importNotFound (target : String) (file : Path) (cause : ResolveError)
  /-- An import mentions a variable that nobody defines. -/
  | undefinedVariable (name : String) (file : Path)
  /-- A directive has no meaning. -/
  | malformed (file : Path) (line : Nat) (text : String)
  /-- An imported file could not be read. -/
  | read (path : Path) (fault : FileError)
  /-- The search for an import met a fault. -/
  | resolve (cause : ResolveError)
  /-- Any other failure, in the words of the processor. -/
  | other (text : String)
deriving DecidableEq, Repr

namespace ProcessorError

/-- The text of a failure. -/
def message : ProcessorError → String
  | importNotFound target file cause =>
    s!"'{target}' wasn't found (imported from '{file.display}'): {cause.message}"
  | undefinedVariable name file => s!"variable @{name} is undefined in '{file.display}'"
  | malformed file line text => s!"{text} in '{file.display}' on line {line}"
  | read path fault => s!"failed to read '{path.display}': {fault.message}"
  | resolve cause => cause.message
  | other text => text

/-- The texts of what lies behind a failure. -/
def causes : ProcessorError → List String
  | importNotFound _ _ cause => cause.message :: cause.causes
  | read _ fault => fault.message :: fault.causes
  | resolve cause => cause.causes
  | undefinedVariable .. | malformed .. | other _ => []

end ProcessorError

/-! ## Results -/

/-- A unit of text that was parsed: the root or an imported file. -/
structure SourceUnit where
  path : Path
  text : List Char
deriving DecidableEq, Repr

/-- What a processor reports. -/
structure Processed where
  /-- The files that were pulled in, in the order in which they were met. -/
  imports : List Path
  /-- The units that were parsed, the root first. -/
  sources : List SourceUnit
deriving DecidableEq, Repr

/-- Expands the imports of a text that is the content of a path. -/
abbrev Processor := (text : List Char) → (path : Path) → RenderOptions → Except ProcessorError Processed

end StyleTrack
