/-
Failures of a listing of dependencies.
-/
import StyleTrack.Import.Processor
import StyleTrack.Source.Reference

namespace StyleTrack

/-! ## Processing -/

/-- Why the imports of a root could not be processed. -/
inductive ProcessingFailure where
  /-- The processor failed. -/
  | processor (cause : ProcessorError)
  /-- An embedded resource could not be located. -/
  | resolution (cause : ResolveError)
  /-- A call that embeds a resource is malformed. -/
  | malformedReference (file : Path) (call : Source.MalformedCall)
deriving DecidableEq, Repr

namespace ProcessingFailure

/-- The text of a failure. -/
def message : ProcessingFailure → String
  | processor cause => cause.message
  | resolution cause => cause.message
  | malformedReference file call => s!"malformed reference in '{file.display}': {call.message}"

/-- The texts of what lies behind a failure. -/
def causes : ProcessingFailure → List String
  | processor cause => cause.causes
  | resolution cause => cause.causes
  | malformedReference .. => []

end ProcessingFailure

/-! ## Listing -/

/-- Why the dependencies of a root could not be listed. -/
inductive ImportError where
  /-- The imports could not be processed. -/
  | processing (root : Path) (failure : ProcessingFailure)
  /-- The contents could not be read or decoded. -/
  | read (path : Path) (fault : IoFault)
  /-- The file system had no answer. -/
  | io (fault : FileError)
deriving DecidableEq, Repr

namespace ImportError

/-- The text of a failure. -/
def message : ImportError → String
  | processing root failure => s!"Failed to process imports for '{root.display}': {failure.message}"
  | read path fault => s!"failed to read contents of '{path.display}': {fault.message}"
  | io fault => fault.message

/-- The texts of what lies behind a failure. -/
def causes : ImportError → List String
  | processing _ failure => failure.message :: failure.causes
  | read _ fault => [fault.message]
  | io fault => fault.causes

/-- Whether a call is malformed, as opposed to a file being out of reach. -/
def isMalformedReference : ImportError → Bool
  | processing _ (.malformedReference ..) => true
  | _ => false

end ImportError

end StyleTrack
