/-
Locating a reference: the directory of the file that holds it comes first, then the search paths in
order, and the first candidate that exists is taken.
-/
import StyleTrack.File.System
import StyleTrack.Path.Clean

namespace StyleTrack

/-! ## Failures -/

/-- Why a reference could not be located. -/
inductive ResolveError where
  /-- None of the places that were tried exists. -/
  | notFound (candidate : String) (tried : List Path)
  /-- A place could not be looked at. -/
  | io (candidate : String) (fault : FileError)
deriving DecidableEq, Repr

namespace ResolveError

/-- The paths that were tried, as text. -/
def listed (tried : List Path) : String := ",".intercalate (tried.map Path.display)

/-- The text of a failure. -/
def message : ResolveError → String
  | notFound candidate tried => s!"'{candidate}' wasn't found. Tried - {listed tried}"
  | io candidate fault => s!"failed to resolve '{candidate}': {fault.message}"

/-- The texts of what lies behind a failure. -/
def causes : ResolveError → List String
  | notFound .. => []
  | io _ fault => fault.message :: fault.causes

end ResolveError

/-! ## Searching -/

/-- Locates a candidate, given the directory that it is relative to and the search paths. -/
abbrev Locator := (base : Path) → (candidate : String) → (search : List Path) → Except ResolveError Path

namespace Locator

/-- The places where a candidate may be, in order. -/
def places (base : Path) (candidate : String) (search : List Path) : List Path :=
  (base :: search).map fun dir => (dir.join (Path.ofString candidate)).clean

/-- The first place that exists, after `tried` were found missing. No place is tried twice. -/
def firstPresent (fs : FileSystem) (candidate : String) (tried : List Path) :
    List Path → Except ResolveError Path
  | [] => .error (.notFound candidate tried)
  | p :: rest =>
    if tried.any p.same then firstPresent fs candidate tried rest
    else match fs.contains p with
      | .ok true => .ok p
      | .ok false => firstPresent fs candidate (tried ++ [p]) rest
      | .error fault => .error (.io candidate fault)

/-- The locator that asks a file system what exists. -/
def searching (fs : FileSystem) : Locator := fun base candidate search =>
  firstPresent fs candidate [] (places base candidate search)

end Locator

end StyleTrack
