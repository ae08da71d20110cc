/-
Listings: every file that a style sheet depends on.

The imports come first, as the processor reports them, and then the embedded resources of every unit
that was parsed. An import that cannot be located fails the listing. An embedded resource counts if
its path is a literal and names a local file; one that was located and is not there is reported and
left out. Every file is listed once, where it is met first.
-/
import StyleTrack.Diagnostic.Basic
import StyleTrack.Import.Contents
import StyleTrack.Import.Error

namespace StyleTrack

open StyleTrack.Source

/-! ## What is done on the way -/

/-- A question to the locator. -/
structure Lookup where
  base : Path
  candidate : String
  search : List Path
deriving DecidableEq, Repr

/-- What a listing did: the questions that it put to the locator, and its diagnostics. -/
structure Trace where
  lookups : List Lookup := []
  diagnostics : List Diagnostic := []
deriving DecidableEq, Repr

instance : Append Trace := ⟨fun s t => ⟨s.lookups ++ t.lookups, s.diagnostics ++ t.diagnostics⟩⟩

/-- A value or a failure, and what was done on the way to it. -/
structure Traced (α : Type) where
  result : Except ImportError α
  trace : Trace

namespace Traced

instance : Monad Traced where
  pure a := ⟨.ok a, {}⟩
  bind x f :=
    match x.result with
    | .error e => ⟨.error e, x.trace⟩
    | .ok a =>
      let y := f a
      ⟨y.result, x.trace ++ y.trace⟩

/-- A value or a failure, with nothing done. -/
def lift {α : Type} (result : Except ImportError α) : Traced α := ⟨result, {}⟩

/-- Puts a question to the locator. -/
def asked (lookup : Lookup) : Traced Unit := ⟨.ok (), { lookups := [lookup] }⟩

/-- Reports a diagnostic. -/
def reported (d : Diagnostic) : Traced Unit := ⟨.ok (), { diagnostics := [d] }⟩

end Traced

/-! ## Embedded resources -/

/-- The local file that a reference names, without a fragment; `none` if it names none. -/
def localFile? (raw : List Char) : Option (List Char) :=
  if ['/', '/'].isPrefixOf raw || startsWord ['h', 't', 't', 'p', ':'] raw
      || startsWord ['h', 't', 't', 'p', 's', ':'] raw || startsWord ['d', 'a', 't', 'a', ':'] raw then none
  else
    let path := raw.takeWhile (· ≠ '#')
    if path = [] then none else some path

/-- The local file that a reference depends on, if that is known without evaluation. -/
def Source.Reference.local? (r : Source.Reference) : Option String :=
  match r.path with
  | .literal raw => (localFile? raw.toList).map String.ofList
  | .dynamic _ => none

/-- The paths in order, without those that are the same as an earlier one. -/
def distinct (paths : List Path) : List Path := paths.eraseDupsBy Path.same

/-- Who lists dependencies. -/
structure Lister where
  processor : Processor
  locate : Locator
  fs : FileSystem
  options : RenderOptions

namespace Lister

/-- The directory that a candidate is relative to; an absolute candidate has none. -/
def baseOf (file : Path) (candidate : String) : Path :=
  if (Path.ofString candidate).isAbsolute then .empty else file.directory

/-- The file of an embedded resource, or nothing if it was located and is not there. -/
def resource (l : Lister) (root file : Path) (search : List Path) (candidate : String) :
    Traced (Option Path) := do
  let base := baseOf file candidate
  Traced.asked ⟨base, candidate, search⟩
  let path ← Traced.lift ((l.locate base candidate search).mapError fun e => .processing root (.resolution e))
  if ← Traced.lift ((l.fs.contains path).mapError .io) then
    return some path
  else
    Traced.reported (.importNotFound path)
    return none

/-- The embedded resources of a unit. -/
def resources (l : Lister) (root : Path) (search : List Path) (unit : SourceUnit) : Traced (List Path) := do
  let references ← Traced.lift ((Source.Reference.scan unit.text).mapError fun call =>
    .processing root (.malformedReference unit.path call))
  let found ← (references.filterMap (·.local?)).mapM (l.resource root unit.path search)
  return found.filterMap id

/-! ## Listings -/

/-- The dependencies of a text that is the content of `root`. -/
def listText (l : Lister) (options : RenderOptions) (root : Path) (text : List Char) :
    Traced (List Path) := do
  let processed ← Traced.lift
    ((l.processor text root options).mapError fun e => .processing root (.processor e))
  let units := if processed.sources = [] then [⟨root, text⟩] else processed.sources
  let embedded ← units.mapM (l.resources root options.paths)
  return distinct (processed.imports ++ embedded.flatten)

/-- The dependencies of a style sheet under given options. A style sheet without a path, without
contents or with empty ones has none. -/
def listWith (l : Lister) (options : RenderOptions) : Option Stylesheet → Traced (List Path)
  | some ⟨some root, some contents⟩ => do
    let text ← Traced.lift (contents.text.mapError fun fault => .read root fault)
    if text = [] then return [] else l.listText options root text
  | _ => return []

/-- The dependencies of a style sheet. -/
def list (l : Lister) (file : Option Stylesheet) : Traced (List Path) := l.listWith l.options file

/-- The dependencies of the file at a path. -/
def listPath (l : Lister) (path : Path) : Traced (List Path) := do
  let bytes ← Traced.lift ((l.fs.read path).mapError .io)
  l.list (some ⟨some path, some (.buffer bytes)⟩)

end Lister

end StyleTrack
