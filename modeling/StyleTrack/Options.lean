/-
Options of a render: where to search for files, which variables are injected, and who may claim
an imported file before it is searched for.
-/
import StyleTrack.Path.Basic
import StyleTrack.Json.Value

namespace StyleTrack

/-- A hook that may claim an import before the search for it. -/
structure Plugin where
  name : String
  /-- The path of a candidate that is imported from a directory, if the plugin claims it. -/
  claim : (candidate : String) → (directory : Path) → Option Path

/-- Options of a render. -/
structure RenderOptions where
  /-- Directories to search, in order, after the directory of the importing file. -/
  paths : List Path := []
  /-- Variables that count as defined before the file. -/
  globalVars : SortedMap String String := .empty
  /-- Variables that count as defined after the file. -/
  modifyVars : SortedMap String String := .empty
  plugins : List Plugin := []
  /-- Settings that nothing here looks at. -/
  extra : SortedMap String Json := .empty

namespace RenderOptions

/-- The injected variable of a name, with or without `@` in front of the name. -/
def injected? (o : RenderOptions) (name : String) : Option String :=
  let key := String.ofList (name.toList.dropWhile (· = '@'))
  o.modifyVars.get? key <|> o.globalVars.get? key

/-- The value of a variable in a file that declares `declared`. -/
def value? (o : RenderOptions) (declared : SortedMap String String) (name : String) : Option String :=
  o.modifyVars.get? name <|> declared.get? name <|> o.globalVars.get? name

/-- The path of a candidate that a plugin claims; the first plugin that claims it wins. -/
def claim? (o : RenderOptions) (candidate : String) (directory : Path) : Option Path :=
  o.plugins.findSome? fun p => p.claim candidate directory

/-- Options are equal when their paths, variables and settings are, and their plugins by name. -/
def beq (a b : RenderOptions) : Bool :=
  a.paths.map Path.components == b.paths.map Path.components
    && a.globalVars == b.globalVars
    && a.modifyVars == b.modifyVars
    && a.plugins.map Plugin.name == b.plugins.map Plugin.name
    && a.extra.entries == b.extra.entries

instance : BEq RenderOptions := ⟨beq⟩

end RenderOptions

end StyleTrack
