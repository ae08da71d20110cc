/-
Layers of configuration: the project's file, else the user's file, else the defaults, and over all of
them what the environment says.
-/
import StyleTrack.Config.Reader

namespace StyleTrack

/-- What the environment says. -/
structure Environment where
  /-- The value of a variable. -/
  get? : String → Option (List UInt8)
  /-- The home directory of the user's account. -/
  accountHome : Option Path

namespace Environment

/-! ## Directories of the user -/

/-- The directory in a variable, if it is absolute. -/
def absolute? (env : Environment) (name : String) : Option Path :=
  ((env.get? name).map Path.mk).filter Path.isAbsolute

/-- The value of a variable, unless it is empty. -/
def nonempty? (env : Environment) (name : String) : Option (List UInt8) := (env.get? name).filter (· ≠ [])

/-- The home directory: the one that the environment names, or else the one of the account. -/
def home? (env : Environment) : Option Path := (env.nonempty? "HOME").map Path.mk <|> env.accountHome

/-- The directory in a variable, or else a directory below the home directory. -/
def directory? (env : Environment) (name below : String) : Option Path :=
  env.absolute? name <|> env.home?.map fun home => home.join (Path.ofString below)

/-- The user's configuration directory. -/
def configDirectory? (env : Environment) : Option Path := env.directory? "XDG_CONFIG_HOME" ".config"

/-- Where entries are stored by default. -/
def defaultCacheDirectory (env : Environment) : Path :=
  match env.directory? "XDG_CACHE_HOME" ".cache" with
  | some dir => dir.join (Path.ofString "lessdeps")
  | none => Path.ofString ".lessdeps-cache"

end Environment

/-- Where entries are stored. -/
def CacheConfig.directory (c : CacheConfig) (env : Environment) : Path := c.dir.getD env.defaultCacheDirectory

namespace Config

/-! ## Overrides -/

/-- The byte between the paths of a list. -/
def colon : UInt8 := 0x3A

/-- The kind of evidence that the environment asks for, if it names one. -/
def evidenceOverride? (env : Environment) : Option EvidenceKind := do
  let word ← Text.Utf8.toString? (← env.get? "LESSDEPS_EVIDENCE")
  (EvidenceKind.parse word).toOption

/-- The paths that the environment asks for. -/
def pathsOverride? (env : Environment) : Option (List Path) :=
  (env.nonempty? "LESSDEPS_PATHS").map fun list => (list.splitOn colon).map Path.mk

/-- The configuration with what the environment says in place of what it says itself. -/
def overridden (c : Config) (env : Environment) : Config where
  resolver := { c.resolver with paths := (pathsOverride? env).getD c.resolver.paths }
  cache := {
    dir := ((env.nonempty? "LESSDEPS_CACHE_DIR").map Path.mk) <|> c.cache.dir
    evidence := (evidenceOverride? env).getD c.cache.evidence }

/-! ## Layers -/

/-- The files that may hold the configuration of a project, in the order in which they are tried. -/
def candidates (env : Environment) (project : Option Path) : List Path :=
  (project.map (·.join (Path.ofString "lessdeps.toml"))).toList
    ++ (env.configDirectory?.map fun dir =>
      (dir.join (Path.ofString "lessdeps")).join (Path.ofString "config.toml")).toList

/-- The configuration of a project and the diagnostics about its file. -/
def loadLayers (d : Disk) (env : Environment) (project : Option Path) :
    Except ConfigError (Config × List Diagnostic) :=
  match (candidates env project).find? d.hasFile with
  | none => .ok (({} : Config).overridden env, [])
  | some file => (load d file).map fun (c, diagnostics) => (c.overridden env, diagnostics)

end Config

end StyleTrack
