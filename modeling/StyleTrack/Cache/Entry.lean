/-
Cache entries: the evidence that was recorded about a root and its dependencies.
-/
import StyleTrack.Evidence
import StyleTrack.SortedMap

namespace StyleTrack

/-- What is remembered about a root. -/
structure CacheEntry where
  root : Path
  evidence : Evidence
  /-- Evidence about every dependency; two spellings of a path are one dependency. -/
  dependencies : SortedMap Path Evidence
deriving DecidableEq

/-- The entry of a root with the given dependencies, of which a later one replaces an earlier one. -/
def CacheEntry.ofList (root : Path) (evidence : Evidence) (dependencies : List (Path × Evidence)) :
    CacheEntry :=
  ⟨root, evidence, .ofList dependencies⟩

end StyleTrack
