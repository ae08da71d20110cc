/-
The standard detector: the standard lister and the evidence of one file system, and any store.
-/
import StyleTrack.Change.Detector
import StyleTrack.Import.Standard

namespace StyleTrack

/-- The detector over a file system with given options. -/
def Detector.standard {σ : Type} (fs : FileSystem) (options : RenderOptions) (store : Store σ)
    (kind : EvidenceKind) (base : Path) : Detector σ where
  lister := .standard fs options
  store := store
  kind := kind
  base := base

end StyleTrack
