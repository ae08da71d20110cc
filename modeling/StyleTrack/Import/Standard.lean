/-
The standard lister: imports are expanded and resources located by searching one file system.
-/
import StyleTrack.Import.Expansion
import StyleTrack.Import.Listing

namespace StyleTrack

/-- The lister over a file system with given options. -/
def Lister.standard (fs : FileSystem) (options : RenderOptions) : Lister where
  processor := Expansion.processor fs (.searching fs)
  locate := .searching fs
  fs := fs
  options := options

end StyleTrack
