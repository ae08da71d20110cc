/-
Cache keys: the names under which entries are stored, one for each root.

A key is the digest of the normalized absolute path of the root, so the spellings of one path share a
key, and a key can always be the name of a file.
-/
import StyleTrack.Path.Normalize
import StyleTrack.Digest.Sha256

namespace StyleTrack

/-- The key of a root. -/
structure CacheKey where
  /-- The digest, in hexadecimal digits. -/
  digest : String
  /-- The normalized path that the digest is taken of. -/
  path : String
deriving DecidableEq, Repr

/-- The key of a root that is taken relative to `base` unless it is absolute. -/
def CacheKey.ofRoot (base root : Path) : CacheKey :=
  let path := root.normalizeIn base
  ⟨Digest.Sha256.hex (Text.Utf8.ofString path), path⟩

end StyleTrack
