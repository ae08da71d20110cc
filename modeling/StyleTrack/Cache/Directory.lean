/-
A store in a directory: one document for each key.

A change holds the lock file of the key, which is left behind. An entry is written as a whole and only
then takes the place of the one before, so a failed change leaves the stored entries as they were.
-/
import StyleTrack.Cache.Record
import StyleTrack.Cache.Store
import StyleTrack.File.Disk

namespace StyleTrack.DirectoryStore

/-! ## Files -/

/-- The file of a key with an extension. -/
def fileOf (dir : Path) (key : CacheKey) (extension : String) : Path :=
  dir.join (Path.ofString (key.digest ++ extension))

/-- Where the entry of a key lives. -/
def entryPath (dir : Path) (key : CacheKey) : Path := fileOf dir key ".toml"

/-- The lock file of a key. -/
def lockPath (dir : Path) (key : CacheKey) : Path := fileOf dir key ".lock"

/-- The failure that a fault of the disk is. -/
def access (fault : IoFault) : StoreError := .access fault.message

/-! ## Operations -/

/-- What the text of an entry file says about a key. A document of another root is as good as none. -/
def interpret (path : Path) (key : CacheKey) (text : List Char) : Except StoreError (Option CacheEntry) :=
  match CacheRecord.read text with
  | none => .error (.corrupted path "the document is not a cache entry")
  | some r =>
    if r.version ≠ CacheRecord.currentVersion then .error (.version r.version CacheRecord.currentVersion)
    else if r.root ≠ key.path then .ok none
    else .ok (some r.toEntry)

/-- The entry under a key. -/
def load (dir : Path) (key : CacheKey) (d : Disk) : Except StoreError (Option CacheEntry) :=
  match d.readText (entryPath dir key) with
  | .error fault => if fault.kind = .notFound then .ok none else .error (access fault)
  | .ok text => interpret (entryPath dir key) key text

/-- The disk with the directory and the lock file of a key, or how far that went. -/
def locked (dir : Path) (key : CacheKey) (d : Disk) : Except StoreError Unit × Disk :=
  match d.ensureDirectories dir with
  | (.error fault, d) => (.error (access fault), d)
  | (.ok (), d) =>
    match d.setFile (lockPath dir key) [] ⟨0, 0⟩ with
    | .error fault => (.error (access fault), d)
    | .ok d => (.ok (), d)

/-- The bytes of the document of an entry that is written at the time `now`. -/
def document (now : String) (key : CacheKey) (entry : CacheEntry) : Except StoreError (List UInt8) := do
  let text ← ((CacheRecord.ofEntry now key entry).bind CacheRecord.text).mapError .serialization
  return Text.Utf8.encode text

/-- Puts an entry under a key. -/
def save (dir : Path) (now : String) (key : CacheKey) (entry : CacheEntry) (d : Disk) :
    Except StoreError Unit × Disk :=
  match locked dir key d with
  | (.error e, d) => (.error e, d)
  | (.ok (), d) =>
    match document now key entry with
    | .error e => (.error e, d)
    | .ok bytes =>
      match d.setFile (entryPath dir key) bytes ⟨0, 0⟩ with
      | .error fault => (.error (access fault), d)
      | .ok d => (.ok (), d)

/-- Takes away the entry under a key. -/
def delete (dir : Path) (key : CacheKey) (d : Disk) : Except StoreError Unit × Disk :=
  if !d.contains dir then (.ok (), d)
  else match locked dir key d with
    | (.error e, d) => (.error e, d)
    | (.ok (), d) =>
      match d.eraseFile (entryPath dir key) with
      | .ok d => (.ok (), d)
      | .error fault => if fault.kind = .notFound then (.ok (), d) else (.error (access fault), d)

/-- The store in a directory, at the time `now`. -/
def store (dir : Path) (now : String) : Store Disk where
  load := load dir
  save := save dir now
  delete := delete dir

end StyleTrack.DirectoryStore
