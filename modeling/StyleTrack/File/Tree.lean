/-
A file system in memory: files under paths, without directories, and faults that are put in the way
of queries.

A query about a path meets the first fault that stands there for it and only then looks for the file.
-/
import StyleTrack.File.System
import StyleTrack.SortedMap

namespace StyleTrack

/-! ## Files and faults -/

/-- A file in memory. -/
structure StoredFile where
  content : List UInt8
  modified : Instant
deriving DecidableEq, Repr

/-- What can be asked about a path. -/
inductive Query where
  | read
  | contains
  | modified
deriving DecidableEq, Repr

/-- A fault that stands at a path. -/
structure Obstacle where
  path : Path
  /-- The query that it stops, or every query. -/
  query : Option Query
  /-- What the query reports, given the path as it was asked. -/
  error : Path → FileError

/-- Whether a fault stops a query about a path. -/
def Obstacle.stops (o : Obstacle) (query : Query) (p : Path) : Bool :=
  o.path.same p && (o.query = none || o.query = some query)

/-- Files under paths and faults in their way. -/
structure FileTree where
  files : SortedMap Path StoredFile
  obstacles : List Obstacle

namespace FileTree

/-! ## Queries -/

/-- The file that a query about a path reaches. -/
def lookup (t : FileTree) (query : Query) (p : Path) : Except FileError StoredFile :=
  match t.obstacles.find? (·.stops query p) with
  | some o => .error (o.error p)
  | none =>
    match t.files.get? p with
    | some file => .ok file
    | none => .error (.notFound p)

theorem lookup_eq_ok {t : FileTree} {query : Query} {p : Path} {file : StoredFile}
    (h : t.lookup query p = .ok file) : t.files.get? p = some file := by
  unfold lookup at h
  split at h
  · simp at h
  · split at h
    · rename_i heq
      cases h
      exact heq
    · simp at h

/-- Whether a path exists; only a fault other than a missing file leaves this open. -/
def existence (t : FileTree) (p : Path) : Except FileError Bool :=
  match t.lookup .contains p with
  | .ok _ => .ok true
  | .error e => if e.isNotFound then .ok false else .error e

theorem components_mem_of_find? {p : Path} {file : StoredFile} {l : List (Path × StoredFile)}
    (h : SortedMap.find? p l = some file) : p.components ∈ l.map (·.1.components) := by
  induction l with
  | nil => simp [SortedMap.find?] at h
  | cons e rest ih =>
    unfold SortedMap.find? at h
    split at h
    · rename_i heq
      simp [Path.compare_eq_iff.1 heq]
    · exact List.mem_cons_of_mem _ (ih h)

/-- The file system that a tree is. -/
def system (t : FileTree) : FileSystem where
  read p := (t.lookup .read p).map (·.content)
  contains := t.existence
  modified p := (t.lookup .modified p).map (·.modified)
  finite := by
    refine ⟨t.files.entries.map (·.1.components), fun p bytes h _ => ?_⟩
    cases hl : t.lookup .read p with
    | error e => rw [hl] at h; cases h
    | ok file => exact components_mem_of_find? (lookup_eq_ok hl)

/-! ## Changes -/

/-- Writes a file. -/
def write (t : FileTree) (p : Path) (file : StoredFile) : FileTree :=
  { t with files := t.files.insert p file }

/-- Removes a file. -/
def remove (t : FileTree) (p : Path) : FileTree := { t with files := t.files.erase p }

/-- Puts a fault behind those that are there. -/
def obstruct (t : FileTree) (o : Obstacle) : FileTree := { t with obstacles := t.obstacles ++ [o] }

/-- Takes away every fault at a path. -/
def clear (t : FileTree) (p : Path) : FileTree :=
  { t with obstacles := t.obstacles.filter fun o => !o.path.same p }

end FileTree

end StyleTrack
