/-
A disk: files and directories below a root, and a working directory.

Files and directories are numbered, and a directory says which number stands behind each of its names;
the root has the number 0. A path is followed segment by segment from the root or from the working
directory. What a segment leads through must be a directory, also where the segment is empty or `.`,
as behind a trailing separator; `..` leads to the directory that a directory lies in. Something new
stands in a directory that is there; whether a separator stands behind its name matters for a file
only. There are no links and no rights.
-/
import StyleTrack.File.System
import StyleTrack.SortedMap

namespace StyleTrack

/-! ## Nodes and faults -/

/-- The name of a file or directory. -/
abbrev FileName := List UInt8

/-- What is on a disk under a number. -/
inductive DiskNode where
  | file (content : List UInt8) (modified : Instant)
  /-- A directory, with the number of the one that it lies in; the root lies in itself. -/
  | directory (parent : Nat) (entries : SortedMap FileName Nat)
deriving DecidableEq

/-- A disk and a working directory. -/
structure Disk where
  nodes : Array DiskNode
  /-- The number of the working directory. -/
  working : Nat

namespace Disk

/-- There is nothing at a path. -/
def noEntry : IoFault := ⟨.notFound, "No such file or directory (os error 2)"⟩

/-- Something is there already. -/
def entryExists : IoFault := ⟨.named "AlreadyExists", "File exists (os error 17)"⟩

/-- A path leads through something that is no directory. -/
def notDirectory : IoFault := ⟨.named "NotADirectory", "Not a directory (os error 20)"⟩

/-- A directory stands where a file is wanted. -/
def isDirectory : IoFault := ⟨.named "IsADirectory", "Is a directory (os error 21)"⟩

/-- A name or a path is longer than any can be. -/
def nameTooLong : IoFault := ⟨.named "InvalidFilename", "File name too long (os error 36)"⟩

/-- A path holds a zero byte. -/
def zeroByte : IoFault := ⟨.named "InvalidInput", "file name contained an unexpected NUL byte"⟩

/-- A file that is read as text is not UTF-8. -/
def notText : IoFault := ⟨.invalidData, "stream did not contain valid UTF-8"⟩

/-- The greatest length of a name. -/
def longestName : Nat := 255

/-- The length that a path must stay below. -/
def pathLimit : Nat := 4096

/-! ## Following paths -/

/-- Where a path leads. -/
inductive Place where
  /-- To what is there under a number. -/
  | found (number : Nat)
  /-- To a name that a directory does not have yet. -/
  | missing (directory : Nat) (name : FileName)
deriving DecidableEq, Repr

/-- The parent and the entries of a directory. -/
def directory? (d : Disk) (number : Nat) : Option (Nat × SortedMap FileName Nat) :=
  match d.nodes[number]? with
  | some (.directory parent entries) => some (parent, entries)
  | _ => none

/-- Follows segments from what is there under a number. -/
def follow (d : Disk) (here : Nat) : List FileName → Except IoFault Place
  | [] => .ok (.found here)
  | segment :: rest =>
    match d.directory? here with
    | none => .error notDirectory
    | some (parent, entries) =>
      if segment = [] ∨ segment = [Component.dot] then d.follow here rest
      else if segment = [Component.dot, Component.dot] then d.follow parent rest
      else if longestName < segment.length then .error nameTooLong
      else match entries.get? segment with
        | some number => d.follow number rest
        | none => if rest.all (· = []) then .ok (.missing here segment) else .error noEntry

/-- Where a path starts, unless it is too long or no path at all. -/
def origin (d : Disk) (p : Path) : Except IoFault Nat :=
  if p.bytes.contains 0 then .error zeroByte
  else if p.bytes = [] then .error noEntry
  else if pathLimit ≤ p.bytes.length then .error nameTooLong
  else .ok (if p.isAbsolute then 0 else d.working)

theorem length_lt_of_origin {d : Disk} {p : Path} {start : Nat} (h : d.origin p = .ok start) :
    p.bytes.length < pathLimit := by
  unfold origin at h
  split at h
  · simp at h
  · split at h
    · simp at h
    · split at h
      · simp at h
      · omega

/-- Where a path leads, if it leads anywhere. -/
def locate (d : Disk) (p : Path) : Except IoFault Place :=
  match d.origin p with
  | .error fault => .error fault
  | .ok start => d.follow start p.segments

theorem length_lt_of_locate {d : Disk} {p : Path} {place : Place} (h : d.locate p = .ok place) :
    p.bytes.length < pathLimit := by
  unfold locate at h
  split at h
  · simp at h
  · next ho => exact length_lt_of_origin ho

/-- Where the last name of a path stands, or is to stand. -/
structure Site where
  /-- The directory, which is there. -/
  directory : Nat
  name : FileName
  /-- Whether a separator stands behind the name. -/
  trailing : Bool

/-- Where the last name of a path stands, or is to stand; the root stands in itself. -/
def site (d : Disk) (p : Path) : Except IoFault Site := do
  let start ← d.origin p
  let names := (p.segments.reverse.dropWhile (· = [])).reverse
  match ← d.follow start (names.dropLast ++ [[]]) with
  | .missing .. => throw noEntry
  | .found directory =>
    return ⟨directory, names.getLast?.getD [Component.dot], p.segments.getLast? = some []⟩

/-- What stands at a site already. -/
def occupant (d : Disk) (s : Site) : Except IoFault Place := d.follow s.directory [s.name]

/-! ## Queries -/

/-- What a path leads to. -/
def stat (d : Disk) (p : Path) : Except IoFault DiskNode :=
  match d.locate p with
  | .error fault => .error fault
  | .ok (.missing ..) => .error noEntry
  | .ok (.found number) =>
    match d.nodes[number]? with
    | some node => .ok node
    | none => .error noEntry

/-- The content of a file. -/
def contentOf (d : Disk) (p : Path) : Except IoFault (List UInt8) :=
  match d.stat p with
  | .error fault => .error fault
  | .ok (.directory ..) => .error isDirectory
  | .ok (.file content _) => .ok content

/-- The content of a file as text. -/
def readText (d : Disk) (p : Path) : Except IoFault (List Char) := do
  (Text.Utf8.decode (← d.contentOf p)).mapError fun _ => notText

/-- Whether a path leads to a directory. -/
def hasDirectory (d : Disk) (p : Path) : Bool := d.stat p matches .ok (.directory ..)

/-- Whether a path leads to a file. -/
def hasFile (d : Disk) (p : Path) : Bool := d.stat p matches .ok (.file ..)

/-- Whether a path leads to anything. -/
def contains (d : Disk) (p : Path) : Bool := (d.stat p).isOk

/-- The names in a directory, in order. -/
def namesIn (d : Disk) (p : Path) : List FileName :=
  match d.stat p with
  | .ok (.directory _ entries) => entries.keys
  | _ => []

/-! ## Changes -/

/-- Puts something under a number that is in use. -/
def replace (d : Disk) (number : Nat) (node : DiskNode) : Disk :=
  { d with nodes := d.nodes.setIfInBounds number node }

/-- Changes the entries of a directory. -/
def withEntries (d : Disk) (number : Nat)
    (change : SortedMap FileName Nat → SortedMap FileName Nat) : Disk :=
  match d.directory? number with
  | some (parent, entries) => d.replace number (.directory parent (change entries))
  | none => d

/-- Puts something new under a name in a directory. -/
def add (d : Disk) (directory : Nat) (name : FileName) (node : DiskNode) : Disk :=
  let d' := d.withEntries directory (·.insert name d.nodes.size)
  { d' with nodes := d'.nodes.push node }

/-- Writes a file in a directory that is there. Its name must not have a separator behind it. -/
def setFile (d : Disk) (p : Path) (content : List UInt8) (modified : Instant) : Except IoFault Disk := do
  let site ← d.site p
  if site.trailing then throw isDirectory
  match ← d.occupant site with
  | .missing directory name => return d.add directory name (.file content modified)
  | .found number =>
    if (d.directory? number).isSome then throw isDirectory
    return d.replace number (.file content modified)

/-- Removes a file. Its name must not have a separator behind it. -/
def eraseFile (d : Disk) (p : Path) : Except IoFault Disk := do
  let site ← d.site p
  match ← d.occupant site with
  | .missing .. => throw noEntry
  | .found number =>
    if (d.directory? number).isSome then throw isDirectory
    if site.trailing then throw notDirectory
    return d.withEntries site.directory (·.erase site.name)

/-- Makes a directory in one that is there. -/
def makeDirectory (d : Disk) (p : Path) : Except IoFault Disk := do
  match ← d.occupant (← d.site p) with
  | .missing directory name => return d.add directory name (.directory directory .empty)
  | .found _ => throw entryExists

/-- Makes a directory whose parent is there; one that is there already is as good. -/
def ensureDirectory (d : Disk) (p : Path) : Except IoFault Unit × Disk :=
  match d.makeDirectory p with
  | .ok d => (.ok (), d)
  | .error fault => (if d.hasDirectory p then .ok () else .error fault, d)

/-- Makes a directory and the ones that it lies in, at most `depth` of them. -/
def ensureDirectoriesFrom (d : Disk) : (depth : Nat) → Path → Except IoFault Unit × Disk
  | 0, p => d.ensureDirectory p
  | depth + 1, p =>
    if p.bytes = [] then (.ok (), d)
    else match d.makeDirectory p with
      | .ok d => (.ok (), d)
      | .error fault =>
        if fault.kind ≠ .notFound then (if d.hasDirectory p then .ok () else .error fault, d)
        else match p.parent? with
          | none => (.error ⟨.named "Uncategorized", "failed to create whole tree"⟩, d)
          | some parent =>
            match d.ensureDirectoriesFrom depth parent with
            | (.error fault, d) => (.error fault, d)
            | (.ok (), d) => d.ensureDirectory p

/-- Makes a directory and all those that it lies in. Those that were made stay where one of them cannot
be. -/
def ensureDirectories (d : Disk) (p : Path) : Except IoFault Unit × Disk :=
  d.ensureDirectoriesFrom (p.components.length + 1) p

/-- The disk that holds nothing but a root. -/
def root : Disk := ⟨#[.directory 0 .empty], 0⟩

/-- The disk that holds nothing but an empty working directory, which lies under some names. -/
def empty (working : List FileName) : Disk :=
  working.foldl (fun d name =>
    { d.add d.working name (.directory d.working .empty) with working := d.nodes.size }) root

/-! ## The file system -/

theorem exists_lists (n : Nat) :
    ∃ all : List (List UInt8), ∀ l : List UInt8, l.length ≤ n → l ∈ all := by
  induction n with
  | zero => exact ⟨[[]], fun l h => by simp_all⟩
  | succ n ih =>
    obtain ⟨all, hall⟩ := ih
    refine ⟨[] :: all.flatMap fun l => (List.range 256).map fun b => UInt8.ofNat b :: l, fun l h => ?_⟩
    cases l with
    | nil => simp
    | cons b l =>
      refine List.mem_cons_of_mem _ (List.mem_flatMap.2 ⟨l, hall l (by simpa using h), ?_⟩)
      exact List.mem_map.2 ⟨b.toNat, List.mem_range.2 b.toNat_lt, by simp⟩

/-- Whether a path is there, or why that cannot be told. -/
def existence (d : Disk) (p : Path) : Except FileError Bool :=
  match d.stat p with
  | .ok _ => .ok true
  | .error fault => if fault.kind = .notFound then .ok false else .error (.ofIo p fault)

/-- When a file was last modified. -/
def modified (d : Disk) (p : Path) : Except IoFault Instant := do
  match ← d.stat p with
  | .directory .. => return ⟨0, 0⟩
  | .file _ modified => return modified

/-- The file system that a disk is. -/
def system (d : Disk) : FileSystem where
  read p := (d.contentOf p).mapError (.ofIo p)
  contains := d.existence
  modified p := (d.modified p).mapError (.ofIo p)
  finite := by
    obtain ⟨all, hall⟩ := exists_lists pathLimit
    refine ⟨all.map fun bytes => (Path.mk bytes).components, fun p bytes h _ => ?_⟩
    refine List.mem_map.2 ⟨p.bytes, hall _ ?_, rfl⟩
    cases hl : d.locate p with
    | error fault =>
      rw [contentOf, stat, hl] at h
      cases h
    | ok place => exact Nat.le_of_lt (length_lt_of_locate hl)

end Disk

end StyleTrack
