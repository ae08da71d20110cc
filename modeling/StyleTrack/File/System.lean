/-
File systems, as far as tracking asks about them: what a file holds, whether a path exists, and when
a file was modified.

A file system answers by path and does not change while it is asked. A file may be there under any
number of paths, but finitely many of them are those of readable files that import others, which is
why following imports from file to file ends, wherever they lead.
-/
import StyleTrack.File.Error
import StyleTrack.Digest.Sha256
import StyleTrack.Source.Comment
import StyleTrack.Source.Directive
import StyleTrack.Text.Utf8

namespace StyleTrack

/-- A moment, in seconds and nanoseconds after the epoch. -/
structure Instant where
  secs : Int
  nanos : Nat
deriving DecidableEq, Repr

/-- Whether the bytes of a file are a text that imports something. -/
def ImportsSomething (bytes : List UInt8) : Prop :=
  ∃ text directives, Text.Utf8.decode bytes = .ok text ∧
    Source.Directive.parse (Source.stripComments text) = .ok directives ∧ directives ≠ []

/-- A file system as it is at one moment. -/
structure FileSystem where
  /-- The bytes of a file. -/
  read : Path → Except FileError (List UInt8)
  /-- Whether a path exists. -/
  contains : Path → Except FileError Bool
  /-- When a file was last modified. -/
  modified : Path → Except FileError Instant
  /-- Only finitely many paths are those of readable files that import something. -/
  finite : ∃ keys : List (List Component),
    ∀ p bytes, read p = .ok bytes → ImportsSomething bytes → p.components ∈ keys

namespace FileSystem

/-- The paths of the readable files that import something, as components. -/
noncomputable def keys (fs : FileSystem) : List (List Component) := Classical.choose fs.finite

theorem mem_keys {fs : FileSystem} {p : Path} {bytes : List UInt8} (h : fs.read p = .ok bytes)
    (himports : ImportsSomething bytes) : p.components ∈ fs.keys :=
  Classical.choose_spec fs.finite p bytes h himports

end FileSystem

end StyleTrack
