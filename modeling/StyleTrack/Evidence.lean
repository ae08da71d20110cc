/-
Evidence of change: what is remembered about a file in order to tell later whether it changed.

Evidence is either the time of the last modification or a digest of the content. Evidence of two
kinds is never equal.
-/
import StyleTrack.File.System
import StyleTrack.Text.Blank
import StyleTrack.Text.Lowercase

namespace StyleTrack

/-! ## Kinds -/

/-- What evidence is taken from. -/
inductive EvidenceKind where
  | mtime
  | content
deriving DecidableEq, Repr

namespace EvidenceKind

instance : Inhabited EvidenceKind := ⟨mtime⟩

/-- The name of a kind. -/
def name : EvidenceKind → String
  | mtime => "mtime"
  | content => "content"

/-- The kind that a setting names, or the setting as it was read: blanks around it and the case of its
letters do not matter. -/
def parse (s : String) : Except String EvidenceKind :=
  let word := String.ofList (Text.toLowercase (Text.trim s.toList))
  if word = "mtime" ∨ word = "modified" then .ok mtime
  else if word = "content" ∨ word = "hash" ∨ word = "sha256" then .ok content
  else .error word

/-- The text that says that a setting names no kind. -/
def unknownMessage (word : String) : String := s!"unknown evidence kind '{word}'"

end EvidenceKind

/-! ## Digests of content -/

/-- The digest of a content, as hexadecimal digits. -/
structure ContentHash where
  digest : String
deriving DecidableEq, Repr

namespace ContentHash

/-- The name of the digest, in front of its digits. -/
def scheme : String := "sha256:"

/-- The digest of some bytes. -/
def ofBytes (bytes : List UInt8) : ContentHash := ⟨Digest.Sha256.hex bytes⟩

/-- The digest with one name of it in front taken away, if it stands there. -/
def dropScheme (text : List Char) : List Char :=
  if scheme.toList.isPrefixOf text then text.drop scheme.length else text

/-- The digest that was written down, with or without its name, in letters of either case. -/
def ofStored (text : String) : ContentHash := ⟨String.ofList ((dropScheme text.toList).map Char.toLower)⟩

/-- The digest with its name in front. -/
def text (h : ContentHash) : String := scheme ++ h.digest

end ContentHash

/-! ## Evidence -/

/-- Evidence about one file. -/
inductive Evidence where
  /-- The time of the last modification, in seconds and nanoseconds after the epoch. -/
  | modified (secs nanos : Nat)
  /-- The digest of the content. -/
  | content (hash : ContentHash)
deriving DecidableEq, Repr

namespace Evidence

/-- The evidence that a time is; a time before the epoch counts as the epoch. -/
def ofInstant (t : Instant) : Evidence := if t.secs < 0 then modified 0 0 else modified t.secs.toNat t.nanos

/-- The kind of evidence. -/
def kind : Evidence → EvidenceKind
  | modified .. => .mtime
  | content _ => .content

/-- A number below 10⁹ in nine digits. -/
def nineDigits (n : Nat) : String :=
  let digits := toString n
  String.ofList (List.replicate (9 - digits.length) '0') ++ digits

/-- The evidence as text. -/
def text : Evidence → String
  | modified secs nanos => s!"mtime:{secs}.{nineDigits nanos}"
  | content hash => hash.text

/-- The evidence of a kind about a file as it is now. -/
def collect (kind : EvidenceKind) (fs : FileSystem) (p : Path) : Except FileError Evidence :=
  match kind with
  | .mtime => (fs.modified p).map ofInstant
  | .content => (fs.read p).map fun bytes => content (.ofBytes bytes)

end Evidence

end StyleTrack
