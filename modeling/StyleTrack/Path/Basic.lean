/-
Paths as byte strings, read as sequences of components.

A path keeps the spelling it was given, and that spelling is what is displayed and handed to the
file system. Two paths are the same path when their components agree: repeated separators, a
trailing separator and `.` components other than a leading one carry no meaning, while `..` is a
component like any other. The order of paths is the order of their components, so it is an order up
to sameness and not up to spelling.
-/
import StyleTrack.Text.Utf8

namespace StyleTrack

/-! ## Components -/

/-- One component of a path. -/
inductive Component where
  /-- The root of the file system, at the start of an absolute path. -/
  | root
  /-- A leading `.`. -/
  | current
  /-- A `..`. -/
  | parent
  /-- The name of a file or directory. -/
  | name (bytes : List UInt8)
deriving DecidableEq, Repr

namespace Component

/-- The byte of `/`. -/
def slash : UInt8 := 0x2F

/-- The byte of `.`. -/
def dot : UInt8 := 0x2E

/-- What a component is written as. -/
def text : Component → List UInt8
  | root => [slash]
  | current => [dot]
  | parent => [dot, dot]
  | name bytes => bytes

/-- The component that a segment between separators stands for, if it stands for one. -/
def ofSegment (segment : List UInt8) : Option Component :=
  if segment = [] ∨ segment = [dot] then none
  else if segment = [dot, dot] then some parent
  else some (name segment)

/-- The kind of a component, in the order of kinds. -/
def rank : Component → Nat
  | root => 0
  | current => 1
  | parent => 2
  | name _ => 3

/-- The bytes of a name, and nothing for the other kinds. -/
def nameBytes : Component → List UInt8
  | name bytes => bytes
  | _ => []

/-- The root comes first, then `.`, then `..`, then the names in the order of their bytes. -/
instance : Ord Component := ⟨compareLex (compareOn rank) (compareOn nameBytes)⟩

instance : Std.TransOrd Component :=
  inferInstanceAs (Std.TransCmp (compareLex (compareOn rank) (compareOn nameBytes)))

instance : Std.LawfulEqOrd Component where
  compare_self := by intro a; exact Std.ReflCmp.compare_self
  eq_of_compare := by
    intro a b h
    have h' : (compare a.rank b.rank).then (compare a.nameBytes b.nameBytes) = .eq := h
    rw [Ordering.then_eq_eq, Std.LawfulEqOrd.compare_eq_iff_eq, Std.LawfulEqOrd.compare_eq_iff_eq] at h'
    cases a <;> cases b <;> simp_all [rank, nameBytes]

end Component

/-! ## Paths -/

/-- A path, in the spelling it was given. -/
structure Path where
  bytes : List UInt8
deriving DecidableEq, Repr

namespace Path

open Component (slash dot)

/-- The path that a string spells. -/
def ofString (s : String) : Path := ⟨Text.Utf8.ofString s⟩

/-- The empty path. -/
def empty : Path := ⟨[]⟩

instance : Inhabited Path := ⟨empty⟩

/-- Whether the path starts at the root. -/
def isAbsolute (p : Path) : Bool := p.bytes.head? == some slash

/-- The pieces between separators, empty ones included. -/
def segments (p : Path) : List (List UInt8) := p.bytes.splitOn slash

/-- Whether the path starts with a `.` component. -/
def startsCurrent (p : Path) : Bool := p.segments.head? == some [dot]

/-- The components of the path. -/
def components (p : Path) : List Component :=
  let body := p.segments.filterMap Component.ofSegment
  if p.isAbsolute then .root :: body
  else if p.startsCurrent then .current :: body
  else body

/-- The path as text: U+FFFD stands for every part that is not UTF-8. -/
def display (p : Path) : String := Text.Utf8.toStringLossy p.bytes

/-- The path as text, if its bytes are UTF-8. -/
def toString? (p : Path) : Option String := Text.Utf8.toString? p.bytes

/-- Writes components one after the other, separated by `/`. -/
def joinComponents (cs : List Component) : List UInt8 := [slash].intercalate (cs.map Component.text)

/-- The plainest spelling of a sequence of components. -/
def ofComponents : List Component → Path
  | .root :: rest => ⟨slash :: joinComponents rest⟩
  | cs => ⟨joinComponents cs⟩

/-! ## Sameness and order -/

/-- Whether two paths are the same path, however they are spelled. -/
def same (p q : Path) : Bool := p.components = q.components

/-- Paths are ordered component by component. -/
instance : Ord Path := ⟨compareOn components⟩

instance : Std.TransOrd Path := inferInstanceAs (Std.TransCmp (compareOn components))

theorem compare_def (p q : Path) : compare p q = compare p.components q.components := rfl

theorem compare_eq_iff {p q : Path} : compare p q = .eq ↔ p.components = q.components := by
  rw [compare_def, Std.LawfulEqOrd.compare_eq_iff_eq]

theorem same_iff {p q : Path} : p.same q = true ↔ p.components = q.components := by simp [same]

/-! ## Neighbours of a path -/

/-- Appends a path: an absolute one replaces, any other goes after a separator. -/
def join (base p : Path) : Path :=
  if p.isAbsolute then p
  else if base.bytes = [] ∨ base.bytes.getLast? = some slash then ⟨base.bytes ++ p.bytes⟩
  else ⟨base.bytes ++ slash :: p.bytes⟩

/-- Whether a segment carries no component. -/
def isTrivial (segment : List UInt8) : Bool := (Component.ofSegment segment).isNone

/-- How many bytes of the spelling come before the segments that can be taken away. -/
def headLength (p : Path) : Nat := if p.isAbsolute || p.startsCurrent then 1 else 0

/-- The path without its last component, in the spelling that is left; the root and the empty path
have no parent. -/
def parent? (p : Path) : Option Path :=
  match p.components.getLast? with
  | none | some .root => none
  | some .current => some empty
  | some _ =>
    let body := (p.bytes.drop p.headLength).splitOn slash
    let kept := ((body.reverse.dropWhile isTrivial).drop 1).dropWhile isTrivial
    some ⟨p.bytes.take p.headLength ++ [slash].intercalate kept.reverse⟩

/-- The directory a file lies in: its parent, or the empty path where there is none. -/
def directory (p : Path) : Path := p.parent?.getD empty

/-- The last component, if it is a name. -/
def fileName? (p : Path) : Option (List UInt8) :=
  match p.components.getLast? with
  | some (.name bytes) => some bytes
  | _ => none

/-- What follows the last dot of the file name, if a dot other than a leading one is there. -/
def extension? (p : Path) : Option (List UInt8) := do
  let name ← p.fileName?
  let tail := name.reverse.takeWhile (· ≠ dot)
  match name.reverse.dropWhile (· ≠ dot) with
  | [] | [_] => none
  | _ => some tail.reverse

end Path

end StyleTrack
