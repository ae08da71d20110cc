/-
TOML documents: the tables that the lines of a document make up.

The entries after a header belong to the table of the header. They are collected apart and take their
place in the document when the next header comes or the document ends. A table that was only implied
by the header of another one is taken out while its own entries are collected, and so moves to the end.
-/
import StyleTrack.Toml.Line

namespace StyleTrack.Toml

open StyleTrack.Text (Parser)

/-! ## Sections -/

/-- Where the entries of a section go. -/
inductive Target where
  /-- To the document itself. -/
  | document
  /-- To the table under a key. -/
  | table (path : List String) (key : String)
  /-- To one more table under a key. -/
  | element (path : List String) (key : String)

/-- A document under construction. -/
structure Draft where
  /-- The finished sections. -/
  root : Nodes
  /-- Where the entries that are collected go. -/
  target : Target
  /-- The entries that are collected. -/
  current : Nodes

namespace Draft

/-- The draft of a document of which nothing is read. -/
def empty : Draft := ⟨[], .document, []⟩

/-- The document when the collected entries have taken their place. -/
def finish (d : Draft) : Option Nodes :=
  match d.target with
  | .document => some d.current
  | .table path key =>
    Nodes.within false (fun _ nodes => nodes.add? key (.table .header d.current)) path .header d.root
  | .element path key =>
    Nodes.within false
      (fun _ nodes =>
        match nodes.get? key with
        | some (.tables elements) => some (nodes.set key (.tables (elements ++ [d.current])))
        | _ => none)
      path .header d.root

/-- What is there already of a table that gets a header: nothing, or what its children implied. -/
def reopened? (nodes : Nodes) (key : String) : Option Nodes :=
  match nodes.get? key with
  | none => some []
  | some (.table .implied inner) => some inner
  | some _ => none

/-- The entries at the end of a path of headers, where what is missing has none. -/
def entriesAt (nodes : Nodes) : List String → Nodes
  | [] => nodes
  | key :: path =>
    match nodes.get? key with
    | some (.table _ inner) => entriesAt inner path
    | some (.tables elements) => entriesAt (elements.getLast?.getD []) path
    | _ => []

/-- Takes in one more line. -/
def add (d : Draft) : Line → Option Draft
  | .empty => some d
  | .entry path key v => do return { d with current := ← d.current.addValue? path key v }
  | .table path key => do
    let root ← d.finish
    let inner ← reopened? (entriesAt root path) key
    let root ← Nodes.within false (fun _ nodes => some (nodes.remove key)) path .header root
    return ⟨root, .table path key, inner⟩
  | .element path key => do
    let root ← d.finish
    let root ← Nodes.within false
      (fun _ nodes =>
        match nodes.get? key with
        | none => nodes.add? key (.tables [])
        | some (.tables _) => some nodes
        | some _ => none)
      path .header root
    return ⟨root, .element path key, []⟩

end Draft

/-! ## Documents -/

/-- A text without a byte order mark in front. -/
def dropByteOrderMark : List Char → List Char
  | '\uFEFF' :: rest => rest
  | text => text

/-- The table that a document is, or nothing if the text is no document. -/
def read (text : List Char) : Option Table := do
  let (found, _) ← lines (dropByteOrderMark text)
  let draft ← found.foldlM Draft.add .empty
  return toTable (← draft.finish)

end StyleTrack.Toml
