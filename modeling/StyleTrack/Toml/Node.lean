/-
Tables under construction.

A table can be introduced in three ways, and the way decides what may still be added to it: by a
header of its own, as the parent in a header of another table, or as the parent in a dotted key.
-/
import StyleTrack.Toml.Value

namespace StyleTrack.Toml

/-! ## Nodes -/

/-- How a table came to be. -/
inductive Origin where
  /-- By a header of its own, or as the document. -/
  | header
  /-- As a parent in the header of another table. -/
  | implied
  /-- As a parent in a dotted key. -/
  | dotted
deriving DecidableEq, Repr

/-- What stands under a key while a document is read. -/
inductive Node where
  | value (v : Value)
  | table (origin : Origin) (entries : List (String × Node))
  /-- Tables that were introduced one by one under the same header. -/
  | tables (elements : List (List (String × Node)))

/-- The entries of a table, in the order in which they were introduced. -/
abbrev Nodes := List (String × Node)

namespace Nodes

/-- What stands under a key. -/
def get? (nodes : Nodes) (key : String) : Option Node := nodes.lookup key

/-- Puts something under a key; a new key goes to the end. -/
def set (nodes : Nodes) (key : String) (node : Node) : Nodes :=
  if (nodes.lookup key).isSome then nodes.map fun e => if e.1 = key then (key, node) else e
  else nodes ++ [(key, node)]

/-- Puts something under a key that must be vacant. -/
def add? (nodes : Nodes) (key : String) (node : Node) : Option Nodes :=
  if (nodes.get? key).isSome then none else some (nodes ++ [(key, node)])

/-- Takes a key away. -/
def remove (nodes : Nodes) (key : String) : Nodes := nodes.filter fun e => e.1 ≠ key

/-! ## Paths -/

/-- The origin of a table that is introduced as a parent. -/
def parentOrigin (isDotted : Bool) : Origin := if isDotted then .dotted else .implied

/-- Changes the table at the end of a path, which introduces the parents that are missing. A path
leads into the last of several tables, never into a value, and a dotted path not into a table that has
a header of its own. -/
def within (isDotted : Bool) (change : Origin → Nodes → Option Nodes) :
    (path : List String) → Origin → Nodes → Option Nodes
  | [], origin, nodes => change origin nodes
  | key :: path, _, nodes =>
    match nodes.get? key with
    | none => do
      let inner ← within isDotted change path (parentOrigin isDotted) []
      return nodes.set key (.table (parentOrigin isDotted) inner)
    | some (.value _) => none
    | some (.table origin inner) =>
      if isDotted && origin = .header then none
      else do
        let inner ← within isDotted change path origin inner
        return nodes.set key (.table origin inner)
    | some (.tables elements) => do
      let last ← elements.getLast?
      let last ← within isDotted change path .header last
      return nodes.set key (.tables (elements.dropLast ++ [last]))

/-- Adds a value under a key that may be dotted. -/
def addValue? (nodes : Nodes) (path : List String) (key : String) (v : Value) : Option Nodes :=
  within true
    (fun origin inner => if path ≠ [] && origin ≠ .dotted then none else inner.add? key (.value v))
    path .header nodes

end Nodes

/-! ## Values -/

mutual

/-- The value that a node stands for. -/
def Node.toValue : Node → Value
  | .value v => v
  | .table _ entries => .table (toTable entries)
  | .tables elements => .array (toTables elements)

/-- The table that entries stand for. -/
def toTable : List (String × Node) → Table
  | [] => []
  | (key, node) :: rest => (key, node.toValue) :: toTable rest

/-- The tables that lists of entries stand for. -/
def toTables : List (List (String × Node)) → List Value
  | [] => []
  | entries :: rest => .table (toTable entries) :: toTables rest

end

end StyleTrack.Toml
