/-
Faults of file queries.

A fault of the machine below has a kind and a message of its own. A query reports it together with
the path it was asked about; two kinds are common enough to be causes of their own.
-/
import StyleTrack.Path.Basic

namespace StyleTrack

/-! ## Faults of the machine -/

/-- The kind of an input or output fault. -/
inductive IoKind where
  /-- There is no such file. -/
  | notFound
  /-- The file may not be used so. -/
  | permissionDenied
  /-- The operation was interrupted and can be tried again. -/
  | interrupted
  /-- The data are not what they ought to be. -/
  | invalidData
  /-- Any other kind, by name. -/
  | named (name : String)
deriving DecidableEq, Repr

/-- The name of a kind. -/
def IoKind.name : IoKind → String
  | notFound => "NotFound"
  | permissionDenied => "PermissionDenied"
  | interrupted => "Interrupted"
  | invalidData => "InvalidData"
  | named name => name

/-- The kind with a name. -/
def IoKind.ofName (name : String) : IoKind :=
  if name = "NotFound" then notFound
  else if name = "PermissionDenied" then permissionDenied
  else if name = "Interrupted" then interrupted
  else if name = "InvalidData" then invalidData
  else named name

/-- An input or output fault. -/
structure IoFault where
  kind : IoKind
  message : String
deriving DecidableEq, Repr

/-- The fault of bytes that are not UTF-8. -/
def IoFault.ofUtf8 (f : Text.Utf8.Fault) : IoFault := ⟨.invalidData, f.message⟩

/-! ## Faults of a query -/

/-- Why a query about a file has no answer. -/
inductive FileError where
  /-- The path does not exist. -/
  | notFound (path : Path)
  /-- The path may not be used so. -/
  | permissionDenied (path : Path)
  /-- Any other fault of the machine. -/
  | io (path : Path) (fault : IoFault)
  /-- A fault that is not about one path. -/
  | other (message : String)
deriving DecidableEq, Repr

namespace FileError

/-- The fault of a query about `path`. -/
def ofIo (path : Path) (fault : IoFault) : FileError :=
  match fault.kind with
  | .notFound => notFound path
  | .permissionDenied => permissionDenied path
  | _ => io path fault

/-- Whether the fault says that the path does not exist. -/
def isNotFound : FileError → Bool
  | notFound _ => true
  | _ => false

/-- The text of a fault. -/
def message : FileError → String
  | notFound path => s!"File not found: {path.display}"
  | permissionDenied path => s!"Permission denied: {path.display}"
  | io path fault => s!"I/O error on {path.display}: {fault.message}"
  | other text => text

/-- The texts of what lies behind a fault. -/
def causes : FileError → List String
  | io _ fault => [fault.message]
  | _ => []

end FileError

end StyleTrack
