/-
Suggestions for keys that mean nothing: the known key that is spelled most like them.
-/
import StyleTrack.Text.EditDistance
import StyleTrack.Text.Utf8

namespace StyleTrack.Config

/-- The keys that a configuration can have. -/
def knownKeys : List String :=
  ["resolver", "paths", "global_vars", "modify_vars", "options", "cache", "dir", "evidence"]

/-- How far a suggestion may be from the key. -/
def farthest : Nat := 2

/-- The distance of two keys, in bytes. -/
def distance (a b : String) : Nat :=
  if a = b then 0 else Text.editDistance (Text.Utf8.ofString a) (Text.Utf8.ofString b)

/-- The nearer of two keys, and the first one where both are equally near. -/
def nearer (key : String) (best : Option String) (candidate : String) : Option String :=
  match best with
  | none => some candidate
  | some b => if distance key candidate < distance key b then some candidate else some b

/-- The first of the known keys that are nearest to a key, if it is near enough. -/
def suggestion? (key : String) : Option String :=
  (knownKeys.foldl (nearer key) none).filter fun best => distance key best ≤ farthest

end StyleTrack.Config
