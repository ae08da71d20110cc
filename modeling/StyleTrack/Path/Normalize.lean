/-
The normalized text of a path, from which cache keys are derived.

A path is folded lexically as parts of text, and each name is rendered on the way: what is not UTF-8
becomes U+FFFD and a backslash becomes a slash. The parts are joined with slashes; a path that folds
away entirely is written `.`.
-/
import StyleTrack.Path.Basic

namespace StyleTrack.Path

/-- The text of a name: forward slashes only, U+FFFD for what is not UTF-8. -/
def renderName (bytes : List UInt8) : String :=
  String.ofList ((Text.Utf8.decodeLossy bytes).map fun c => if c = '\\' then '/' else c)

/-- Takes in one more component; the last part of the text so far is the head of `parts`. -/
def normalizeStep (rooted : Bool) (parts : List String) : Component → List String
  | .root | .current => parts
  | .parent =>
    match parts with
    | last :: below => if last ≠ ".." then below else if rooted then parts else ".." :: parts
    | [] => if rooted then [] else [".."]
  | .name bytes => renderName bytes :: parts

/-- The normalized text of a path. -/
def normalize (p : Path) : String :=
  let parts := (p.components.foldl (normalizeStep p.isAbsolute) []).reverse
  let text := (if p.isAbsolute then "/" else "") ++ "/".intercalate parts
  if text.isEmpty then "." else text

/-- The normalized text of a path that is taken relative to `base` unless it is absolute. -/
def normalizeIn (p base : Path) : String :=
  if p.isAbsolute then p.normalize else (base.join p).normalize

end StyleTrack.Path
