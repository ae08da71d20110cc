/-
Cleaned paths: `.` and `..` are folded away without asking the file system.

A cleaned path is built on a stack of components. `.` is dropped, `..` takes the name before it off
the stack, stays below the root at the root, and is kept where a relative path climbs above its
start. The result is written in the plainest spelling.
-/
import StyleTrack.Path.Basic

namespace StyleTrack.Path

/-- Puts one more component on a stack of components, whose head is the last one. -/
def cleanStep (stack : List Component) : Component → List Component
  | .current => stack
  | .parent =>
    match stack with
    | .name _ :: below => below
    | .root :: _ => stack
    | _ => .parent :: stack
  | .root => [.root]
  | .name bytes => .name bytes :: stack

/-- The components that are left when `.` and `..` are folded. -/
def cleanComponents (cs : List Component) : List Component := (cs.foldl cleanStep []).reverse

/-- The path with `.` and `..` folded lexically. -/
def clean (p : Path) : Path := ofComponents (cleanComponents p.components)

end StyleTrack.Path
