/-
Expansion of `@import`: every file that a style sheet pulls in, directly or through others, in the
order in which a compiler reads them.

The walk keeps a list of tasks, one for each directive that is still to be followed. Opening a file
puts its directives in front, so the files are met depth first and in the order of the text. A path
is followed only once, and under finitely many paths there are files that import something, so the
walk ends.
-/
import StyleTrack.Import.Processor
import StyleTrack.Source.Comment
import StyleTrack.Source.Directive
import StyleTrack.Source.Variable

namespace StyleTrack

open StyleTrack.Source

/-! ## Targets -/

/-- Whether a target lies on another machine. -/
def isRemote (target : List Char) : Bool :=
  ['/', '/'].isPrefixOf target || startsWord ['h', 't', 't', 'p', ':'] target
    || startsWord ['h', 't', 't', 'p', 's', ':'] target

/-- Whether a target has the extension of plain CSS, in front of a query or a fragment. -/
def endsCss (target : List Char) : Bool :=
  startsWord ['s', 's', 'c', '.'] (target.takeWhile fun c => !(c = '?' || c = '#')).reverse

/-- Whether an import is left to the reader of the style sheet. -/
def isPlainCss (target : List Char) (o : ImportOptions) : Bool :=
  !o.isLess && !o.isInline && (o.isCss || endsCss target)

/-- The file that a target names; `.less` is understood where there is no extension. -/
def fileOfTarget (target : String) : String :=
  if (Path.ofString target).extension?.isNone then target ++ ".less" else target

namespace Expansion

/-! ## Tasks -/

/-- A directive that is to be followed, with the file that holds it and what that file declares. -/
structure Task where
  file : Path
  declared : Variables
  directive : Directive

/-- The failure that a fault of interpolation is. -/
def Task.fault (t : Task) : InterpolationFault → ProcessorError
  | .undefined name => .undefinedVariable name t.file
  | .recursiveText text => .malformed t.file t.directive.line s!"recursive variable definition in '{text}'"
  | .recursiveName name => .malformed t.file t.directive.line s!"recursive variable definition of @{name}"

/-- What the walk needs to know of its surroundings. -/
structure Setting where
  fs : FileSystem
  locate : Locator
  options : RenderOptions

/-- The path that a directive imports, or `none` if it is not to be followed. -/
def Task.import? (s : Setting) (t : Task) : Except ProcessorError (Option Path) := do
  let target ← (interpolate (s.options.value? t.declared) t.directive.target).mapError t.fault
  if isRemote target.toList || isPlainCss target.toList t.directive.options then return none
  let candidate := fileOfTarget target
  let directory := t.file.directory
  match s.options.claim? candidate directory with
  | some found => return some found
  | none =>
    match s.locate directory candidate s.options.paths with
    | .ok found => return some found
    | .error (.notFound name tried) =>
      if t.directive.options.isOptional then return none
      else throw (.importNotFound target t.file (.notFound name tried))
    | .error cause => throw (.resolve cause)

/-- The tasks of a file, in the order of its directives. -/
def tasksOf (file : Path) (text : List Char) : Except ProcessorError (List Task) :=
  let stripped := stripComments text
  match Directive.parse stripped with
  | .error (line, fault) => .error (.malformed file line fault.message)
  | .ok directives =>
    let declared := Variables.ofText stripped
    .ok (directives.map fun d => ⟨file, declared, d⟩)

/-- The text of bytes that were read from a path. -/
def textOf (path : Path) (bytes : List UInt8) : Except ProcessorError (List Char) :=
  (Text.Utf8.decode bytes).mapError fun fault => .read path (.ofIo path (.ofUtf8 fault))

/-! ## Files -/

/-- The text of a file. -/
def readText (fs : FileSystem) (p : Path) : Except ProcessorError (List Char) :=
  ((fs.read p).mapError (.read p)).bind (textOf p)

/-- The text of a file and the tasks in it. -/
def parseFile (fs : FileSystem) (p : Path) : Except ProcessorError (List Char × List Task) :=
  (readText fs p).bind fun text => (tasksOf p text).map fun tasks => (text, tasks)

theorem parseFile_eq_ok {fs : FileSystem} {p : Path} {file : List Char × List Task} (h : parseFile fs p = .ok file) :
    ∃ bytes, fs.read p = .ok bytes ∧ textOf p bytes = .ok file.1 ∧ tasksOf p file.1 = .ok file.2 := by
  rw [parseFile, readText] at h
  cases hread : fs.read p with
  | error fault =>
    rw [hread] at h
    cases h
  | ok bytes =>
    rw [hread] at h
    change (textOf p bytes).bind _ = .ok file at h
    cases htext : textOf p bytes with
    | error e =>
      rw [htext] at h
      cases h
    | ok text =>
      rw [htext] at h
      change (tasksOf p text).map _ = .ok file at h
      cases htasks : tasksOf p text with
      | error e =>
        rw [htasks] at h
        cases h
      | ok tasks =>
        rw [htasks] at h
        cases h
        exact ⟨bytes, rfl, htext, htasks⟩

theorem importsSomething_of_tasksOf {p : Path} {bytes : List UInt8} {text : List Char} {tasks : List Task}
    (htext : textOf p bytes = .ok text) (htasks : tasksOf p text = .ok tasks) (hne : tasks ≠ []) :
    ImportsSomething bytes := by
  unfold tasksOf at htasks
  dsimp only at htasks
  split at htasks
  · cases htasks
  · rename_i directives hparse
    cases htasks
    cases hdecode : Text.Utf8.decode bytes with
    | error fault =>
      rw [textOf, hdecode] at htext
      cases htext
    | ok decoded =>
      rw [textOf, hdecode] at htext
      cases htext
      exact ⟨text, directives, hdecode, hparse, fun hnil => hne (by rw [hnil]; rfl)⟩

theorem mem_keys_of_parseFile {fs : FileSystem} {p : Path} {file : List Char × List Task}
    (h : parseFile fs p = .ok file) (hne : file.2 ≠ []) : p.components ∈ fs.keys := by
  obtain ⟨bytes, hread, htext, htasks⟩ := parseFile_eq_ok h
  exact FileSystem.mem_keys hread (importsSomething_of_tasksOf htext htasks hne)

/-- A file that was opened. Its path is one of those that import something, unless it has no tasks. -/
structure OpenFile (fs : FileSystem) (p : Path) where
  text : List Char
  tasks : List Task
  mem_keys : tasks ≠ [] → p.components ∈ fs.keys

namespace OpenFile

variable {fs : FileSystem} {p : Path}

/-- The file that a result is, if it is one that can be a file at the path. -/
def ofResult (r : Except ProcessorError (List Char × List Task))
    (h : ∀ file, r = .ok file → file.2 ≠ [] → p.components ∈ fs.keys) : Except ProcessorError (OpenFile fs p) :=
  match r, h with
  | .error e, _ => .error e
  | .ok (text, tasks), h => .ok ⟨text, tasks, h (text, tasks) rfl⟩

theorem map_ofResult (r : Except ProcessorError (List Char × List Task))
    (h : ∀ file, r = .ok file → file.2 ≠ [] → p.components ∈ fs.keys) :
    (ofResult r h).map (fun file => (file.text, file.tasks)) = r := by
  cases r <;> rfl

end OpenFile

/-- Opens the file at a path. -/
def openFile (fs : FileSystem) (p : Path) : Except ProcessorError (OpenFile fs p) :=
  OpenFile.ofResult (parseFile fs p) fun _ => mem_keys_of_parseFile

theorem map_openFile (fs : FileSystem) (p : Path) :
    (openFile fs p).map (fun file => (file.text, file.tasks)) = parseFile fs p := OpenFile.map_ofResult _ _

/-! ## The walk -/

/-- What the walk has met so far. -/
structure State where
  imports : List Path
  sources : List SourceUnit
  visited : List (List Component)

/-- Takes a path into the imports. -/
def State.visit (st : State) (p : Path) : State :=
  { st with imports := st.imports ++ [p], visited := p.components :: st.visited }

/-- Takes a unit of text into the sources. -/
def State.opened (st : State) (p : Path) (text : List Char) : State :=
  { st with sources := st.sources ++ [⟨p, text⟩] }

/-- How many of some paths the walk has not met. -/
def State.unvisited (st : State) (keys : List (List Component)) : Nat :=
  (keys.filter fun k => k ∉ st.visited).length

theorem State.unvisited_visit (st : State) (keys : List (List Component)) (p : Path) :
    (st.visit p).unvisited keys
      = ((keys.filter fun k => k ∉ st.visited).filter fun k => k ≠ p.components).length := by
  simp only [unvisited, visit, List.filter_filter, List.mem_cons]
  congr 1
  apply List.filter_congr
  intro k _
  by_cases h : k = p.components <;> simp [h]

theorem State.unvisited_visit_le (st : State) (keys : List (List Component)) (p : Path) :
    (st.visit p).unvisited keys ≤ st.unvisited keys := by
  rw [unvisited_visit]
  exact List.length_filter_le _ _

theorem State.unvisited_visit_lt {st : State} {keys : List (List Component)} {p : Path}
    (hmem : p.components ∈ keys) (hnew : p.components ∉ st.visited) :
    (st.visit p).unvisited keys < st.unvisited keys := by
  rw [unvisited_visit]
  apply List.length_filter_lt_length_iff_exists.2
  exact ⟨p.components, by simp [hmem, hnew], by simp⟩

/-- Opening a file leaves fewer to meet that import something, or, if it imports nothing, one task less. -/
theorem State.unvisited_opened_lt {st : State} {fs : FileSystem} {p : Path} (hnew : p.components ∉ st.visited)
    (file : OpenFile fs p) (rest : List Task) :
    Prod.Lex (· < ·) (· < ·) (((st.visit p).opened p file.text).unvisited fs.keys, (file.tasks ++ rest).length)
      (st.unvisited fs.keys, rest.length + 1) := by
  obtain ⟨text, tasks, hmem⟩ := file
  cases tasks with
  | nil =>
    rcases Nat.lt_or_eq_of_le (st.unvisited_visit_le fs.keys p) with hless | hsame
    · exact .left _ _ hless
    · have hopened : ((st.visit p).opened p text).unvisited fs.keys = st.unvisited fs.keys := hsame
      rw [hopened]
      exact .right _ (Nat.lt_succ_self _)
  | cons t tasks => exact .left _ _ (unvisited_visit_lt (hmem (List.cons_ne_nil t tasks)) hnew)

/-- Follows tasks until none is left. -/
def run (s : Setting) (st : State) : List Task → Except ProcessorError State
  | [] => .ok st
  | t :: rest =>
    match t.import? s with
    | .error e => .error e
    | .ok none => run s st rest
    | .ok (some p) =>
      if hnew : p.components ∈ st.visited then run s st rest
      else if t.directive.options.isInline then run s (st.visit p) rest
      else match openFile s.fs p with
        | .error e => .error e
        | .ok file =>
          have := State.unvisited_opened_lt hnew file rest
          run s ((st.visit p).opened p file.text) (file.tasks ++ rest)
termination_by tasks => (st.unvisited s.fs.keys, tasks.length)
decreasing_by
  · exact .right _ (Nat.lt_succ_self _)
  · exact .right _ (Nat.lt_succ_self _)
  · rcases Nat.lt_or_eq_of_le (st.unvisited_visit_le s.fs.keys p) with h | h
    · exact .left _ _ h
    · rw [h]
      exact .right _ (Nat.lt_succ_self _)
  · exact this

/-- The processor that follows imports through a file system. -/
def processor (fs : FileSystem) (locate : Locator) : Processor := fun text path options => do
  let tasks ← tasksOf path text
  let st ← run ⟨fs, locate, options⟩ ⟨[], [⟨path, text⟩], [path.components]⟩ tasks
  return ⟨st.imports, st.sources⟩

end Expansion

end StyleTrack
