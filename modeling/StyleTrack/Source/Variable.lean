/-
Variables: the top-level `@name: value;` declarations of comment-free text, and the expansion of
`@{name}` in import targets.

A declaration counts where a statement may start outside every block. Of two declarations of one
name the later one wins. Expansion follows references from value to value up to a fixed depth.
-/
import StyleTrack.Source.Argument
import StyleTrack.SortedMap

namespace StyleTrack.Source

open StyleTrack.Text

/-! ## Values -/

/-- Variables and their values. -/
abbrev Variables := SortedMap String String

/-- The value without one leading `~` and without a pair of equal quotes around it. -/
def unquote (value : List Char) : List Char :=
  match dropTilde value with
  | quote :: body => if isQuote quote && body.getLast? = some quote then body.dropLast else quote :: body
  | [] => []

/-- How many characters a value takes, up to the `;` or `}` that ends it or the end of the text. -/
def valueLength : List Char → Nat
  | [] => 0
  | c :: rest =>
    if isQuote c then
      let n := quotedLength c rest
      n + 1 + valueLength (rest.drop n)
    else if c = ';' || c = '}' then 0
    else valueLength rest + 1
termination_by text => text.length
decreasing_by all_goals (simp only [List.length_drop, List.length_cons]; omega)

/-! ## Declarations -/

/-- A declaration and the text from the end of its value on. -/
structure Declaration where
  name : String
  value : String
  rest : List Char

/-- The declaration whose name a text starts with. -/
def Declaration.ofText? (text : List Char) : Option Declaration :=
  let name := text.takeWhile isIdent
  if name = [] then none
  else match skipBlanks (text.dropWhile isIdent) with
    | ':' :: after =>
      let n := valueLength after
      some ⟨String.ofList name, String.ofList (unquote (trim (after.take n))), after.drop n⟩
    | _ => none

theorem Declaration.length_rest_le {text : List Char} {d : Declaration}
    (h : Declaration.ofText? text = some d) : d.rest.length ≤ text.length := by
  unfold Declaration.ofText? at h
  dsimp only at h
  split at h
  · simp at h
  · split at h
    · rename_i after hafter
      have h1 := (List.dropWhile_sublist (l := text.dropWhile isIdent) (p := isAsciiBlank)).length_le
      have h2 := (List.dropWhile_sublist (l := text) (p := isIdent)).length_le
      have h3 : (skipBlanks (text.dropWhile isIdent)).length = after.length + 1 := by rw [hafter]; rfl
      simp only [skipBlanks] at h3
      simp only [Option.some.injEq] at h
      subst h
      simp only [List.length_drop]
      omega
    · simp at h

/-- The declarations of a text at `depth` open braces, where `start` says that a statement may start. -/
def declarations (depth : Nat) (start : Bool) : List Char → List (String × String)
  | [] => []
  | c :: rest =>
    if isQuote c then declarations depth false (rest.drop (quotedLength c rest))
    else if c = '{' then declarations (depth + 1) true rest
    else if c = '}' then declarations (depth - 1) true rest
    else if c = ';' then declarations depth true rest
    else if c = '@' && depth = 0 && start then
      match h : Declaration.ofText? rest with
      | some d =>
        have := Declaration.length_rest_le h
        (d.name, d.value) :: declarations depth true d.rest
      | none => declarations depth false rest
    else declarations depth (start && isAsciiBlank c) rest
termination_by text => text.length
decreasing_by
  all_goals simp only [List.length_drop, List.length_cons]
  all_goals omega

/-- The top-level variables of a text; the last declaration of a name wins. -/
def Variables.ofText (text : List Char) : Variables := SortedMap.ofList (declarations 0 true text)

/-! ## Interpolation -/

/-- Why a target cannot be expanded. -/
inductive InterpolationFault where
  /-- Nobody defines the variable. -/
  | undefined (name : String)
  /-- A value refers to another by name, too deep. -/
  | recursiveName (name : String)
  /-- A text holds an interpolation, too deep. -/
  | recursiveText (text : String)
deriving DecidableEq, Repr

/-- How many values deep an expansion goes. -/
def maxDepth : Nat := 16

/-- Replaces every closed `@{name}` in a text by its value; one that is not closed is copied. -/
def substitute (value : List Char → Except InterpolationFault (List Char)) :
    List Char → Except InterpolationFault (List Char)
  | [] => .ok []
  | '@' :: '{' :: rest =>
    match rest.dropWhile (· ≠ '}') with
    | [] => .ok ('@' :: '{' :: rest)
    | _ :: _ => do
      let v ← value (rest.takeWhile (· ≠ '}'))
      let later ← substitute value (rest.drop ((rest.takeWhile (· ≠ '}')).length + 1))
      return v ++ later
  | c :: rest => do return c :: (← substitute value rest)
termination_by text => text.length
decreasing_by all_goals (simp only [List.length_drop, List.length_cons]; omega)

/-- Expands a text at a depth that leaves `budget` further ones, given the values at that depth. -/
def expandWith (budget : Nat) (value : List Char → Except InterpolationFault (List Char)) (text : List Char) :
    Except InterpolationFault (List Char) :=
  if !hasInterpolation text then .ok text
  else if budget = 0 then .error (.recursiveText (String.ofList text))
  else substitute value text

/-- The name that a value refers to, if the value is one variable. -/
def aliasOf? : List Char → Option (List Char)
  | '@' :: name => if name ≠ [] && name.all isIdent then some name else none
  | _ => none

/-- The value of a variable, expanded at a depth that leaves `budget` further ones. -/
def valueOf (lookup : String → Option String) :
    (budget : Nat) → List Char → Except InterpolationFault (List Char)
  | 0, name =>
    match lookup (String.ofList name) with
    | none => .error (.undefined (String.ofList name))
    | some raw =>
      let value := unquote (trim raw.toList)
      match aliasOf? value with
      | some _ => .error (.recursiveName (String.ofList name))
      | none => expandWith 0 .ok value
  | budget + 1, name =>
    match lookup (String.ofList name) with
    | none => .error (.undefined (String.ofList name))
    | some raw =>
      let value := unquote (trim raw.toList)
      match aliasOf? value with
      | some other => valueOf lookup budget other
      | none => expandWith budget (valueOf lookup budget) value

/-- The target with every `@{name}` replaced by the variable's value. -/
def interpolate (lookup : String → Option String) (target : String) : Except InterpolationFault String :=
  (expandWith maxDepth (valueOf lookup maxDepth) target.toList).map String.ofList

end StyleTrack.Source
