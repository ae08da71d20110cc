/-
Interpolation by position, and with it all of the scans. What is left of a target is cut in front of a mark and behind it,
and each time less is left. None of the scans goes wrong on any text: every one of them ends, with what it finds over
characters.
-/
import StyleTrack.Proofs.Indexed.Variable
import StyleTrack.Proofs.Source.Interpolation

namespace StyleTrack.Source.Indexed

open StyleTrack.Text

/-! ## Interpolation -/

/-- Replaces every closed `@{name}` in what is left of a text by its value, behind what is written already. -/
def substitute (value : List Char → Checked (Except InterpolationFault (List Char))) (out left : List Char) :
    Checked (Except InterpolationFault (List Char)) := do
  match find? ['@', '{'] left with
  | none => return .ok (out ++ left)
  | some start =>
    let front ← slice left 0 start
    let after ← slice left (start + 2) (size left)
    match find? ['}'] after with
    | none => return .ok (out ++ front ++ (← slice left start (size left)))
    | some close =>
      match ← value (← slice after 0 close) with
      | .error fault => return .error fault
      | .ok v =>
        let later ← slice after (close + 1) (size after)
        if later.length < left.length then substitute value (out ++ front ++ v) later
        else .error .stuck
termination_by left.length

/-- Expands a text at a depth that leaves `budget` further ones, given the values at that depth. -/
def expandWith (budget : Nat) (value : List Char → Checked (Except InterpolationFault (List Char))) (text : List Char) :
    Checked (Except InterpolationFault (List Char)) :=
  if (find? ['@', '{'] text).isNone then return .ok text
  else if budget = 0 then return .error (.recursiveText (String.ofList text))
  else substitute value [] text

/-- The name that a value refers to, if the value is one variable. -/
def aliasOf? : List Char → Option (List Char)
  | '@' :: name => if name ≠ [] && (bytewise name).all isIdent then some name else none
  | _ => none

/-- The value of a variable, expanded at a depth that leaves `budget` further ones. -/
def valueOf (lookup : String → Option String) :
    (budget : Nat) → List Char → Checked (Except InterpolationFault (List Char))
  | 0, name => do
    match lookup (String.ofList name) with
    | none => return .error (.undefined (String.ofList name))
    | some raw =>
      let value ← unquote (trim raw.toList)
      match aliasOf? value with
      | some _ => return .error (.recursiveName (String.ofList name))
      | none => expandWith 0 (fun name => return .ok name) value
  | budget + 1, name => do
    match lookup (String.ofList name) with
    | none => return .error (.undefined (String.ofList name))
    | some raw =>
      let value ← unquote (trim raw.toList)
      match aliasOf? value with
      | some other => valueOf lookup budget other
      | none => expandWith budget (valueOf lookup budget) value

/-- The target with every `@{name}` replaced by the variable's value. -/
def interpolate (lookup : String → Option String) (target : String) : Checked (Except InterpolationFault String) := do
  return (← expandWith maxDepth (valueOf lookup maxDepth) target.toList).map String.ofList

variable {value : List Char → Checked (Except InterpolationFault (List Char))}
  {f : List Char → Except InterpolationFault (List Char)}

/-! ## Substitution -/

/-- The mark of an interpolation is found where there is one first. -/
theorem find?_mark (s : List Char) : find? ['@', '{'] s = none ∧ hasInterpolation s = false ∨
    ∃ front after, s = front ++ '@' :: '{' :: after ∧ find? ['@', '{'] s = some (size front) ∧
      hasInterpolation front = false := by
  fun_induction hasInterpolation s with
  | case1 rest => exact .inr ⟨[], rest, rfl, find?_of_isPrefix (by simp), rfl⟩
  | case2 c rest hnot ih =>
    have hmark : ¬ ['@', '{'] <+: c :: rest := by
      rintro ⟨tail, htail⟩
      obtain ⟨hc, hrest⟩ := List.cons.inj htail
      exact hnot tail hc.symm hrest.symm
    rw [find?_cons_of_not hmark]
    rcases ih with ⟨hnone, hfalse⟩ | ⟨front, after, rfl, hsome, hfalse⟩
    · rw [hnone]
      exact .inl ⟨rfl, hfalse⟩
    · refine .inr ⟨c :: front, after, rfl, ?_, ?_⟩
      · rw [hsome, size_cons c front]
        rfl
      · rw [hasInterpolation]
        · exact hfalse
        · exact fun more hc hfront => hnot _ hc (congrArg (· ++ '@' :: '{' :: after) hfront)
  | case3 => exact .inl ⟨find?_nil (by simp), rfl⟩

/-- Each round leaves less of the text. -/
theorem substitute_eq_map (hvalue : ∀ name, value name = .ok (f name)) (out left : List Char) :
    substitute value out left = .ok ((Source.substitute f left).map (out ++ ·)) := by
  induction hn : left.length using Nat.strongRecOn generalizing out left with
  | ind n ih =>
    rw [substitute]
    rcases find?_mark left with ⟨hnone, hfalse⟩ | ⟨front, after, rfl, hsome, hfalse⟩
    · rw [hnone, substitute_of_not_hasInterpolation hfalse]
      rfl
    · have hfront : slice (front ++ '@' :: '{' :: after) 0 (size front) = .ok front :=
        slice_size [] front ('@' :: '{' :: after)
      have hafter : slice (front ++ '@' :: '{' :: after) (size front + 2) (size (front ++ '@' :: '{' :: after)) =
          .ok after := by
        have hcut := slice_to_end (front ++ ['@', '{']) after
        rw [size_append front, List.append_assoc front] at hcut
        exact hcut
      rw [hsome, substitute_append_mark hfalse]
      dsimp only
      rw [hfront, ok_bind, hafter, ok_bind]
      by_cases hclose : '}' ∈ after
      · obtain ⟨name, back, rfl, hname⟩ := List.eq_append_cons_of_mem hclose
        have hslice : slice (name ++ '}' :: back) 0 (size name) = .ok name := slice_size [] name ('}' :: back)
        have hback : slice (name ++ '}' :: back) (size name + 1) (size (name ++ '}' :: back)) = .ok back := by
          have hcut := slice_to_end (name ++ ['}']) back
          rw [size_append name, ← List.append_cons] at hcut
          exact hcut
        have hless : back.length < n := by
          rw [← hn, List.length_append, List.length_cons, List.length_cons, List.length_append, List.length_cons]
          omega
        rw [find?_append hname, substitute_closed hname]
        dsimp only
        rw [hslice, ok_bind, hvalue, ok_bind]
        cases f name with
        | error fault => rfl
        | ok v =>
          dsimp only
          rw [hback, ok_bind, if_pos (hn ▸ hless), ih _ hless _ back rfl]
          cases Source.substitute f back with
          | error fault => rfl
          | ok later =>
            change Except.ok (Except.ok (out ++ front ++ v ++ later)) = Except.ok (Except.ok (out ++ (front ++ (v ++ later))))
            rw [List.append_assoc, List.append_assoc]
      · rw [find?_of_notMem hclose, substitute_unclosed hclose, slice_to_end]
        dsimp only
        rw [ok_bind, List.append_assoc]
        rfl

/-! ## Values -/

theorem expandWith_eq (hvalue : ∀ name, value name = .ok (f name)) (budget : Nat) (text : List Char) :
    expandWith budget value text = .ok (Source.expandWith budget f text) := by
  rw [expandWith, Source.expandWith, substitute_eq_map hvalue]
  have hcopy : (Source.substitute f text).map ([] ++ ·) = Source.substitute f text := by
    cases Source.substitute f text <;> rfl
  rw [hcopy]
  rcases find?_mark text with ⟨hnone, hfalse⟩ | ⟨front, after, htext, hsome, -⟩
  · rw [hnone, hfalse]
    rfl
  · have htrue : hasInterpolation text = true := hasInterpolation_iff.2 ⟨front, after, by simp [htext]⟩
    rw [hsome, htrue]
    by_cases hbudget : budget = 0
    · simp [hbudget]
    · simp [hbudget]

theorem aliasOf?_eq (s : List Char) : aliasOf? s = Source.aliasOf? s := by
  unfold aliasOf?
  simp only [all_bytewise fun _ => isIdent_of_beyond]
  rfl

theorem valueOf_eq_ok (lookup : String → Option String) (budget : Nat) (name : List Char) :
    valueOf lookup budget name = .ok (Source.valueOf lookup budget name) := by
  induction budget generalizing name with
  | zero =>
    have hcopy : ∀ name : List Char, (pure (.ok name) : Checked (Except InterpolationFault (List Char))) = .ok (.ok name) :=
      fun _ => rfl
    rw [valueOf, Source.valueOf]
    cases lookup (String.ofList name) with
    | none => rfl
    | some raw =>
      dsimp only
      rw [unquote_eq, ok_bind, aliasOf?_eq, expandWith_eq hcopy]
      cases Source.aliasOf? (Source.unquote (trim raw.toList)) <;> rfl
  | succ budget ih =>
    rw [valueOf, Source.valueOf]
    cases lookup (String.ofList name) with
    | none => rfl
    | some raw =>
      dsimp only
      rw [unquote_eq, ok_bind, aliasOf?_eq, expandWith_eq ih]
      cases Source.aliasOf? (Source.unquote (trim raw.toList)) with
      | none => rfl
      | some other => exact ih other

theorem interpolate_eq (lookup : String → Option String) (target : String) :
    interpolate lookup target = .ok (Source.interpolate lookup target) := by
  rw [interpolate, expandWith_eq (valueOf_eq_ok lookup maxDepth)]
  rfl

/-! ## Every scan -/

/-- On every text each scan ends, with what it finds over characters, and nothing goes wrong on the way: every part that it
cuts out lies between characters of the text, every byte that it asks for is there, nothing is taken from a smaller number,
and every loop moves on. -/
theorem scans_without_misstep (text : List Char) :
    (∀ start stop s, slice text start stop = .ok s ↔
        ∃ u v, text = u ++ s ++ v ∧ start = size u ∧ stop = size (u ++ s)) ∧
      stripComments text = .ok (Source.stripComments text) ∧
      scan text = .ok (Reference.scan text) ∧
      classify text = .ok (Argument.classify text) ∧
      parse text = .ok (Directive.parse text) ∧
      bindings text = .ok (Variables.ofText text) ∧
      ∀ lookup, interpolate lookup (String.ofList text) = .ok (Source.interpolate lookup (String.ofList text)) :=
  ⟨fun _ _ _ => slice_eq_ok_iff, stripComments_eq text, scan_eq text, classify_eq text, parse_eq text, bindings_eq text,
    fun lookup => interpolate_eq lookup _⟩

/-- A string that is not closed and ends in a backslash, behind a character of two bytes. -/
example : scan "é data-uri('a\\".toList = .ok (.error ⟨1, .unterminated⟩) := by
  rw [scan_eq]
  cbv

end StyleTrack.Source.Indexed
