/-
Interpolation is recursive substitution. A value refers to the variable that it is an alias of, or else to those that
it interpolates. A target expands if the variables it reaches are defined, close what they interpolate and form no
chain longer than the depth of an expansion, and then every `@{name}` stands for the value of the variable, in which
every `@{name}` stands for a value again. It fails if a variable is missing or a chain comes back to where it started.
-/
import StyleTrack.Options
import StyleTrack.Source.Variable
import StyleTrack.Proofs.Import.Traced
import StyleTrack.Proofs.Text.Blank
import Mathlib

namespace StyleTrack.Source

open StyleTrack.Text

/-! ## Pieces of a text -/

/-- A piece of a text in which variables are interpolated. -/
inductive Piece where
  | char (c : Char)
  /-- `@{name}` -/
  | variable (name : List Char)
  /-- `@{` that is not closed, and the text behind it. -/
  | unclosed (rest : List Char)
deriving DecidableEq

/-- The pieces of a text. -/
def pieces : List Char → List Piece
  | [] => []
  | '@' :: '{' :: rest =>
    match rest.dropWhile (· ≠ '}') with
    | [] => [.unclosed rest]
    | _ :: _ => .variable (rest.takeWhile (· ≠ '}')) :: pieces (rest.drop ((rest.takeWhile (· ≠ '}')).length + 1))
  | c :: rest => .char c :: pieces rest
termination_by text => text.length
decreasing_by all_goals (simp only [List.length_drop, List.length_cons]; omega)

def Piece.text : Piece → List Char
  | char c => [c]
  | .variable name => '@' :: '{' :: (name ++ ['}'])
  | unclosed rest => '@' :: '{' :: rest

def Piece.name? : Piece → Option (List Char)
  | .variable name => some name
  | _ => none

/-- The names of the variables that a text interpolates. -/
def placeholders (text : List Char) : List (List Char) := (pieces text).filterMap Piece.name?

def Piece.isClosed : Piece → Bool
  | unclosed _ => false
  | _ => true

/-- Whether every interpolation in a text is closed. -/
def ClosesInterpolations (text : List Char) : Prop := ∀ p ∈ pieces text, p.isClosed = true

/-- The text with a value in place of every variable. -/
def fill (value : List Char → List Char) (text : List Char) : List Char :=
  (pieces text).flatMap fun p => (p.name?.map value).getD p.text

variable {text s : List Char} {f g : List Char → Except InterpolationFault (List Char)}
  {value : List Char → List Char}

theorem eq_takeWhile_append_of_dropWhile {rest more : List Char} {c : Char} (h : rest.dropWhile (· ≠ '}') = c :: more) :
    rest = rest.takeWhile (· ≠ '}') ++ '}' :: more := by
  have hne : rest.dropWhile (· ≠ '}') ≠ [] := by rw [h]; exact List.cons_ne_nil c more
  have hclose := List.head_dropWhile_not (· ≠ '}') hne
  simp only [h, List.head_cons, decide_eq_false_iff_not, ne_eq, not_not] at hclose
  have hsplit := List.takeWhile_append_dropWhile (p := (· ≠ '}')) (l := rest)
  rw [h, hclose] at hsplit
  exact hsplit.symm

theorem drop_takeWhile_of_dropWhile {rest more : List Char} {c : Char} (h : rest.dropWhile (· ≠ '}') = c :: more) :
    rest.drop ((rest.takeWhile (· ≠ '}')).length + 1) = more := by
  have hrest := eq_takeWhile_append_of_dropWhile h
  generalize rest.takeWhile (· ≠ '}') = name at hrest ⊢
  rw [hrest]
  simp

theorem written_pieces (text : List Char) : (pieces text).flatMap Piece.text = text := by
  fun_induction pieces text with
  | case1 => rfl
  | case2 rest hnone => simp [Piece.text]
  | case3 rest c more hmore ih =>
    have hrest := eq_takeWhile_append_of_dropWhile hmore
    rw [drop_takeWhile_of_dropWhile hmore] at ih ⊢
    generalize rest.takeWhile (· ≠ '}') = name at hrest ⊢
    rw [List.flatMap_cons, ih, Piece.text, hrest]
    simp
  | case4 c rest hnot ih => simp [Piece.text, ih]

theorem pieces_closed {name : List Char} (h : '}' ∉ name) (rest : List Char) :
    pieces ('@' :: '{' :: (name ++ '}' :: rest)) = .variable name :: pieces rest := by
  have hlater : (name ++ '}' :: rest).drop (name.length + 1) = rest := by simp
  rw [pieces, dropWhile_ne_append h]
  dsimp only
  rw [takeWhile_ne_append h, hlater]

theorem pieces_cons {c : Char} {rest : List Char} (h : ¬ ['@', '{'] <+: c :: rest) :
    pieces (c :: rest) = .char c :: pieces rest := by
  rw [pieces]
  rintro more rfl rfl
  exact h ⟨more, rfl⟩

/-- No piece of a text reaches into a mark behind it, if none is left open. -/
theorem pieces_append_mark {front : List Char} (h : ClosesInterpolations front) (after : List Char) :
    pieces (front ++ '@' :: '{' :: after) = pieces front ++ pieces ('@' :: '{' :: after) := by
  unfold ClosesInterpolations at h
  fun_induction pieces front with
  | case1 => rfl
  | case2 rest hnone => cases h _ List.mem_cons_self
  | case3 rest c more hmore ih =>
    have hrest := eq_takeWhile_append_of_dropWhile hmore
    have hname : '}' ∉ rest.takeWhile (· ≠ '}') := fun hmem => by simpa using List.mem_takeWhile_imp hmem
    rw [drop_takeWhile_of_dropWhile hmore] at ih h ⊢
    generalize rest.takeWhile (· ≠ '}') = name at hrest hname h ⊢
    rw [hrest, List.cons_append, List.cons_append, List.append_assoc, List.cons_append, pieces_closed hname,
      ih fun p hp => h p (List.mem_cons_of_mem _ hp), List.cons_append]
  | case4 c rest hnot ih =>
    have hmark : ¬ ['@', '{'] <+: c :: (rest ++ '@' :: '{' :: after) := by
      rintro ⟨more, hmore⟩
      obtain ⟨rfl, htail⟩ := List.cons.inj hmore
      cases rest with
      | nil => cases htail
      | cons d rest => exact hnot rest rfl (by rw [← (List.cons.inj htail).1])
    rw [List.cons_append, pieces_cons hmark, ih fun p hp => h p (List.mem_cons_of_mem _ hp), List.cons_append]

/-- Only a text with an interpolation has pieces that are more than a character. -/
theorem hasInterpolation_iff_exists_piece : hasInterpolation text = true ↔ ∃ p ∈ pieces text, ∀ c, p ≠ .char c := by
  fun_induction pieces text with
  | case1 => simp [hasInterpolation]
  | case2 rest hnone => simp [hasInterpolation]
  | case3 rest c more hmore ih => simp [hasInterpolation]
  | case4 c rest hnot ih =>
    rw [hasInterpolation, ih]
    · simp
    · exact hnot

theorem pieces_of_not_hasInterpolation (h : hasInterpolation text = false) : ∀ p ∈ pieces text, ∃ c, p = .char c := by
  intro p hp
  by_contra hnot
  rw [hasInterpolation_iff_exists_piece.2 ⟨p, hp, not_exists.1 hnot⟩] at h
  cases h

theorem placeholders_of_not_hasInterpolation (h : hasInterpolation text = false) : placeholders text = [] := by
  refine List.filterMap_eq_nil_iff.2 fun p hp => ?_
  obtain ⟨c, rfl⟩ := pieces_of_not_hasInterpolation h p hp
  rfl

/-- Where every interpolation is closed, each is of a variable. -/
theorem hasInterpolation_of_closesInterpolations (h : ClosesInterpolations text) (hnone : placeholders text = []) :
    hasInterpolation text = false := by
  rw [Bool.eq_false_iff]
  intro hhas
  obtain ⟨p, hp, hchar⟩ := hasInterpolation_iff_exists_piece.1 hhas
  cases p with
  | char c => exact hchar c rfl
  | «variable» name =>
    have hname : name ∈ placeholders text := List.mem_filterMap.2 ⟨_, hp, rfl⟩
    rw [hnone] at hname
    cases hname
  | unclosed rest => cases h _ hp

theorem closesInterpolations_of_not_hasInterpolation (h : hasInterpolation text = false) : ClosesInterpolations text := by
  intro p hp
  obtain ⟨c, rfl⟩ := pieces_of_not_hasInterpolation h p hp
  rfl

theorem mem_placeholders_iff {name : List Char} : name ∈ placeholders text ↔ .variable name ∈ pieces text := by
  unfold placeholders
  rw [List.mem_filterMap]
  constructor
  · rintro ⟨p, hp, hname⟩
    cases p with
    | char c => cases hname
    | «variable» n => exact Option.some.inj hname ▸ hp
    | unclosed rest => cases hname
  · exact fun h => ⟨_, h, rfl⟩

theorem fill_of_not_hasInterpolation (h : hasInterpolation text = false) : fill value text = text := by
  have hchars : ∀ p ∈ pieces text, (p.name?.map value).getD p.text = p.text := by
    intro p hp
    obtain ⟨c, rfl⟩ := pieces_of_not_hasInterpolation h p hp
    rfl
  rw [fill, List.flatMap_congr hchars, written_pieces]

/-! ## Substitution -/

/-- What a piece becomes. -/
def Piece.expand (f : List Char → Except InterpolationFault (List Char)) (p : Piece) :
    Except InterpolationFault (List Char) := (p.name?.map f).getD (.ok p.text)

/-- Substitution goes from piece to piece. -/
theorem substitute_eq (f : List Char → Except InterpolationFault (List Char)) (text : List Char) :
    substitute f text = (do let parts ← (pieces text).mapM (Piece.expand f); return parts.flatten) := by
  fun_induction pieces text with
  | case1 => rw [substitute]; rfl
  | case2 rest hnone =>
    rw [substitute, hnone]
    exact congrArg Except.ok (List.append_nil _).symm
  | case3 rest c more hmore ih =>
    rw [substitute, hmore, List.mapM_cons, ih]
    dsimp only [Piece.expand, Piece.name?, Option.map_some, Option.getD_some]
    cases f (rest.takeWhile (· ≠ '}')) with
    | error fault => rfl
    | ok v =>
      generalize (pieces _).mapM (Piece.expand f) = parts
      cases parts <;> rfl
  | case4 c rest hnot ih =>
    rw [substitute, List.mapM_cons, ih]
    · dsimp only [Piece.expand, Piece.name?, Option.map_none, Option.getD_none]
      generalize (pieces rest).mapM (Piece.expand f) = parts
      cases parts <;> rfl
    · exact hnot

theorem mapM_congr {α β ε : Type} {f g : α → Except ε β} {l : List α} (h : ∀ a ∈ l, f a = g a) : l.mapM f = l.mapM g := by
  induction l with
  | nil => rfl
  | cons a l ih =>
    rw [List.mapM_cons, List.mapM_cons, h a List.mem_cons_self, ih fun b hb => h b (List.mem_cons_of_mem a hb)]

/-- Substitution asks for the variables that are interpolated and for no others. -/
theorem substitute_congr (h : ∀ name ∈ placeholders text, f name = g name) : substitute f text = substitute g text := by
  rw [substitute_eq, substitute_eq, mapM_congr]
  intro p hp
  cases p with
  | char c => rfl
  | «variable» name => exact h name (mem_placeholders_iff.2 hp)
  | unclosed rest => rfl

theorem exists_of_substitute {out name : List Char} (h : substitute f text = .ok out) (hname : name ∈ placeholders text) :
    ∃ v, f name = .ok v := by
  rw [substitute_eq, bind_eq_ok_iff] at h
  obtain ⟨parts, hparts, -⟩ := h
  obtain ⟨v, -, hv⟩ := exists_of_forall₂_left (mapM_eq_ok_iff.1 hparts) (mem_placeholders_iff.1 hname)
  exact ⟨v, hv⟩

/-- Where every variable has a value, substitution fills the text with the values. -/
theorem substitute_of_values (h : ∀ name ∈ placeholders text, f name = .ok (value name)) :
    substitute f text = .ok (fill value text) := by
  have hparts : (pieces text).mapM (Piece.expand f) = .ok ((pieces text).map fun p => (p.name?.map value).getD p.text) := by
    rw [mapM_eq_ok_iff, List.forall₂_map_right_iff, List.forall₂_same]
    intro p hp
    cases p with
    | char c => rfl
    | «variable» name => exact h name (mem_placeholders_iff.2 hp)
    | unclosed rest => rfl
  rw [substitute_eq, hparts, fill, List.flatMap]
  rfl

theorem substitute_of_not_hasInterpolation (h : hasInterpolation text = false) : substitute f text = .ok text := by
  have hnone : ∀ name ∈ placeholders text, f name = .ok (id name) := by
    rw [placeholders_of_not_hasInterpolation h]
    simp
  rw [substitute_of_values hnone, fill_of_not_hasInterpolation h]

/-! ## Substitution from mark to mark -/

/-- What stands in front of a mark is expanded apart from it, if it leaves no interpolation open. -/
theorem substitute_append_of_closes {front : List Char} (h : ClosesInterpolations front) (after : List Char) :
    substitute f (front ++ '@' :: '{' :: after) =
      (do return (← substitute f front) ++ (← substitute f ('@' :: '{' :: after))) := by
  rw [substitute_eq, substitute_eq, substitute_eq, pieces_append_mark h, List.mapM_append]
  cases (pieces front).mapM (Piece.expand f) with
  | error fault => rfl
  | ok parts =>
    cases (pieces ('@' :: '{' :: after)).mapM (Piece.expand f) with
    | error fault => rfl
    | ok later => exact congrArg Except.ok List.flatten_append

/-- What stands in front of the first mark is kept. -/
theorem substitute_append_mark {front : List Char} (h : hasInterpolation front = false) (after : List Char) :
    substitute f (front ++ '@' :: '{' :: after) = (substitute f ('@' :: '{' :: after)).map (front ++ ·) := by
  rw [substitute_append_of_closes (closesInterpolations_of_not_hasInterpolation h), substitute_of_not_hasInterpolation h]
  cases substitute f ('@' :: '{' :: after) <;> rfl

theorem substitute_closed {name : List Char} (h : '}' ∉ name) (back : List Char) :
    substitute f ('@' :: '{' :: (name ++ '}' :: back)) = (do return (← f name) ++ (← substitute f back)) := by
  have hlater : (name ++ '}' :: back).drop (name.length + 1) = back := by simp
  rw [substitute, dropWhile_ne_append h, takeWhile_ne_append h, hlater]

theorem substitute_unclosed {after : List Char} (h : '}' ∉ after) :
    substitute f ('@' :: '{' :: after) = .ok ('@' :: '{' :: after) := by
  rw [substitute, List.dropWhile_eq_nil_iff.2 (forall_ne_of_notMem h)]

/-! ## One step of an expansion -/

section Expand

variable {budget : Nat} {out : List Char}

theorem expandWith_zero : expandWith 0 f text = expandWith 0 g text := by
  unfold expandWith
  split <;> rfl

theorem expandWith_congr (h : ∀ name ∈ placeholders text, f name = g name) :
    expandWith budget f text = expandWith budget g text := by
  unfold expandWith
  rw [substitute_congr h]

theorem expandWith_of_ne_zero (h : budget ≠ 0) : expandWith budget f text = substitute f text := by
  unfold expandWith
  cases hhas : hasInterpolation text with
  | false => exact (substitute_of_not_hasInterpolation hhas).symm
  | true => exact if_neg h

/-- A text without interpolations stands for itself, and one with interpolations needs some depth. -/
theorem expandWith_eq_ok_iff : expandWith budget f text = .ok out ↔
    hasInterpolation text = false ∧ text = out ∨
      hasInterpolation text = true ∧ budget ≠ 0 ∧ substitute f text = .ok out := by
  unfold expandWith
  cases hasInterpolation text with
  | false => simp
  | true => by_cases hbudget : budget = 0 <;> simp [hbudget]

theorem exists_of_expandWith {name : List Char} (h : expandWith budget f text = .ok out)
    (hname : name ∈ placeholders text) : budget ≠ 0 ∧ ∃ v, f name = .ok v := by
  rcases expandWith_eq_ok_iff.1 h with ⟨hnot, -⟩ | ⟨-, hbudget, hout⟩
  · rw [placeholders_of_not_hasInterpolation hnot] at hname
    cases hname
  · exact ⟨hbudget, exists_of_substitute hout hname⟩

theorem expandWith_of_values (hcloses : ClosesInterpolations text) (hbudget : placeholders text ≠ [] → budget ≠ 0)
    (h : ∀ name ∈ placeholders text, f name = .ok (value name)) : expandWith budget f text = .ok (fill value text) := by
  rw [expandWith_eq_ok_iff]
  cases hhas : hasInterpolation text with
  | false => exact .inl ⟨rfl, (fill_of_not_hasInterpolation hhas).symm⟩
  | true =>
    refine .inr ⟨rfl, hbudget fun hnone => ?_, substitute_of_values h⟩
    rw [hasInterpolation_of_closesInterpolations hcloses hnone] at hhas
    cases hhas

/-- What comes out is the text filled with the values that were found. -/
theorem eq_fill_of_expandWith (h : expandWith budget f text = .ok out)
    (hf : ∀ name ∈ placeholders text, ∀ v, f name = .ok v → value name = v) : out = fill value text := by
  have hvalues : ∀ name ∈ placeholders text, f name = .ok (value name) := by
    intro name hname
    obtain ⟨-, v, hv⟩ := exists_of_expandWith h hname
    rw [hv, hf name hname v hv]
  rcases expandWith_eq_ok_iff.1 h with ⟨hnot, rfl⟩ | ⟨-, -, hout⟩
  · exact (fill_of_not_hasInterpolation hnot).symm
  · exact Except.ok.inj (hout.symm.trans (substitute_of_values hvalues))

theorem expandWith_mono {budget' : Nat} (hle : budget ≤ budget')
    (hfg : ∀ name ∈ placeholders text, ∀ v, f name = .ok v → g name = .ok v) (h : expandWith budget f text = .ok out) :
    expandWith budget' g text = .ok out := by
  have hsame : substitute g text = substitute f text := by
    refine substitute_congr fun name hname => ?_
    obtain ⟨-, v, hv⟩ := exists_of_expandWith h hname
    rw [hv, hfg name hname v hv]
  rw [expandWith_eq_ok_iff] at h ⊢
  exact h.imp_right fun ⟨hhas, hbudget, hout⟩ => ⟨hhas, by omega, hsame.trans hout⟩

end Expand

/-! ## References -/

/-- What a value says, without blanks and quotes. -/
def contentOf (raw : String) : List Char := unquote (trim raw.toList)

/-- The names that a value refers to. -/
def namesIn (content : List Char) : List (List Char) :=
  match aliasOf? content with
  | some other => [other]
  | none => placeholders content

/-- Whether the value of a variable refers to another. -/
def Refers (lookup : String → Option String) (a b : List Char) : Prop :=
  ∃ raw, lookup (String.ofList a) = some raw ∧ b ∈ namesIn (contentOf raw)

/-- Whether a text leads to a variable, from value to value. -/
def Reaches (lookup : String → Option String) (text name : List Char) : Prop :=
  ∃ first ∈ placeholders text, Relation.ReflTransGen (Refers lookup) first name

/-- Whether the value given to a variable is what its definition says, given the values of those that it refers to. -/
def Solves (lookup : String → Option String) (value : List Char → List Char) (name : List Char) : Prop :=
  ∃ raw, lookup (String.ofList name) = some raw ∧ value name =
    match aliasOf? (contentOf raw) with
    | some other => value other
    | none => fill value (contentOf raw)

/-! ## Values -/

variable {lookup lookup' : String → Option String} {budget : Nat} {a b v : List Char}

theorem valueOf_eq (lookup : String → Option String) (budget : Nat) (a : List Char) : valueOf lookup budget a =
    match lookup (String.ofList a) with
    | none => .error (.undefined (String.ofList a))
    | some raw =>
      match aliasOf? (contentOf raw) with
      | some other =>
        if budget = 0 then .error (.recursiveName (String.ofList a)) else valueOf lookup (budget - 1) other
      | none => expandWith (budget - 1) (valueOf lookup (budget - 1)) (contentOf raw) := by
  cases budget with
  | zero =>
    rw [valueOf]
    cases lookup (String.ofList a) with
    | none => rfl
    | some raw =>
      dsimp only [contentOf]
      cases aliasOf? (unquote (trim raw.toList)) with
      | some other => rfl
      | none => exact expandWith_zero
  | succ budget =>
    rw [valueOf]
    cases lookup (String.ofList a) with
    | none => rfl
    | some raw => rfl

/-- A value that was found: the variable is an alias of another or its text expands. -/
theorem valueOf_eq_ok_iff : valueOf lookup budget a = .ok v ↔ ∃ raw, lookup (String.ofList a) = some raw ∧
    match aliasOf? (contentOf raw) with
    | some other => budget ≠ 0 ∧ valueOf lookup (budget - 1) other = .ok v
    | none => expandWith (budget - 1) (valueOf lookup (budget - 1)) (contentOf raw) = .ok v := by
  rw [valueOf_eq]
  cases lookup (String.ofList a) with
  | none => simp
  | some raw =>
    simp only [Option.some.injEq, exists_eq_left']
    cases aliasOf? (contentOf raw) with
    | none => rfl
    | some other =>
      by_cases hbudget : budget = 0
      · simp [hbudget]
      · simp [hbudget]

/-- A value that was found is defined, and what it refers to was found one step further down. -/
theorem exists_of_refers (h : valueOf lookup budget a = .ok v) (hrefers : Refers lookup a b) :
    budget ≠ 0 ∧ ∃ w, valueOf lookup (budget - 1) b = .ok w := by
  obtain ⟨raw, hlookup, hname⟩ := hrefers
  obtain ⟨raw', hlookup', hvalue⟩ := valueOf_eq_ok_iff.1 h
  obtain rfl : raw = raw' := Option.some.inj (hlookup.symm.trans hlookup')
  unfold namesIn at hname
  cases halias : aliasOf? (contentOf raw) with
  | some other =>
    rw [halias] at hname hvalue
    obtain rfl := List.mem_singleton.1 hname
    exact ⟨hvalue.1, v, hvalue.2⟩
  | none =>
    rw [halias] at hname hvalue
    obtain ⟨hbudget, w, hw⟩ := exists_of_expandWith hvalue hname
    exact ⟨by omega, w, hw⟩

theorem exists_of_reflTransGen (h : valueOf lookup budget a = .ok v)
    (hpath : Relation.ReflTransGen (Refers lookup) a b) : ∃ budget' ≤ budget, ∃ w, valueOf lookup budget' b = .ok w := by
  induction hpath with
  | refl => exact ⟨budget, Nat.le_refl budget, v, h⟩
  | tail hpath hrefers ih =>
    obtain ⟨budget', hle, w, hw⟩ := ih
    obtain ⟨-, w', hw'⟩ := exists_of_refers hw hrefers
    exact ⟨budget' - 1, by omega, w', hw'⟩

/-- No variable that has a value refers back to itself: each round would take from the depth that is left. -/
theorem not_transGen_of_valueOf (h : valueOf lookup budget a = .ok v) : ¬ Relation.TransGen (Refers lookup) a a := by
  induction budget using Nat.strongRecOn generalizing v with
  | _ budget ih =>
    intro hcycle
    obtain ⟨b, hrefers, hback⟩ := Relation.TransGen.head'_iff.1 hcycle
    obtain ⟨hbudget, w, hw⟩ := exists_of_refers h hrefers
    obtain ⟨budget', hle, w', hw'⟩ := exists_of_reflTransGen hw hback
    exact ih budget' (by omega) hw' hcycle

/-- More depth does not change a value. -/
theorem valueOf_mono {budget' : Nat} (hle : budget ≤ budget') (h : valueOf lookup budget a = .ok v) :
    valueOf lookup budget' a = .ok v := by
  induction budget' generalizing budget a v with
  | zero =>
    obtain rfl := Nat.le_zero.1 hle
    exact h
  | succ budget' ih =>
    obtain ⟨raw, hlookup, hvalue⟩ := valueOf_eq_ok_iff.1 h
    refine valueOf_eq_ok_iff.2 ⟨raw, hlookup, ?_⟩
    cases halias : aliasOf? (contentOf raw) with
    | some other =>
      rw [halias] at hvalue
      exact ⟨Nat.succ_ne_zero budget', ih (by omega) hvalue.2⟩
    | none =>
      rw [halias] at hvalue
      exact expandWith_mono (by omega) (fun name _ w hw => ih (by omega) hw) hvalue

/-- The value of a variable depends on the definitions that it leads to and on no others. -/
theorem valueOf_congr (h : ∀ b, Relation.ReflTransGen (Refers lookup) a b →
    lookup' (String.ofList b) = lookup (String.ofList b)) : valueOf lookup' budget a = valueOf lookup budget a := by
  induction budget using Nat.strongRecOn generalizing a with
  | _ budget ih =>
    rw [valueOf_eq, valueOf_eq lookup, h a .refl]
    cases hraw : lookup (String.ofList a) with
    | none => rfl
    | some raw =>
      have hnames : budget ≠ 0 → ∀ b ∈ namesIn (contentOf raw),
          valueOf lookup' (budget - 1) b = valueOf lookup (budget - 1) b :=
        fun hbudget b hb => ih (budget - 1) (by omega) fun c hpath => h c (.head ⟨raw, hraw, hb⟩ hpath)
      unfold namesIn at hnames
      dsimp only
      cases halias : aliasOf? (contentOf raw) with
      | some other =>
        rw [halias] at hnames
        dsimp only
        by_cases hbudget : budget = 0
        · rw [if_pos hbudget, if_pos hbudget]
        · rw [if_neg hbudget, if_neg hbudget, hnames hbudget other List.mem_cons_self]
      | none =>
        rw [halias] at hnames
        by_cases hbudget : budget = 0
        · subst hbudget
          exact expandWith_zero
        · exact expandWith_congr (hnames hbudget)

/-! ## Solutions -/

/-- The value that is found at a depth, or nothing. -/
def found (lookup : String → Option String) (budget : Nat) (name : List Char) : List Char :=
  (valueOf lookup budget name).toOption.getD []

theorem found_eq (h : valueOf lookup budget a = .ok v) : found lookup budget a = v := by
  rw [found, h]
  rfl

/-- What is found solves the definitions. -/
theorem solves_found (h : valueOf lookup budget a = .ok v) : Solves lookup (found lookup budget) a := by
  obtain ⟨raw, hlookup, hvalue⟩ := valueOf_eq_ok_iff.1 h
  refine ⟨raw, hlookup, ?_⟩
  rw [found_eq h]
  cases halias : aliasOf? (contentOf raw) with
  | some other =>
    rw [halias] at hvalue
    exact (found_eq (valueOf_mono (Nat.sub_le budget 1) hvalue.2)).symm
  | none =>
    rw [halias] at hvalue
    exact eq_fill_of_expandWith hvalue fun name _ w hw => found_eq (valueOf_mono (Nat.sub_le budget 1) hw)

/-- There is no other solution. -/
theorem eq_of_solves {value : List Char → List Char} (h : valueOf lookup budget a = .ok v)
    (hsolves : ∀ b, Relation.ReflTransGen (Refers lookup) a b → Solves lookup value b) : value a = v := by
  induction budget using Nat.strongRecOn generalizing a v with
  | _ budget ih =>
    have hstep : ∀ b w, Refers lookup a b → valueOf lookup (budget - 1) b = .ok w → value b = w := by
      intro b w hrefers hw
      obtain ⟨hbudget, -⟩ := exists_of_refers h hrefers
      exact ih (budget - 1) (by omega) hw fun c hpath => hsolves c (.head hrefers hpath)
    obtain ⟨raw, hlookup, hvalue⟩ := valueOf_eq_ok_iff.1 h
    obtain ⟨raw', hlookup', heq⟩ := hsolves a .refl
    obtain rfl : raw = raw' := Option.some.inj (hlookup.symm.trans hlookup')
    have hrefers : ∀ b ∈ namesIn (contentOf raw), Refers lookup a b := fun b hb => ⟨raw, hlookup, hb⟩
    unfold namesIn at hrefers
    rw [heq]
    cases halias : aliasOf? (contentOf raw) with
    | some other =>
      rw [halias] at hvalue hrefers
      exact hstep other v (hrefers other List.mem_cons_self) hvalue.2
    | none =>
      rw [halias] at hvalue hrefers
      exact (eq_fill_of_expandWith hvalue fun b hb w hw => hstep b w (hrefers b hb) hw).symm

/-! ## Chains of references -/

/-- A variable has a value if everything that it leads to is defined and closes what it interpolates, and no chain of
references from it is longer than the depth. -/
theorem exists_valueOf (hdefined : ∀ b, Relation.ReflTransGen (Refers lookup) a b →
      ∃ raw, lookup (String.ofList b) = some raw ∧ ClosesInterpolations (contentOf raw))
    (hchain : ∀ names, List.IsChain (Refers lookup) (a :: names) → (a :: names).length ≤ budget) :
    ∃ v, valueOf lookup budget a = .ok v := by
  induction budget generalizing a with
  | zero => exact absurd (hchain [] (.singleton a)) (by simp)
  | succ budget ih =>
    obtain ⟨raw, hlookup, hcloses⟩ := hdefined a .refl
    have hnames : ∀ b ∈ namesIn (contentOf raw), budget ≠ 0 ∧ ∃ v, valueOf lookup budget b = .ok v := by
      intro b hb
      have hrefers : Refers lookup a b := ⟨raw, hlookup, hb⟩
      have hlonger : ∀ names, List.IsChain (Refers lookup) (b :: names) → (b :: names).length ≤ budget := by
        intro names hnames
        exact Nat.le_of_succ_le_succ (hchain (b :: names) (List.isChain_cons_cons.2 ⟨hrefers, hnames⟩))
      have hone := hlonger [] (.singleton b)
      rw [List.length_singleton] at hone
      exact ⟨by omega, ih (fun c hpath => hdefined c (.head hrefers hpath)) hlonger⟩
    unfold namesIn at hnames
    cases halias : aliasOf? (contentOf raw) with
    | some other =>
      rw [halias] at hnames
      obtain ⟨-, v, hv⟩ := hnames other List.mem_cons_self
      refine ⟨v, valueOf_eq_ok_iff.2 ⟨raw, hlookup, ?_⟩⟩
      rw [halias]
      exact ⟨Nat.succ_ne_zero budget, hv⟩
    | none =>
      rw [halias] at hnames
      have hfound : ∀ b ∈ placeholders (contentOf raw), valueOf lookup budget b = .ok (found lookup budget b) := by
        intro b hb
        obtain ⟨-, v, hv⟩ := hnames b hb
        rw [hv, found_eq hv]
      have hbudget : placeholders (contentOf raw) ≠ [] → budget ≠ 0 := by
        intro hne
        obtain ⟨b, hb⟩ := List.exists_mem_of_ne_nil _ hne
        exact (hnames b hb).1
      refine ⟨fill (found lookup budget) (contentOf raw), valueOf_eq_ok_iff.2 ⟨raw, hlookup, ?_⟩⟩
      rw [halias]
      exact expandWith_of_values hcloses hbudget hfound

/-! ## Targets -/

variable {target : String}

theorem exists_fault_of_reaches {name : List Char} (hreaches : Reaches lookup target.toList name)
    (hfault : lookup (String.ofList name) = none ∨ Relation.TransGen (Refers lookup) name name) :
    ∃ fault, interpolate lookup target = .error fault := by
  obtain ⟨first, hfirst, hpath⟩ := hreaches
  cases hresult : interpolate lookup target with
  | error fault => exact ⟨fault, rfl⟩
  | ok out =>
    obtain ⟨out, hout, rfl⟩ := map_eq_ok_iff.1 hresult
    obtain ⟨-, v, hv⟩ := exists_of_expandWith hout hfirst
    obtain ⟨budget, -, w, hw⟩ := exists_of_reflTransGen hv hpath
    rcases hfault with hnone | hcycle
    · obtain ⟨raw, hlookup, -⟩ := valueOf_eq_ok_iff.1 hw
      rw [hnone] at hlookup
      cases hlookup
    · exact absurd hcycle (not_transGen_of_valueOf hw)

theorem exists_value_of_reaches (hdefined : ∀ name, Reaches lookup target.toList name →
      ∃ raw, lookup (String.ofList name) = some raw ∧ ClosesInterpolations (contentOf raw))
    (hchain : ∀ first ∈ placeholders target.toList, ∀ names, List.IsChain (Refers lookup) (first :: names) →
      (first :: names).length ≤ maxDepth) {name : List Char} (hreaches : Reaches lookup target.toList name) :
    ∃ v, valueOf lookup maxDepth name = .ok v := by
  obtain ⟨first, hfirst, hpath⟩ := hreaches
  obtain ⟨v, hv⟩ := exists_valueOf (fun b hb => hdefined b ⟨first, hfirst, hb⟩) (hchain first hfirst)
  obtain ⟨budget, hle, w, hw⟩ := exists_of_reflTransGen hv hpath
  exact ⟨w, valueOf_mono hle hw⟩

/-- Where every variable that a target leads to has a value, the definitions have one solution, and it fills the
target. -/
theorem exists_solution (hcloses : ClosesInterpolations target.toList)
    (hvalue : ∀ name, Reaches lookup target.toList name → ∃ v, valueOf lookup maxDepth name = .ok v) :
    ∃ value, (∀ name, Reaches lookup target.toList name → Solves lookup value name) ∧
      (∀ value', (∀ name, Reaches lookup target.toList name → Solves lookup value' name) →
        ∀ name, Reaches lookup target.toList name → value' name = value name) ∧
      interpolate lookup target = .ok (String.ofList (fill value target.toList)) := by
  refine ⟨found lookup maxDepth, fun name hname => ?_, fun value' hsolves name hname => ?_, ?_⟩
  · obtain ⟨v, hv⟩ := hvalue name hname
    exact solves_found hv
  · obtain ⟨v, hv⟩ := hvalue name hname
    obtain ⟨first, hfirst, hpath⟩ := hname
    rw [eq_of_solves hv fun b hb => hsolves b ⟨first, hfirst, hpath.trans hb⟩, found_eq hv]
  · have hfound : ∀ name ∈ placeholders target.toList, valueOf lookup maxDepth name = .ok (found lookup maxDepth name) := by
      intro name hname
      obtain ⟨v, hv⟩ := hvalue name ⟨name, hname, .refl⟩
      rw [hv, found_eq hv]
    rw [interpolate, expandWith_of_values hcloses (fun _ => by decide) hfound]
    rfl

theorem interpolate_congr (h : ∀ name, Reaches lookup target.toList name →
    lookup' (String.ofList name) = lookup (String.ofList name)) : interpolate lookup' target = interpolate lookup target := by
  have hsame : ∀ name ∈ placeholders target.toList, valueOf lookup' maxDepth name = valueOf lookup maxDepth name :=
    fun name hname => valueOf_congr fun b hpath => h b ⟨name, hname, hpath⟩
  rw [interpolate, interpolate, expandWith_congr hsame]

/-- In an environment of injected variables and of those that a file declares, a target that leads to a variable that
nobody defines or to one that refers back to itself cannot be expanded. A target expands that leads to defined variables
only, in chains that are no longer than an expansion is deep, and where no interpolation is left open: the definitions
have one solution, and every variable of the target is replaced by its value there. Nothing depends on variables to
which the target does not lead. -/
theorem interpolate_spec (o : RenderOptions) (declared : Variables) (target : String) :
    ((∃ name, Reaches (o.value? declared) target.toList name ∧ (o.value? declared (String.ofList name) = none ∨
        Relation.TransGen (Refers (o.value? declared)) name name)) →
      ∃ fault, interpolate (o.value? declared) target = .error fault) ∧
    (ClosesInterpolations target.toList →
      (∀ name, Reaches (o.value? declared) target.toList name →
        ∃ raw, o.value? declared (String.ofList name) = some raw ∧ ClosesInterpolations (contentOf raw)) →
      (∀ first ∈ placeholders target.toList, ∀ names, List.IsChain (Refers (o.value? declared)) (first :: names) →
        (first :: names).length ≤ 16) →
      ∃ value, (∀ name, Reaches (o.value? declared) target.toList name → Solves (o.value? declared) value name) ∧
        (∀ value', (∀ name, Reaches (o.value? declared) target.toList name → Solves (o.value? declared) value' name) →
          ∀ name, Reaches (o.value? declared) target.toList name → value' name = value name) ∧
        interpolate (o.value? declared) target = .ok (String.ofList (fill value target.toList))) ∧
    ∀ (o' : RenderOptions) (declared' : Variables),
      (∀ name, Reaches (o.value? declared) target.toList name →
        o'.value? declared' (String.ofList name) = o.value? declared (String.ofList name)) →
      interpolate (o'.value? declared') target = interpolate (o.value? declared) target := by
  refine ⟨?_, fun hcloses hdefined hchain => ?_, fun o' declared' hagree => interpolate_congr hagree⟩
  · rintro ⟨name, hreaches, hfault⟩
    exact exists_fault_of_reaches hreaches hfault
  · exact exists_solution hcloses fun name hreaches => exists_value_of_reaches hdefined hchain hreaches

/-- Options that inject a theme, and a variable that goes round in a circle. -/
def themed : RenderOptions where
  globalVars := .ofList [("loop", "@loop")]
  modifyVars := .ofList [("theme", "~'dark'")]

/-- What a file beside these options declares. -/
def themedFile : Variables := .ofList [("dir", "less/@{theme}")]

/-- The target leads to `dir` and from there to `theme`, and not to `loop`. -/
theorem interpolate_spec_themed :
    (∃ fault, interpolate (themed.value? themedFile) "@{loop}" = .error fault) ∧
    (∃ value, Solves (themed.value? themedFile) value "dir".toList ∧
      interpolate (themed.value? themedFile) "@{dir}/a.less" = .ok (String.ofList (fill value "@{dir}/a.less".toList))) ∧
    interpolate ({ themed with globalVars := .empty }.value? themedFile) "@{dir}/a.less" = .ok "less/dark/a.less" := by
  have hnames : placeholders "@{dir}/a.less".toList = ["dir".toList] := by cbv
  have hdirValue : themed.value? themedFile (String.ofList "dir".toList) = some "less/@{theme}" := by cbv
  have hthemeValue : themed.value? themedFile (String.ofList "theme".toList) = some "~'dark'" := by cbv
  have hdir : ∀ b, Refers (themed.value? themedFile) "dir".toList b → b = "theme".toList := by
    rintro b ⟨raw, hraw, hb⟩
    obtain rfl : "less/@{theme}" = raw := Option.some.inj (hdirValue.symm.trans hraw)
    have hnames : namesIn (contentOf "less/@{theme}") = ["theme".toList] := by cbv
    rw [hnames] at hb
    exact List.mem_singleton.1 hb
  have htheme : ∀ b, ¬ Refers (themed.value? themedFile) "theme".toList b := by
    rintro b ⟨raw, hraw, hb⟩
    obtain rfl : "~'dark'" = raw := Option.some.inj (hthemeValue.symm.trans hraw)
    have hnone : namesIn (contentOf "~'dark'") = [] := by cbv
    rw [hnone] at hb
    cases hb
  have hreaches : ∀ name, Reaches (themed.value? themedFile) "@{dir}/a.less".toList name →
      name = "dir".toList ∨ name = "theme".toList := by
    rintro name ⟨first, hfirst, hpath⟩
    rw [hnames, List.mem_singleton] at hfirst
    subst hfirst
    induction hpath with
    | refl => exact .inl rfl
    | tail hpath hrefers ih =>
      rcases ih with rfl | rfl
      · exact .inr (hdir _ hrefers)
      · exact absurd hrefers (htheme _)
  have hcloses : ClosesInterpolations "@{dir}/a.less".toList := List.all_eq_true.1 (by cbv)
  have hdefined : ∀ name, Reaches (themed.value? themedFile) "@{dir}/a.less".toList name →
      ∃ raw, themed.value? themedFile (String.ofList name) = some raw ∧ ClosesInterpolations (contentOf raw) := by
    intro name hname
    rcases hreaches name hname with rfl | rfl
    · exact ⟨_, hdirValue, List.all_eq_true.1 (by cbv)⟩
    · exact ⟨_, hthemeValue, List.all_eq_true.1 (by cbv)⟩
  have hchain : ∀ first ∈ placeholders "@{dir}/a.less".toList, ∀ names,
      List.IsChain (Refers (themed.value? themedFile)) (first :: names) → (first :: names).length ≤ 16 := by
    intro first hfirst names hchain
    rw [hnames, List.mem_singleton] at hfirst
    subst hfirst
    rcases names with _ | ⟨b, _ | ⟨c, names⟩⟩
    · simp
    · simp
    · obtain ⟨hb, hrest⟩ := List.isChain_cons_cons.1 hchain
      obtain rfl := hdir b hb
      exact absurd (List.isChain_cons_cons.1 hrest).1 (htheme c)
  obtain ⟨-, hexpands, hagrees⟩ := interpolate_spec themed themedFile "@{dir}/a.less"
  refine ⟨?_, ?_, ?_⟩
  · refine (interpolate_spec themed themedFile "@{loop}").1 ⟨"loop".toList, ⟨"loop".toList, ?_, .refl⟩, .inr (.single ?_)⟩
    · have hloop : placeholders "@{loop}".toList = ["loop".toList] := by cbv
      rw [hloop]
      exact List.mem_cons_self
    · refine ⟨"@loop", by cbv, ?_⟩
      have hloop : namesIn (contentOf "@loop") = ["loop".toList] := by cbv
      rw [hloop]
      exact List.mem_cons_self
  · obtain ⟨value, hsolves, -, hresult⟩ := hexpands hcloses hdefined hchain
    exact ⟨value, hsolves _ ⟨_, hnames ▸ List.mem_cons_self, .refl⟩, hresult⟩
  · refine (hagrees { themed with globalVars := .empty } themedFile fun name hname => ?_).trans (by cbv)
    rcases hreaches name hname with rfl | rfl
    · exact (by cbv : _ = some "less/@{theme}").trans hdirValue.symm
    · exact (by cbv : _ = some "~'dark'").trans hthemeValue.symm

end StyleTrack.Source
