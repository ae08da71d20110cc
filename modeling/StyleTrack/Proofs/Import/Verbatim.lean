/-
Quoted values in import targets. The quotes around the value of a declaration are taken off when the declaration is
read, and when a variable is expanded, blanks, a tilde and a pair of quotes are taken off again and what is left may be
the name of another variable. So a quoted value comes out as it stands between its quotes exactly when nothing more can
be taken off and it is not one variable itself, or when it is the name of one whose own value is that name.
-/
import StyleTrack.Import.Expansion
import StyleTrack.Proofs.Source.Call
import StyleTrack.Proofs.Source.Declaration
import StyleTrack.Proofs.Source.Interpolation

namespace StyleTrack.Source

open StyleTrack.Text

/-! ## Texts that stand for themselves -/

/-- Whether a text stands for itself as a value: nothing around it is taken off, and it is not one variable. -/
structure Verbatim (v : List Char) : Prop where
  head : ∀ c ∈ v.head?, isBlank c = false
  last : ∀ c ∈ v.getLast?, isBlank c = false
  untilded : v.head? ≠ some '~'
  unquoted : ∀ quote inner, isQuote quote = true → v ≠ quote :: (inner ++ [quote])
  unaliased : ∀ name, name ≠ [] → (∀ c ∈ name, isIdent c = true) → v ≠ '@' :: name

variable {s v name : List Char}

theorem dropTilde_suffix (s : List Char) : dropTilde s <:+ s := by
  unfold dropTilde
  split
  · exact List.suffix_cons _ _
  · exact List.suffix_rfl

theorem dropTilde_eq_self_iff : dropTilde s = s ↔ s.head? ≠ some '~' := by
  unfold dropTilde
  split
  · simp
  · rename_i hnot
    simpa [List.head?_eq_some_iff] using hnot

theorem unquote_isInfix_dropTilde (s : List Char) : unquote s <:+: dropTilde s := by
  unfold unquote
  cases dropTilde s with
  | nil => exact List.nil_infix
  | cons quote body =>
    dsimp only
    split
    · exact (List.dropLast_prefix body).isInfix.trans (List.suffix_cons quote body).isInfix
    · exact List.infix_rfl

theorem unquote_isInfix (s : List Char) : unquote s <:+: s :=
  (unquote_isInfix_dropTilde s).trans (dropTilde_suffix s).isInfix

theorem unquote_quoted {quote : Char} (hquote : isQuote quote = true) (inner : List Char) :
    unquote (quote :: (inner ++ [quote])) = inner := by
  have htilde : quote ≠ '~' := by
    rintro rfl
    cases hquote
  have hdrop : dropTilde (quote :: (inner ++ [quote])) = quote :: (inner ++ [quote]) :=
    dropTilde_eq_self_iff.2 (by simpa using htilde)
  simp [unquote, hdrop, hquote]

theorem unquote_eq_self_iff : unquote v = v ↔
    v.head? ≠ some '~' ∧ ∀ quote inner, isQuote quote = true → v ≠ quote :: (inner ++ [quote]) := by
  constructor
  · intro h
    refine ⟨fun htilde => ?_, fun quote inner hquote heq => ?_⟩
    · obtain ⟨rest, rfl⟩ := List.head?_eq_some_iff.1 htilde
      have hlength : (unquote ('~' :: rest)).length ≤ rest.length := (unquote_isInfix_dropTilde _).length_le
      rw [h, List.length_cons] at hlength
      omega
    · rw [heq, unquote_quoted hquote] at h
      have hlength := congrArg List.length h
      rw [List.length_cons, List.length_append] at hlength
      omega
  · rintro ⟨htilde, hquotes⟩
    have hdrop : dropTilde v = v := dropTilde_eq_self_iff.2 htilde
    unfold unquote
    rw [hdrop]
    cases v with
    | nil => rfl
    | cons quote body =>
      refine if_neg fun hquoted => ?_
      obtain ⟨hquote, hlast⟩ := Bool.and_eq_true_iff.1 hquoted
      obtain ⟨inner, rfl⟩ := List.getLast?_eq_some_iff.1 (of_decide_eq_true hlast)
      exact hquotes quote inner hquote rfl

theorem aliasOf?_eq_some_iff : aliasOf? v = some name ↔ v = '@' :: name ∧ name ≠ [] ∧ ∀ c ∈ name, isIdent c = true := by
  unfold aliasOf?
  split
  · rename_i other
    simp only [Option.ite_none_right_eq_some, Bool.and_eq_true, decide_eq_true_eq, List.all_eq_true, Option.some.injEq,
      List.cons.injEq, true_and]
    constructor
    · rintro ⟨hname, rfl⟩
      exact ⟨rfl, hname⟩
    · rintro ⟨rfl, hname⟩
      exact ⟨hname, rfl⟩
  · rename_i hnot
    refine ⟨fun h => ?_, fun h => absurd h.1 (hnot name)⟩
    cases h

theorem verbatim_iff : Verbatim v ↔ unquote (trim v) = v ∧ aliasOf? v = none := by
  constructor
  · rintro ⟨hhead, hlast, htilde, hquotes, halias⟩
    rw [trim_eq_self_iff.2 ⟨hhead, hlast⟩]
    refine ⟨unquote_eq_self_iff.2 ⟨htilde, hquotes⟩, ?_⟩
    rw [Option.eq_none_iff_forall_ne_some]
    intro name hname
    obtain ⟨heq, hne, hident⟩ := aliasOf?_eq_some_iff.1 hname
    exact halias name hne hident heq
  · rintro ⟨hself, halias⟩
    have htrim : trim v = v := by
      refine (trim_isInfix v).sublist.eq_of_length_le ?_
      exact (congrArg List.length hself).symm.le.trans (unquote_isInfix _).length_le
    rw [htrim] at hself
    obtain ⟨hhead, hlast⟩ := trim_eq_self_iff.1 htrim
    obtain ⟨htilde, hquotes⟩ := unquote_eq_self_iff.1 hself
    refine ⟨hhead, hlast, htilde, hquotes, fun name hne hident heq => ?_⟩
    rw [aliasOf?_eq_some_iff.2 ⟨heq, hne, hident⟩] at halias
    cases halias

/-! ## A variable in a target -/

variable {front back : List Char}

theorem hasInterpolation_of_infix (h : s <:+: v) (hv : hasInterpolation v = false) : hasInterpolation s = false := by
  rw [Bool.eq_false_iff] at hv ⊢
  exact fun hs => hv (hasInterpolation_iff.2 ((hasInterpolation_iff.1 hs).trans h))

/-- A target comes out with a text in place of one of its variables exactly if that is the value of the variable,
whatever else the target interpolates. -/
theorem interpolate_eq_ok_iff_of_placeholder {lookup : String → Option String} {target x y : String}
    (htarget : target.toList = front ++ '@' :: '{' :: (name ++ '}' :: back)) (hfront : ClosesInterpolations front)
    (hname : '}' ∉ name) (hx : interpolate lookup (String.ofList front) = .ok x)
    (hy : interpolate lookup (String.ofList back) = .ok y) :
    interpolate lookup target = .ok (x ++ String.ofList v ++ y) ↔ valueOf lookup maxDepth name = .ok v := by
  have hdepth : maxDepth ≠ 0 := by decide
  rw [interpolate, expandWith_of_ne_zero hdepth] at hx hy ⊢
  rw [String.toList_ofList] at hx hy
  obtain ⟨xs, hxs, rfl⟩ := map_eq_ok_iff.1 hx
  obtain ⟨ys, hys, rfl⟩ := map_eq_ok_iff.1 hy
  rw [htarget, substitute_append_of_closes hfront, substitute_closed hname, hxs, hys]
  cases valueOf lookup maxDepth name with
  | error fault =>
    constructor
    · intro h
      cases h
    · intro h
      cases h
  | ok value =>
    have hout : String.ofList (xs ++ (value ++ ys)) = String.ofList xs ++ String.ofList value ++ String.ofList ys := by
      rw [String.ofList_append, String.ofList_append, String.append_assoc]
    constructor
    · intro h
      have hsame := hout.symm.trans (Except.ok.inj h)
      rw [String.append_left_inj, String.append_right_inj, String.ofList_inj] at hsame
      rw [hsame]
    · intro h
      rw [← Except.ok.inj h]
      exact congrArg Except.ok hout

/-- A value without interpolations is expanded to what is left of it, unless that is one variable. -/
theorem valueOf_eq_ok_self_iff {lookup : String → Option String} {budget : Nat} (hbudget : budget ≠ 0)
    (hlookup : lookup (String.ofList name) = some (String.ofList v)) (hplain : hasInterpolation v = false) :
    valueOf lookup budget name = .ok v ↔
      Verbatim v ∨ ∃ other, aliasOf? (unquote (trim v)) = some other ∧ valueOf lookup (budget - 1) other = .ok v := by
  have hcontent : contentOf (String.ofList v) = unquote (trim v) := by rw [contentOf, String.toList_ofList]
  have hplain' : hasInterpolation (unquote (trim v)) = false :=
    hasInterpolation_of_infix ((unquote_isInfix _).trans (trim_isInfix v)) hplain
  rw [valueOf_eq, hlookup]
  simp only [hcontent, verbatim_iff]
  cases halias : aliasOf? (unquote (trim v)) with
  | none =>
    dsimp only
    rw [expandWith_eq_ok_iff, hplain']
    constructor
    · rintro (⟨-, hself⟩ | ⟨hhas, -⟩)
      · exact .inl ⟨hself, hself ▸ halias⟩
      · cases hhas
    · rintro (⟨hself, -⟩ | ⟨other, hother, -⟩)
      · exact .inl ⟨rfl, hself⟩
      · cases hother
  | some other =>
    dsimp only
    rw [if_neg hbudget]
    constructor
    · exact fun h => .inr ⟨other, rfl, h⟩
    · rintro (⟨hself, hnone⟩ | ⟨_, ⟨⟩, h⟩)
      · rw [hself, hnone] at halias
        cases halias
      · exact h

end StyleTrack.Source

namespace StyleTrack.Expansion

open StyleTrack.Source StyleTrack.Text

variable {options : RenderOptions} {file : Path} {text : List Char} {tasks : List Task} {t : Task}

theorem declared_of_mem_tasksOf (htasks : tasksOf file text = .ok tasks) (ht : t ∈ tasks) :
    t.declared = Variables.ofText (stripComments text) := by
  unfold tasksOf at htasks
  dsimp only at htasks
  split at htasks
  · cases htasks
  · cases htasks
    obtain ⟨directive, -, rfl⟩ := List.mem_map.1 ht
    rfl

/-- What a quoted value becomes in the targets of its file. Let the last declaration of a name be a quoted text without
interpolations, and let the options not override the name. A target with the variable in it, beside whatever else is
expanded there, is expanded with that text in place of the variable exactly if the text stands for itself, or is the
name of a variable that is expanded to that very text. -/
theorem Task.target_quoted (htasks : tasksOf file text = .ok tasks) (ht : t ∈ tasks)
    (hclear : IsClear (stripComments text)) {name v front back : List Char} {lexemes : List Lexeme}
    (hlast : LastDeclares (stripComments text) name lexemes) {quote : Char} (hquote : isQuote quote = true)
    (hvalue : trim (written lexemes) = quote :: (v ++ [quote])) (hplain : hasInterpolation v = false)
    (hmodify : options.modifyVars.get? (String.ofList name) = none)
    (htarget : t.directive.target.toList = front ++ '@' :: '{' :: (name ++ '}' :: back))
    (hfront : ClosesInterpolations front) {x y : String}
    (hx : interpolate (options.value? t.declared) (String.ofList front) = .ok x)
    (hy : interpolate (options.value? t.declared) (String.ofList back) = .ok y) :
    interpolate (options.value? t.declared) t.directive.target = .ok (x ++ String.ofList v ++ y) ↔
      Verbatim v ∨ ∃ other, aliasOf? (unquote (trim v)) = some other ∧
        valueOf (options.value? t.declared) (maxDepth - 1) other = .ok v := by
  have hname : '}' ∉ name := by
    obtain ⟨_, s, _, _, hdeclares, _⟩ := hlast
    intro hmem
    cases hdeclares.isIdent _ hmem
  have hbound : t.declared.get? (String.ofList name) = some (String.ofList v) := by
    rw [declared_of_mem_tasksOf htasks ht]
    refine (get?_ofText_of_isClear hclear _ _).2 ⟨lexemes, by rwa [String.toList_ofList], ?_⟩
    rw [hvalue, unquote_quoted hquote, String.toList_ofList]
  have hlookup : options.value? t.declared (String.ofList name) = some (String.ofList v) := by
    rw [RenderOptions.value?, hmodify, hbound]
    rfl
  rw [interpolate_eq_ok_iff_of_placeholder htarget hfront hname hx hy, valueOf_eq_ok_self_iff (by decide) hlookup hplain]

/-- A style sheet that imports a file below a directory that is a quoted value, in a library that is another. -/
def below (value : String) : List Char :=
  ("@lib: \"lib\";\n@dir: \"" ++ value ++ "\";\n@import \"@{lib}/@{dir}/x\";").toList

def belowTask (value : String) : Task :=
  ⟨.ofString "main.less", Variables.ofText (below value), ⟨"@{lib}/@{dir}/x", {}, 3⟩⟩

/-- A path is imported as it stands, the name of a scoped package is taken for a variable. -/
theorem Task.target_quoted_below :
    (Verbatim "foo/bar".toList ∧
      interpolate (RenderOptions.value? {} (belowTask "foo/bar").declared) "@{lib}/@{dir}/x" = .ok "lib/foo/bar/x") ∧
    ¬ Verbatim "@acme".toList ∧
      interpolate (RenderOptions.value? {} (belowTask "@acme").declared) "@{lib}/@{dir}/x" =
        .error (.undefined "acme") := by
  have hclear : IsClear (stripComments (below "foo/bar")) := of_decide_eq_true (by cbv)
  have htasks : tasksOf (.ofString "main.less") (below "foo/bar") = .ok [belowTask "foo/bar"] := by cbv
  have hlast : LastDeclares (stripComments (below "foo/bar")) "dir".toList
      [.single ' ', ⟨.quoted, "\"foo/bar\"".toList⟩] := lastDeclares_iff.2 (by cbv)
  have hvalue : trim (written [.single ' ', ⟨.quoted, "\"foo/bar\"".toList⟩]) =
      '"' :: ("foo/bar".toList ++ ['"']) := by cbv
  have hverbatim : Verbatim "foo/bar".toList := verbatim_iff.2 ⟨by cbv, by cbv⟩
  have hfront : ClosesInterpolations "@{lib}/".toList := List.all_eq_true.1 (by cbv)
  have hexpanded : interpolate (RenderOptions.value? {} (belowTask "foo/bar").declared) "@{lib}/@{dir}/x" =
      .ok ("lib/" ++ String.ofList "foo/bar".toList ++ "/x") :=
    (Task.target_quoted htasks List.mem_cons_self hclear hlast (by decide) hvalue (by decide) rfl (by cbv) hfront
      (by cbv) (by cbv)).2 (.inl hverbatim)
  refine ⟨⟨hverbatim, hexpanded⟩, fun h => ?_, by cbv⟩
  exact h.unaliased "acme".toList (by decide) (List.all_eq_true.1 (by cbv)) (by cbv)

end StyleTrack.Expansion
