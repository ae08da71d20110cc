/-
The declarations of a text and what is taken for one. A text is read place by place: how many braces and parentheses
are open there, and whether a statement may start. A declaration starts where none is open and a statement may start,
and its value goes on to the end of the statement. The variables of a text are those that its last declarations of each
name give, as long as the text is clear: nothing in parentheses or in an unquoted body reads as a declaration, and no
value holds a `;` or a closing brace outside of strings.
-/
import StyleTrack.Source.Variable
import StyleTrack.Proofs.Map.Entries
import StyleTrack.Proofs.Source.Code
import Mathlib

namespace StyleTrack.Source

open StyleTrack.Text

/-! ## Places -/

/-- How many braces and parentheses are open at a place of a text, and whether a statement may start there. -/
structure Place where
  braces : Nat
  parens : Nat
  fresh : Bool
deriving DecidableEq, Repr

namespace Place

/-- The place where a text starts, and every other one where a declaration may stand. -/
def start : Place := ⟨0, 0, true⟩

/-- The place at top level inside a statement. -/
def inside : Place := ⟨0, 0, false⟩

/-- The place behind one more character. -/
def next (p : Place) (c : Char) : Place where
  braces := if c = '{' then p.braces + 1 else if c = '}' then p.braces - 1 else p.braces
  parens := if c = '(' then p.parens + 1 else if c = ')' then p.parens - 1 else p.parens
  fresh := c = '{' || c = '}' || c = ';' || (p.fresh && isAsciiBlank c)

/-- The place behind a text that is read character by character. -/
def after (p : Place) (text : List Char) : Place := text.foldl next p

/-- The place behind a lexeme. In strings and in unquoted bodies nothing is opened or closed. -/
def behind (p : Place) (l : Lexeme) : Place := if l.kind = .plain then p.after l.text else { p with fresh := false }

end Place

/-! ## Declarations -/

/-- The name that a text starts with and the text behind its colon. -/
def header? (text : List Char) : Option (List Char × List Char) :=
  if text.takeWhile isIdent = [] then none
  else match skipBlanks (text.dropWhile isIdent) with
    | ':' :: rest => some (text.takeWhile isIdent, rest)
    | _ => none

/-- The lexemes of a value: up to the end of the statement, which a `;` ends that is not part of it, or the closing
brace of a block that is. -/
def valueIn (p : Place) : List Lexeme → List Lexeme
  | [] => []
  | l :: rest =>
    if p.behind l = .start then (if p.braces = 0 then [] else [l])
    else l :: valueIn (p.behind l) rest

/-- A lexeme at its place and the text behind it. -/
structure Site where
  place : Place
  lexeme : Lexeme
  rest : List Char
deriving DecidableEq, Repr

/-- Where the lexemes of a text stand, which starts at a place. -/
def sites (p : Place) : List Lexeme → List Site
  | [] => []
  | l :: rest => ⟨p, l, written rest⟩ :: sites (p.behind l) rest

/-- Where the lexemes of a text stand. -/
def sitesOf (text : List Char) : List Site := sites .start (segment opaqueStep none text)

namespace Site

/-- Whether a declaration of a name stands at a site, whose value has some lexemes. -/
structure Declares (s : Site) (name : List Char) (value : List Lexeme) : Prop where
  place : s.place = .start
  mark : s.lexeme = .single '@'
  name_ne : name ≠ []
  isIdent : ∀ c ∈ name, isIdent c = true
  value : ∃ blanks rest, s.rest = name ++ (blanks ++ ':' :: rest) ∧ (∀ c ∈ blanks, isAsciiBlank c = true) ∧
    value = valueIn .inside (segment opaqueStep (some ':') rest)

/-- The name and the value of the declaration at a site. -/
def declared? (s : Site) : Option (List Char × List Lexeme) :=
  if s.place = .start ∧ s.lexeme = .single '@' then
    (header? s.rest).map fun found => (found.1, valueIn .inside (segment opaqueStep (some ':') found.2))
  else none

/-- What the declaration at a site binds. -/
def binding? (s : Site) : Option (String × String) :=
  s.declared?.map fun found => (String.ofList found.1, String.ofList (unquote (trim (written found.2))))

end Site

theorem header?_eq_some_iff {text name rest : List Char} : header? text = some (name, rest) ↔
    name ≠ [] ∧ (∀ c ∈ name, isIdent c = true) ∧
      ∃ blanks, text = name ++ (blanks ++ ':' :: rest) ∧ ∀ c ∈ blanks, isAsciiBlank c = true := by
  constructor
  · intro h
    unfold header? at h
    split_ifs at h with hne
    split at h
    · rename_i after hskip
      obtain ⟨rfl, rfl⟩ := Prod.mk.inj (Option.some.inj h)
      refine ⟨hne, fun c => List.mem_takeWhile_imp, (text.dropWhile isIdent).takeWhile isAsciiBlank, ?_,
        fun c => List.mem_takeWhile_imp⟩
      rw [← hskip, skipBlanks, List.takeWhile_append_dropWhile, List.takeWhile_append_dropWhile]
    · cases h
  · rintro ⟨hne, hname, blanks, rfl, hblanks⟩
    have hhead : ∀ c ∈ (blanks ++ ':' :: rest).head?, isIdent c = false := by
      intro c hc
      cases blanks with
      | nil =>
        cases hc
        rfl
      | cons b blanks =>
        cases hc
        exact isIdent_of_isAsciiBlank (hblanks c List.mem_cons_self)
    have hdrop : (name ++ (blanks ++ ':' :: rest)).dropWhile isIdent = blanks ++ ':' :: rest :=
      dropWhile_append_of_head? hname hhead
    have htake : (name ++ (blanks ++ ':' :: rest)).takeWhile isIdent = name := by
      have hsplit := List.takeWhile_append_dropWhile (p := isIdent) (l := name ++ (blanks ++ ':' :: rest))
      rw [hdrop] at hsplit
      exact List.append_cancel_right hsplit
    have hskip : skipBlanks (blanks ++ ':' :: rest) = ':' :: rest := by
      refine skipBlanks_append hblanks ?_
      rintro c ⟨⟩
      rfl
    simp only [header?, htake, hdrop, hskip, if_neg hne]

theorem Site.declared?_eq_some_iff {s : Site} {name : List Char} {value : List Lexeme} :
    s.declared? = some (name, value) ↔ s.Declares name value := by
  unfold declared?
  constructor
  · intro h
    split_ifs at h with hplace
    obtain ⟨⟨name', rest⟩, hheader, heq⟩ := Option.map_eq_some_iff.1 h
    obtain ⟨rfl, rfl⟩ := Prod.mk.inj heq
    obtain ⟨hne, hname, blanks, hrest, hblanks⟩ := header?_eq_some_iff.1 hheader
    exact ⟨hplace.1, hplace.2, hne, hname, blanks, rest, hrest, hblanks, rfl⟩
  · rintro ⟨hplace, hmark, hne, hname, blanks, rest, hrest, hblanks, rfl⟩
    rw [if_pos ⟨hplace, hmark⟩, header?_eq_some_iff.2 ⟨hne, hname, blanks, hrest, hblanks⟩]
    rfl

/-! ## Clear texts -/

/-- Whether a text with another one behind it has an `@` where a statement may start outside of braces and a name and a
colon follow, if it is read character by character. -/
def showsDeclaration (p : Place) : (text rest : List Char) → Bool
  | [], _ => false
  | c :: text, rest =>
    (c = '@' && p.braces = 0 && p.fresh && (header? (text ++ rest)).isSome) || showsDeclaration (p.next c) text rest

/-- Whether a lexeme is a string or holds nothing that could be taken for the end of a value. -/
def Lexeme.EndsNothing (l : Lexeme) : Prop := l.kind ≠ .quoted → ';' ∉ l.text ∧ '}' ∉ l.text

/-- Whether nothing but a declaration reads as one at a site, and the value of a declaration ends where it seems to. -/
@[mk_iff]
structure Site.Clear (s : Site) : Prop where
  /-- What shows as a declaration outside of braces is one, and in no parentheses or unquoted body. -/
  shown : s.lexeme.kind ≠ .quoted → showsDeclaration s.place s.lexeme.text s.rest = true → s.declared?.isSome = true
  /-- An unquoted body holds no quotes, and braces in pairs only. -/
  url : s.lexeme.kind = .url →
    (∀ c ∈ s.lexeme.text, isQuote c = false) ∧ (s.place.after s.lexeme.text).braces = s.place.braces
  /-- A value holds no `;` and no closing brace outside of strings. -/
  value : ∀ found ∈ s.declared?, ∀ l ∈ found.2, l.EndsNothing

/-- Whether nothing but the declarations of a text reads as one. -/
def IsClear (text : List Char) : Prop := ∀ s ∈ sitesOf text, s.Clear

/-- Tells if a site is clear. -/
def Site.isClear (s : Site) : Bool :=
  (s.lexeme.kind = .quoted || !showsDeclaration s.place s.lexeme.text s.rest || s.declared?.isSome) &&
    (s.lexeme.kind ≠ .url ||
      (s.lexeme.text.all (!isQuote ·) && (s.place.after s.lexeme.text).braces = s.place.braces)) &&
    s.declared?.all fun found =>
      found.2.all fun l => l.kind = .quoted || (!l.text.contains ';' && !l.text.contains '}')

theorem Site.isClear_iff {s : Site} : s.isClear = true ↔ s.Clear := by
  rw [isClear, clear_iff, Bool.and_eq_true, Bool.and_eq_true, and_assoc]
  refine and_congr ?_ (and_congr ?_ ?_)
  · simp [or_iff_not_imp_left]
  · simp [or_iff_not_imp_left]
  · cases s.declared? with
    | none => simp
    | some found => simp [Lexeme.EndsNothing, or_iff_not_imp_left]

instance (text : List Char) : Decidable (IsClear text) :=
  decidable_of_iff ((sitesOf text).all Site.isClear = true) (by simp [IsClear, Site.isClear_iff])

/-! ## Reading character by character -/

variable {before : Option Char} {c : Char} {body rest text : List Char} {kind : Kind} {p : Place}

theorem Declaration.ofText?_eq (text : List Char) : Declaration.ofText? text = (header? text).map fun found =>
    ⟨String.ofList found.1, String.ofList (unquote (trim (found.2.take (valueLength found.2)))),
      found.2.drop (valueLength found.2)⟩ := by
  unfold Declaration.ofText? header?
  dsimp only
  split_ifs
  · rfl
  · cases skipBlanks (text.dropWhile isIdent) with
    | nil => rfl
    | cons c rest =>
      by_cases hcolon : c = ':'
      · subst hcolon
        rfl
      · simp [hcolon]

theorem declarations_mark (rest : List Char) : declarations 0 true ('@' :: rest) =
    match header? rest with
    | some (name, after) =>
      (String.ofList name, String.ofList (unquote (trim (after.take (valueLength after))))) ::
        declarations 0 true (after.drop (valueLength after))
    | none => declarations 0 false rest := by
  rw [declarations]
  simp only [isQuote, Char.reduceEq, decide_false, Bool.or_self, Bool.false_eq_true, if_false, decide_true, Bool.and_self,
    if_true]
  split
  · rename_i d hd
    rw [Declaration.ofText?_eq] at hd
    obtain ⟨⟨name, after⟩, hheader, rfl⟩ := Option.map_eq_some_iff.1 hd
    rw [hheader]
  · rename_i hd
    rw [Declaration.ofText?_eq] at hd
    rw [Option.map_eq_none_iff.1 hd]

/-- A character that is no quote and starts no declaration leads to the next place. -/
theorem declarations_cons (hquote : isQuote c = false)
    (hnone : c = '@' → p.braces = 0 → p.fresh = true → header? rest = none) :
    declarations p.braces p.fresh (c :: rest) = declarations (p.next c).braces (p.next c).fresh rest := by
  by_cases hopen : c = '{'
  · subst hopen
    rw [declarations]
    rfl
  by_cases hclose : c = '}'
  · subst hclose
    rw [declarations]
    rfl
  by_cases hend : c = ';'
  · subst hend
    rw [declarations]
    rfl
  have hbraces : (p.next c).braces = p.braces := by simp [Place.next, hopen, hclose]
  have hfresh : (p.next c).fresh = (p.fresh && isAsciiBlank c) := by simp [Place.next, hopen, hclose, hend]
  rw [hbraces, hfresh]
  by_cases hmark : c = '@' ∧ p.braces = 0 ∧ p.fresh = true
  · obtain ⟨rfl, hzero, hstart⟩ := hmark
    rw [hzero, hstart, declarations_mark, hnone rfl hzero hstart]
    rfl
  · have hnot : (c = '@' && p.braces = 0 && p.fresh) = false := by
      simpa [Bool.and_assoc] using hmark
    rw [declarations]
    simp [hquote, hopen, hclose, hend, hnot]

theorem declarations_append (hquote : ∀ c ∈ text, isQuote c = false) (h : showsDeclaration p text rest = false) :
    declarations p.braces p.fresh (text ++ rest) = declarations (p.after text).braces (p.after text).fresh rest := by
  induction text generalizing p with
  | nil => rfl
  | cons c text ih =>
    obtain ⟨hfirst, hothers⟩ := Bool.or_eq_false_iff.1 h
    rw [List.cons_append, declarations_cons (hquote c List.mem_cons_self), ih ?_ hothers]
    · rfl
    · exact fun d hd => hquote d (List.mem_cons_of_mem _ hd)
    · rintro rfl hzero hstart
      simpa [hzero, hstart] using hfirst

/-! ## Lexemes -/

theorem bounded_opaqueStep : Bounded opaqueStep := by
  intro before c rest
  unfold opaqueStep
  split_ifs
  · exact quotedLength_le c rest
  · exact bounded_urlStep before c rest

theorem opaqueStep_cases (h : opaqueStep before c (body ++ rest) = (kind, body.length)) :
    (kind = .quoted ∧ isQuote c = true ∧ quotedLength c (body ++ rest) = body.length) ∨
      (kind ≠ .quoted ∧ isQuote c = false ∧ CodeLexeme before c body rest kind) := by
  unfold opaqueStep at h
  split_ifs at h with hquote
  · obtain ⟨rfl, hlength⟩ := Prod.mk.inj h
    exact .inl ⟨rfl, hquote, hlength⟩
  · have hcode := urlStep_iff.1 h
    refine .inr ⟨?_, Bool.eq_false_iff.2 hquote, hcode⟩
    cases hcode <;> decide

theorem map_toLower_of_opensUrl {word : List Char} (hlength : word.length = 3)
    (h : opensUrl before (c :: word) = true) : (c :: word).map Char.toLower = ['u', 'r', 'l', '('] := by
  have hword := startsWord_iff.1 (Bool.and_eq_true_iff.1 h).1
  exact (hword.eq_of_length (by simp [hlength])).symm

theorem Place.fresh_after_concat {d : Char} (hd : d = '(' ∨ d = ')') (p : Place) (text : List Char) :
    (p.after (text ++ [d])).fresh = false := by
  rw [Place.after, List.foldl_append]
  rcases hd with rfl | rfl <;> simp [Place.next, isAsciiBlank]

theorem getLast?_or_eq_nil_of_closeLength (h : closeLength (body ++ rest) = body.length) :
    body.getLast? = some ')' ∨ rest = [] := by
  induction body with
  | nil =>
    cases rest with
    | nil => exact .inr rfl
    | cons c rest =>
      rw [List.nil_append, closeLength] at h
      split at h <;> cases h
  | cons c body ih =>
    rw [List.cons_append, closeLength, List.length_cons] at h
    split_ifs at h with hc
    · obtain rfl := List.length_eq_zero_iff.1 (Nat.succ_inj.1 h).symm
      exact .inl (congrArg some hc)
    · refine (ih (Nat.add_right_cancel h)).imp (fun hlast => ?_) id
      rw [List.getLast?_cons, hlast]
      rfl

namespace CodeLexeme

/-- Only an unquoted body can hold a quote. -/
theorem isQuote_eq_false (h : CodeLexeme before c body rest kind) (hc : isQuote c = false) (hkind : kind ≠ .url) :
    ∀ d ∈ c :: body, isQuote d = false := by
  cases h with
  | url word inner rest length opens raw => exact absurd rfl hkind
  | opening word rest length opens quoted =>
    intro d hd
    have hlower : d.toLower ∈ ['u', 'r', 'l', '('] := map_toLower_of_opensUrl length opens ▸ List.mem_map_of_mem hd
    have hplain : isQuote d.toLower = false := by
      simp only [List.mem_cons, List.not_mem_nil, or_false] at hlower
      rcases hlower with h | h | h | h <;> rw [h] <;> rfl
    by_contra hquote
    rw [isQuote_of_toLower (Bool.not_eq_false _ ▸ hquote)] at hplain
    cases hplain
  | single rest opens =>
    intro d hd
    rwa [List.mem_singleton.1 hd]

/-- Behind an unquoted body no statement may start, and nothing follows one that is not closed. -/
theorem fresh_after_url (h : CodeLexeme before c body rest .url) (p : Place) :
    (p.after (c :: body)).fresh = false ∨ rest = [] := by
  cases h with
  | url word inner rest length opens raw =>
    unfold rawUrlLength? at raw
    split_ifs at raw
    refine (getLast?_or_eq_nil_of_closeLength (Option.some.inj raw)).imp (fun hlast => ?_) id
    obtain ⟨front, rfl⟩ := List.getLast?_eq_some_iff.1 hlast
    rw [← List.append_assoc, ← List.cons_append]
    exact Place.fresh_after_concat (.inr rfl) p _

theorem fresh_after_opening (h : CodeLexeme before c body rest .plain) (hbody : body ≠ []) (p : Place) :
    (p.after (c :: body)).fresh = false := by
  cases h with
  | opening word rest length opens quoted =>
    obtain ⟨r, l, d, rfl⟩ := List.length_eq_three.1 length
    have hlower := map_toLower_of_opensUrl length opens
    have hd : d = '(' := (toLower_eq_iff (by decide)).1 (by simpa using congrArg List.getLast? hlower)
    exact Place.fresh_after_concat (.inl hd) p [c, r, l]
  | single rest opens => exact absurd rfl hbody

end CodeLexeme

theorem sites_of_step (hstep : opaqueStep before c (body ++ rest) = (kind, body.length)) :
    sites p (segment opaqueStep before (c :: body ++ rest)) = ⟨p, ⟨kind, c :: body⟩, rest⟩ ::
      sites (p.behind ⟨kind, c :: body⟩) (segment opaqueStep (lastOf before (c :: body)) rest) := by
  rw [segment_append_of_step hstep, sites, written_segment]

theorem Site.declared?_of_place_ne {s : Site} (h : s.place ≠ .start) : s.declared? = none := by
  rw [declared?, if_neg fun hplace => h hplace.1]

/-- No lexeme of a clear text but a string holds quotes. -/
theorem isQuote_of_clear (hcode : CodeLexeme before c body rest kind) (hquote : isQuote c = false)
    (hclear : (Site.mk p ⟨kind, c :: body⟩ rest).Clear) : ∀ d ∈ c :: body, isQuote d = false := by
  by_cases hurl : kind = .url
  · exact (hclear.url hurl).1
  · exact hcode.isQuote_eq_false hquote hurl

/-- A lexeme that is clear and no declaration leads to the place behind it. -/
theorem declarations_lexeme (hstep : opaqueStep before c (body ++ rest) = (kind, body.length))
    (hclear : (Site.mk p ⟨kind, c :: body⟩ rest).Clear) (hnone : (Site.mk p ⟨kind, c :: body⟩ rest).declared? = none) :
    declarations p.braces p.fresh (c :: body ++ rest) =
      declarations (p.behind ⟨kind, c :: body⟩).braces (p.behind ⟨kind, c :: body⟩).fresh rest := by
  rcases opaqueStep_cases hstep with ⟨rfl, hquote, hlength⟩ | ⟨hkind, hquote, hcode⟩
  · rw [List.cons_append, declarations, if_pos hquote, hlength, List.drop_left]
    rfl
  · have hshows : showsDeclaration p (c :: body) rest = false := by
      by_contra hshows
      have hsome := hclear.shown hkind (Bool.not_eq_false _ ▸ hshows)
      rw [hnone] at hsome
      cases hsome
    rw [declarations_append (isQuote_of_clear hcode hquote hclear) hshows]
    by_cases hurl : kind = .url
    · subst hurl
      rcases hcode.fresh_after_url p with hfresh | rfl
      · rw [hfresh, (hclear.url rfl).2]
        rfl
      · rw [declarations, declarations]
    · have hplain : kind = .plain := by
        cases hcode with
        | url => exact absurd rfl hurl
        | opening => rfl
        | single => rfl
      rw [Place.behind, if_pos hplain]

/-! ## Values -/

theorem valueLength_quoted (hquote : isQuote c = true) (h : quotedLength c (body ++ rest) = body.length) :
    valueLength (c :: body ++ rest) = (c :: body).length + valueLength rest := by
  rw [List.cons_append, valueLength, if_pos hquote]
  simp only [h, List.drop_left, List.length_cons]

theorem valueLength_append (hquote : ∀ c ∈ text, isQuote c = false) (hend : ';' ∉ text ∧ '}' ∉ text) :
    valueLength (text ++ rest) = text.length + valueLength rest := by
  induction text with
  | nil => simp
  | cons c text ih =>
    simp only [List.mem_cons, not_or] at hend
    obtain ⟨⟨hsemi, hsemi'⟩, hclose, hclose'⟩ := hend
    have hc : (c = ';' || c = '}') = false := by simp [Ne.symm hsemi, Ne.symm hclose]
    rw [List.cons_append, valueLength, hquote c List.mem_cons_self]
    simp only [hc, Bool.false_eq_true, if_false]
    rw [ih (fun d hd => hquote d (List.mem_cons_of_mem _ hd)) ⟨hsemi', hclose'⟩, List.length_cons]
    omega

theorem valueLength_lexeme (hstep : opaqueStep before c (body ++ rest) = (kind, body.length))
    (hclear : (Site.mk p ⟨kind, c :: body⟩ rest).Clear) (hends : (Lexeme.mk kind (c :: body)).EndsNothing) :
    valueLength (c :: body ++ rest) = (c :: body).length + valueLength rest := by
  rcases opaqueStep_cases hstep with ⟨-, hquote, hlength⟩ | ⟨hkind, hquote, hcode⟩
  · exact valueLength_quoted hquote hlength
  · exact valueLength_append (isQuote_of_clear hcode hquote hclear) (hends hkind)

theorem valueLength_of_mark (h : c = ';' ∨ c = '}') (rest : List Char) : valueLength (c :: rest) = 0 := by
  rw [valueLength]
  rcases h with rfl | rfl <;> simp [isQuote]

/-- How the value that starts a text ends. -/
inductive ValueEnds (p : Place) (before : Option Char) (text : List Char) : Prop
  /-- It goes on to the end of the text. -/
  | whole (hvalue : written (valueIn p (segment opaqueStep before text)) = text)
    (hlength : valueLength text = text.length)
    (hnone : ∀ s ∈ sites p (segment opaqueStep before text), s.declared? = none)
  /-- A mark ends it, behind which a declaration may stand. -/
  | mark {value rest : List Char} {mark : Char} {last : Option Char} {front : List Site}
    (htext : text = value ++ mark :: rest) (hmark : mark = ';' ∨ mark = '}')
    (hvalue : written (valueIn p (segment opaqueStep before text)) = value)
    (hlength : valueLength text = value.length)
    (hsites : sites p (segment opaqueStep before text) = front ++ sites .start (segment opaqueStep last rest))
    (hnone : ∀ s ∈ front, s.declared? = none)

theorem Place.inside_ne_start : inside ≠ start := by decide

theorem Place.eq_mark_of_next_eq_start (hp : p ≠ .start) (h : p.next c = .start) : c = ';' ∨ c = '}' := by
  by_contra hnot
  obtain ⟨hend, hclose⟩ := not_or.1 hnot
  have hopen : c ≠ '{' := by
    rintro rfl
    exact Nat.succ_ne_zero _ (congrArg Place.braces h)
  have hfresh : p.fresh = true ∧ isAsciiBlank c = true := by
    simpa [next, start, hopen, hclose, hend] using congrArg Place.fresh h
  obtain ⟨hstart, hblank⟩ := hfresh
  have hparen := (opensNothing_of_isIdent_or_isAsciiBlank (.inr hblank)).2.2
  have hparen' : c ≠ ')' := ne_of_isIdent_or_isAsciiBlank (.inr hblank) ⟨by decide, by decide⟩
  -- A blank changes nothing, so the place was one where a declaration may stand.
  have hsame : p.next c = p := by
    obtain ⟨braces, parens, fresh⟩ := p
    simp only [] at hstart
    subst hstart
    simp [next, hopen, hclose, hparen, hparen', hblank]
  exact hp (hsame ▸ h)

/-- Only a mark leads from inside a statement to where the next may start. -/
theorem eq_mark_of_behind_eq_start (hp : p ≠ .start) (hstep : opaqueStep before c (body ++ rest) = (kind, body.length))
    (h : p.behind ⟨kind, c :: body⟩ = .start) : body = [] ∧ (c = ';' ∨ c = '}') := by
  have hplain : kind = .plain := by
    by_contra hkind
    rw [Place.behind, if_neg hkind] at h
    cases congrArg Place.fresh h
  subst hplain
  rw [Place.behind, if_pos rfl] at h
  rcases opaqueStep_cases hstep with ⟨hkind, -, -⟩ | ⟨-, -, hcode⟩
  · cases hkind
  · have hbody : body = [] := by
      by_contra hbody
      have hfresh := hcode.fresh_after_opening hbody p
      rw [h] at hfresh
      cases hfresh
    subst hbody
    exact ⟨rfl, Place.eq_mark_of_next_eq_start hp h⟩

/-- A mark ends a value in front of it. -/
theorem valueEnds_of_mark (hp : p ≠ .start) (hstep : opaqueStep before c (body ++ rest) = (kind, body.length))
    (hbehind : p.behind ⟨kind, c :: body⟩ = .start)
    (hvalue : ∀ l ∈ valueIn p (segment opaqueStep before (c :: body ++ rest)), l.EndsNothing) :
    ValueEnds p before (c :: body ++ rest) := by
  have hsites : sites p (segment opaqueStep before (c :: body ++ rest)) = _ := sites_of_step hstep
  rw [hbehind] at hsites
  obtain ⟨rfl, hmark⟩ := eq_mark_of_behind_eq_start hp hstep hbehind
  -- A brace that closes a block would be part of the value.
  have hbraces : p.braces = 0 := by
    by_contra hbraces
    rw [segment_append_of_step hstep, valueIn, if_pos hbehind, if_neg hbraces] at hvalue
    have hplain : kind ≠ .quoted := by
      rintro rfl
      cases congrArg Place.fresh hbehind
    have hfree := hvalue _ List.mem_cons_self hplain
    rcases hmark with rfl | rfl
    · exact hfree.1 List.mem_cons_self
    · exact hfree.2 List.mem_cons_self
  refine .mark (List.nil_append _).symm hmark ?_ (valueLength_of_mark hmark rest)
    (hsites.trans List.singleton_append.symm) fun s hs => ?_
  · rw [segment_append_of_step hstep, valueIn, if_pos hbehind, if_pos hbraces]
    rfl
  · rw [List.mem_singleton.1 hs]
    exact Site.declared?_of_place_ne hp

/-- A lexeme inside a value does not change how the value ends. -/
theorem ValueEnds.lexeme (hp : p ≠ .start) (hstep : opaqueStep before c (body ++ rest) = (kind, body.length))
    (hbehind : p.behind ⟨kind, c :: body⟩ ≠ .start)
    (hlength : valueLength (c :: body ++ rest) = (c :: body).length + valueLength rest)
    (h : ValueEnds (p.behind ⟨kind, c :: body⟩) (lastOf before (c :: body)) rest) :
    ValueEnds p before (c :: body ++ rest) := by
  have hfirst : (Site.mk p ⟨kind, c :: body⟩ rest).declared? = none := Site.declared?_of_place_ne hp
  have hsites : sites p (segment opaqueStep before (c :: body ++ rest)) = _ := sites_of_step hstep
  have hwritten : written (valueIn p (segment opaqueStep before (c :: body ++ rest))) = c :: body ++
      written (valueIn (p.behind ⟨kind, c :: body⟩) (segment opaqueStep (lastOf before (c :: body)) rest)) := by
    rw [segment_append_of_step hstep, valueIn, if_neg hbehind]
    rfl
  cases h with
  | whole hvalue hrest hnone =>
    refine .whole (by rw [hwritten, hvalue]) (by rw [hlength, hrest, List.length_append]) ?_
    rw [hsites]
    exact List.forall_mem_cons.2 ⟨hfirst, hnone⟩
  | mark htext hmark hvalue hrest hsites' hnone =>
    subst htext
    exact .mark (List.append_assoc _ _ _).symm hmark (by rw [hwritten, hvalue])
      (by rw [hlength, hrest, List.length_append])
      (hsites.trans ((congrArg _ hsites').trans List.cons_append.symm)) (List.forall_mem_cons.2 ⟨hfirst, hnone⟩)

/-- Every value ends, if what is in it ends nothing. -/
theorem valueEnds (hp : p ≠ .start) (hclear : ∀ s ∈ sites p (segment opaqueStep before text), s.Clear)
    (hvalue : ∀ l ∈ valueIn p (segment opaqueStep before text), l.EndsNothing) : ValueEnds p before text := by
  induction before, text using bounded_opaqueStep.induction generalizing p with
  | nil before =>
    have hnil : segment opaqueStep before [] = [] := by rw [segment]
    refine .whole ?_ (by rw [valueLength, List.length_nil]) ?_
    · rw [hnil]
      rfl
    · rw [hnil]
      simp [sites]
  | cons before c body rest kind hstep ih =>
    by_cases hbehind : p.behind ⟨kind, c :: body⟩ = .start
    · exact valueEnds_of_mark hp hstep hbehind hvalue
    · rw [segment_append_of_step hstep, valueIn, if_neg hbehind] at hvalue
      rw [sites_of_step hstep] at hclear
      obtain ⟨hfirst, hothers⟩ := List.forall_mem_cons.1 hclear
      obtain ⟨hends, hends'⟩ := List.forall_mem_cons.1 hvalue
      exact .lexeme hp hstep hbehind (valueLength_lexeme hstep hfirst hends) (ih hbehind hothers hends')

/-! ## Bindings -/

/-- Characters that open and close nothing stay inside the statement. -/
theorem sites_map_single (h : ∀ c ∈ text, Place.inside.next c = .inside) (lexemes : List Lexeme) :
    ∃ front, sites .inside (text.map Lexeme.single ++ lexemes) = front ++ sites .inside lexemes ∧
      ∀ s ∈ front, s.declared? = none := by
  induction text with
  | nil => exact ⟨[], rfl, by simp⟩
  | cons c text ih =>
    obtain ⟨front, hsites, hnone⟩ := ih fun d hd => h d (List.mem_cons_of_mem _ hd)
    have hbehind : Place.inside.behind (.single c) = .inside := h c List.mem_cons_self
    refine ⟨⟨.inside, .single c, written (text.map Lexeme.single ++ lexemes)⟩ :: front, ?_,
      List.forall_mem_cons.2 ⟨Site.declared?_of_place_ne Place.inside_ne_start, hnone⟩⟩
    rw [List.map_cons, List.cons_append, sites, hbehind, hsites, List.cons_append]

theorem Place.next_inside (h : (isIdent c = true ∨ isAsciiBlank c = true) ∨ c = ':') :
    Place.inside.next c = .inside := by
  have hne : ∀ d, (isIdent d = false ∧ isAsciiBlank d = false) ∧ ':' ≠ d → c ≠ d := by
    rintro d ⟨hplain, hcolon⟩
    rcases h with h | rfl
    · exact ne_of_isIdent_or_isAsciiBlank h hplain
    · exact hcolon
  simp [next, inside, hne '{' (by decide), hne '}' (by decide), hne '(' (by decide), hne ')' (by decide),
    hne ';' (by decide)]

/-- What stands between the `@` of a declaration and its value is no declaration. -/
theorem sites_header {name : List Char} (hname : ∀ c ∈ name, isIdent c = true) {blanks : List Char}
    (hblanks : ∀ c ∈ blanks, isAsciiBlank c = true) (before : Option Char) (rest : List Char) :
    ∃ front, sites .inside (segment opaqueStep before (name ++ (blanks ++ ':' :: rest))) =
        front ++ sites .inside (segment opaqueStep (some ':') rest) ∧ ∀ s ∈ front, s.declared? = none := by
  have hchars : ∀ c ∈ name ++ blanks ++ [':'], (isIdent c = true ∨ isAsciiBlank c = true) ∨ c = ':' := by
    simp only [List.mem_append, List.mem_singleton]
    exact fun c hc => hc.imp (Or.imp (hname c) (hblanks c)) id
  have hopens : ∀ c ∈ name ++ blanks ++ [':'], isQuote c = false ∧ c ≠ '(' := by
    intro c hc
    rcases hchars c hc with hplain | rfl
    · exact (opensNothing_of_isIdent_or_isAsciiBlank hplain).imp id And.right
    · decide
  have hlast : ∀ c ∈ (name ++ blanks ++ [':']).getLast?, isIdent c = false := by
    rw [List.getLast?_concat]
    rintro c ⟨⟩
    rfl
  have hstep : ∀ before c t, c :: t <:+ name ++ blanks ++ [':'] → opaqueStep before c (t ++ rest) = (.plain, 0) := by
    intro before c t ht
    rw [opaqueStep, (hopens c (ht.subset List.mem_cons_self)).1]
    exact Keyword.urlStep_of_not_startsWord
      (startsWord_suffix_append Keyword.isCall_url (fun hmem => (hopens _ hmem).2 rfl) (.inr hlast) ht (List.cons_ne_nil c t))
  have htext : name ++ (blanks ++ ':' :: rest) = name ++ blanks ++ [':'] ++ rest := by simp
  have hcolon : lastOf before (name ++ blanks ++ [':']) = some ':' := by simp
  rw [htext, segment_append_of_plain hstep, hcolon]
  exact sites_map_single (fun c hc => Place.next_inside (hchars c hc)) _

theorem filterMap_binding?_of_forall {front : List Site} (h : ∀ s ∈ front, s.declared? = none) (back : List Site) :
    (front ++ back).filterMap Site.binding? = back.filterMap Site.binding? := by
  have hnone : front.filterMap Site.binding? = [] := by
    refine List.filterMap_eq_nil_iff.2 fun s hs => ?_
    rw [Site.binding?, h s hs]
    rfl
  rw [List.filterMap_append, hnone, List.nil_append]

/-- Behind a value the bindings are those of what follows it. -/
theorem declarations_behind_value (hclear : ∀ s ∈ sites .inside (segment opaqueStep before text), s.Clear)
    (hvalue : ∀ l ∈ valueIn .inside (segment opaqueStep before text), l.EndsNothing)
    (ih : ∀ last rest, rest.length < text.length → (∀ s ∈ sites .start (segment opaqueStep last rest), s.Clear) →
      declarations 0 true rest = (sites .start (segment opaqueStep last rest)).filterMap Site.binding?) :
    text.take (valueLength text) = written (valueIn .inside (segment opaqueStep before text)) ∧
      declarations 0 true (text.drop (valueLength text)) =
        (sites .inside (segment opaqueStep before text)).filterMap Site.binding? := by
  cases valueEnds Place.inside_ne_start hclear hvalue with
  | whole hwritten hlength hnone =>
    have hrest := filterMap_binding?_of_forall hnone []
    rw [List.append_nil] at hrest
    rw [hwritten, hlength, List.take_length, List.drop_length, hrest, declarations]
    exact ⟨rfl, rfl⟩
  | @mark value rest mark last front htext hmark hwritten hlength hsites hnone =>
    subst htext
    rw [hwritten, hlength, List.take_left, List.drop_left, hsites, filterMap_binding?_of_forall hnone]
    rw [hsites] at hclear
    have hquote : isQuote mark = false ∧ mark ≠ '@' ∧ Place.start.next mark = .start := by
      rcases hmark with rfl | rfl <;> decide
    have hskip : declarations 0 true (mark :: rest) = declarations 0 true rest := by
      have hnext : declarations Place.start.braces Place.start.fresh (mark :: rest) = _ :=
        declarations_cons hquote.1 fun heq => absurd heq hquote.2.1
      rwa [hquote.2.2] at hnext
    refine ⟨rfl, hskip.trans (ih last rest ?_ fun s hs => hclear s (List.mem_append_right _ hs))⟩
    rw [List.length_append, List.length_cons]
    omega

/-- A declaration binds its name, and behind it the bindings are those of what follows it. -/
theorem declarations_declared {name : List Char} {lexemes : List Lexeme}
    (hdeclares : (Site.mk p ⟨kind, c :: body⟩ rest).Declares name lexemes) (hends : ∀ l ∈ lexemes, l.EndsNothing)
    (hclear : ∀ s ∈ sites (p.behind ⟨kind, c :: body⟩) (segment opaqueStep before rest), s.Clear)
    (ih : ∀ last later, later.length < rest.length → (∀ s ∈ sites .start (segment opaqueStep last later), s.Clear) →
      declarations 0 true later = (sites .start (segment opaqueStep last later)).filterMap Site.binding?) :
    declarations p.braces p.fresh (c :: body ++ rest) =
      (String.ofList name, String.ofList (unquote (trim (written lexemes)))) ::
        (sites (p.behind ⟨kind, c :: body⟩) (segment opaqueStep before rest)).filterMap Site.binding? := by
  obtain ⟨hplace, hmark, hne, hname, blanks, after, hrest, hblanks, rfl⟩ := hdeclares
  obtain ⟨rfl, hchars⟩ := Lexeme.mk.inj hmark
  obtain ⟨rfl, rfl⟩ := List.cons.inj hchars
  dsimp only at hplace hrest
  subst hplace hrest
  have hinside : Place.start.behind ⟨.plain, ['@']⟩ = .inside := by decide
  obtain ⟨front, hfront, hnone⟩ := sites_header hname hblanks before after
  rw [hinside, hfront] at hclear ⊢
  obtain ⟨htake, hdrop⟩ := declarations_behind_value (fun s hs => hclear s (List.mem_append_right _ hs)) hends
    fun last later hlength => by
      refine ih last later (Nat.lt_trans hlength ?_)
      simp only [List.length_append, List.length_cons]
      omega
  have hheader : header? (name ++ (blanks ++ ':' :: after)) = some (name, after) :=
    header?_eq_some_iff.2 ⟨hne, hname, blanks, rfl, hblanks⟩
  have hmarked := declarations_mark (name ++ (blanks ++ ':' :: after))
  rw [hheader] at hmarked
  rw [filterMap_binding?_of_forall hnone, ← htake, ← hdrop]
  exact hmarked

/-- Read character by character, a clear text has the bindings of its declarations. -/
theorem declarations_eq_bindings (hclear : ∀ s ∈ sites p (segment opaqueStep before text), s.Clear) :
    declarations p.braces p.fresh text = (sites p (segment opaqueStep before text)).filterMap Site.binding? := by
  induction hn : text.length using Nat.strongRecOn generalizing p before text with
  | ind n ih =>
    cases text with
    | nil =>
      have hnil : segment opaqueStep before [] = [] := by rw [segment]
      rw [hnil, declarations]
      rfl
    | cons c text =>
      obtain ⟨body, rest, kind, rfl, hstep⟩ := bounded_opaqueStep.exists_lexeme before c text
      rw [← List.cons_append, sites_of_step hstep] at hclear ⊢
      obtain ⟨hfirst, hothers⟩ := List.forall_mem_cons.1 hclear
      have hshorter : rest.length < n := by
        rw [← hn, List.length_cons, List.length_append]
        omega
      cases hdeclared : (Site.mk p ⟨kind, c :: body⟩ rest).declared? with
      | none =>
        have hnone : (Site.mk p ⟨kind, c :: body⟩ rest).binding? = none := by rw [Site.binding?, hdeclared]; rfl
        rw [List.filterMap_cons_none hnone, declarations_lexeme hstep hfirst hdeclared]
        exact ih _ hshorter hothers rfl
      | some found =>
        obtain ⟨name, lexemes⟩ := found
        have hbinding : (Site.mk p ⟨kind, c :: body⟩ rest).binding? =
          some (String.ofList name, String.ofList (unquote (trim (written lexemes)))) := by
            rw [Site.binding?, hdeclared]
            rfl
        rw [List.filterMap_cons_some hbinding]
        exact declarations_declared (Site.declared?_eq_some_iff.1 hdeclared) (hfirst.value _ hdeclared) hothers
          fun last later hlength hclear => ih later.length (Nat.lt_trans hlength hshorter) hclear rfl

/-! ## Variables -/

theorem Site.binding?_eq_some_iff {s : Site} {name value : String} : s.binding? = some (name, value) ↔
    ∃ lexemes, s.Declares name.toList lexemes ∧ value.toList = unquote (trim (written lexemes)) := by
  unfold binding?
  rw [Option.map_eq_some_iff]
  constructor
  · rintro ⟨⟨chars, lexemes⟩, hdeclared, heq⟩
    obtain ⟨rfl, rfl⟩ := Prod.mk.inj heq
    rw [String.toList_ofList, String.toList_ofList]
    exact ⟨lexemes, declared?_eq_some_iff.1 hdeclared, rfl⟩
  · rintro ⟨lexemes, hdeclares, hvalue⟩
    refine ⟨(name.toList, lexemes), declared?_eq_some_iff.2 hdeclares, ?_⟩
    rw [← hvalue, String.ofList_toList, String.ofList_toList]

/-- Whether the last declaration of a name in a text has some lexemes for its value. -/
def LastDeclares (text name : List Char) (lexemes : List Lexeme) : Prop :=
  ∃ front s back, sitesOf text = front ++ s :: back ∧ s.Declares name lexemes ∧
    ∀ s' ∈ back, ∀ lexemes', ¬ s'.Declares name lexemes'

/-- The value in the last declaration of a name. -/
def lastDeclared? (text name : List Char) : Option (List Lexeme) :=
  (sitesOf text).reverse.findSome? fun s =>
    s.declared?.bind fun found => if found.1 = name then some found.2 else none

theorem lastDeclares_iff {text name : List Char} {lexemes : List Lexeme} :
    LastDeclares text name lexemes ↔ lastDeclared? text name = some lexemes := by
  have hsome : ∀ (s : Site) (value : List Lexeme),
      (s.declared?.bind fun found => if found.1 = name then some found.2 else none) = some value ↔
        s.Declares name value := by
    intro s value
    rw [← Site.declared?_eq_some_iff]
    cases s.declared? with
    | none => simp
    | some found =>
      obtain ⟨name', value'⟩ := found
      simp [Prod.mk.injEq]
  have hnone : ∀ s : Site, (s.declared?.bind fun found => if found.1 = name then some found.2 else none) = none ↔
      ∀ value, ¬ s.Declares name value := by
    intro s
    simp only [Option.eq_none_iff_forall_ne_some, ne_eq, hsome]
  simp only [lastDeclared?, List.findSome?_eq_some_iff, hsome, hnone]
  constructor
  · rintro ⟨front, s, back, hsplit, hs, hback⟩
    exact ⟨back.reverse, s, front.reverse, by simp [hsplit], hs, by simpa using hback⟩
  · rintro ⟨front, s, back, hsplit, hs, hfront⟩
    exact ⟨back.reverse, s, front.reverse, by simpa using congrArg List.reverse hsplit, hs, by simpa using hfront⟩

theorem declarations_of_isClear {text : List Char} (h : IsClear text) :
    declarations 0 true text = (sitesOf text).filterMap Site.binding? := declarations_eq_bindings h

theorem get?_ofText_of_isClear {text : List Char} (h : IsClear text) (name value : String) :
    (Variables.ofText text).get? name = some value ↔
      ∃ lexemes, LastDeclares text name.toList lexemes ∧ value.toList = unquote (trim (written lexemes)) := by
  rw [Variables.ofText, declarations_of_isClear h, SortedMap.get?_ofList_filterMap_eq_some_iff]
  constructor
  · rintro ⟨front, s, back, hsplit, hs, hback⟩
    obtain ⟨lexemes, hdeclares, hvalue⟩ := Site.binding?_eq_some_iff.1 hs
    refine ⟨lexemes, ⟨front, s, back, hsplit, hdeclares, fun s' hs' lexemes' hdeclares' => ?_⟩, hvalue⟩
    refine hback s' hs' (String.ofList (unquote (trim (written lexemes')))) (Site.binding?_eq_some_iff.2 ?_)
    exact ⟨lexemes', hdeclares', String.toList_ofList⟩
  · rintro ⟨lexemes, ⟨front, s, back, hsplit, hdeclares, hback⟩, hvalue⟩
    refine ⟨front, s, back, hsplit, Site.binding?_eq_some_iff.2 ⟨lexemes, hdeclares, hvalue⟩, fun s' hs' w hw => ?_⟩
    obtain ⟨lexemes', hdeclares', -⟩ := Site.binding?_eq_some_iff.1 hw
    exact hback s' hs' lexemes' hdeclares'

/-- The variables of a clear text: a name is bound exactly when a declaration of it stands in the text, and then to the
value of the last one. -/
theorem Variables.bound_iff_declared {text : List Char} (h : IsClear text) (name : String) :
    (∀ value, (Variables.ofText text).get? name = some value ↔
      ∃ lexemes, LastDeclares text name.toList lexemes ∧ value.toList = unquote (trim (written lexemes))) ∧
    ((∃ value, (Variables.ofText text).get? name = some value) ↔
      ∃ s ∈ sitesOf text, ∃ lexemes, s.Declares name.toList lexemes) := by
  refine ⟨fun value => get?_ofText_of_isClear h name value, ?_⟩
  constructor
  · rintro ⟨value, hvalue⟩
    obtain ⟨lexemes, ⟨front, s, back, hsplit, hdeclares, -⟩, -⟩ := (get?_ofText_of_isClear h name value).1 hvalue
    exact ⟨s, by rw [hsplit]; simp, lexemes, hdeclares⟩
  · rintro ⟨s, hs, lexemes, hdeclares⟩
    have hbinding : s.binding? = some (name, String.ofList (unquote (trim (written lexemes)))) :=
      Site.binding?_eq_some_iff.2 ⟨lexemes, hdeclares, String.toList_ofList⟩
    have hmem : (name, String.ofList (unquote (trim (written lexemes)))) ∈ declarations 0 true text := by
      rw [declarations_of_isClear h]
      exact List.mem_filterMap.2 ⟨s, hs, hbinding⟩
    exact SortedMap.exists_get?_ofList hmem

/-- Declarations at top level, and what looks like them in a rule and in a string. -/
def layered : List Char := ".a \x7b @x: \"in\"; \x7d\n@x: \"@y: 1;\";\n@x: ~'last';".toList

/-- A ruleset as a value, with a declaration in it. -/
def detached : List Char := "@r: \x7b a: b; @dir: \"in\"; \x7d".toList

theorem Variables.bound_iff_declared_layered :
    IsClear layered ∧ lastDeclared? layered ['x'] = some [.single ' ', .single '~', ⟨.quoted, "'last'".toList⟩] ∧
      (Variables.ofText layered).get? "x" = some "last" ∧ (Variables.ofText layered).get? "y" = none ∧
      ¬ IsClear detached ∧ (Variables.ofText detached).get? "dir" = some "in" ∧
      lastDeclared? detached "dir".toList = none := by
  have hclear : IsClear layered := of_decide_eq_true (by cbv)
  have hlast : lastDeclared? layered ['x'] = some [.single ' ', .single '~', ⟨.quoted, "'last'".toList⟩] := by cbv
  have hy : ∀ s ∈ sitesOf layered, s.declared?.all (·.1 ≠ "y".toList) = true := List.all_eq_true.1 (by cbv)
  refine ⟨hclear, hlast, ?_, ?_, of_decide_eq_false (by cbv), by cbv, by cbv⟩
  · exact ((Variables.bound_iff_declared hclear "x").1 "last").2 ⟨_, lastDeclares_iff.2 hlast, by cbv⟩
  · rw [Option.eq_none_iff_forall_ne_some]
    intro value hvalue
    obtain ⟨s, hs, lexemes, hdeclares⟩ := (Variables.bound_iff_declared hclear "y").2.1 ⟨value, hvalue⟩
    have hne := hy s hs
    rw [Site.declared?_eq_some_iff.2 hdeclares] at hne
    simp at hne

end StyleTrack.Source
