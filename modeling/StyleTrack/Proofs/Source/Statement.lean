/-
`@import` statements that are written down are parsed back: in any text in which statements, each on a line of its own,
alternate with text that opens nothing, the parser finds exactly these statements, in order, with their targets, their
options and the lines on which they stand. Strings and unquoted bodies may hold comments and whole statements.
-/
import StyleTrack.Proofs.Source.Passage
import StyleTrack.Proofs.Text.Joined
import StyleTrack.Source.Directive

namespace StyleTrack.Source

open StyleTrack.Text

/-! ## Written statements -/

/-- The options that an import may have. -/
inductive ImportOption where
  | inline
  | less
  | css
  | optional
  | reference
  | once
  | multiple
deriving DecidableEq, Repr

def ImportOption.name : ImportOption → String
  | inline => "inline"
  | less => "less"
  | css => "css"
  | optional => "optional"
  | reference => "reference"
  | once => "once"
  | multiple => "multiple"

/-- An option between blanks. -/
structure ListedOption where
  lead : Spacing
  option : ImportOption
  trail : Spacing

def ListedOption.text (o : ListedOption) : List Char := o.lead.text ++ o.option.name.toList ++ o.trail.text

/-- Options in parentheses. -/
structure OptionList where
  listed : List ListedOption
  trail : Spacing

/-- What stands between the parentheses. -/
def OptionList.inner (l : OptionList) : List Char := [','].intercalate (l.listed.map ListedOption.text)

def OptionList.text (l : OptionList) : List Char := '(' :: (l.inner ++ ')' :: l.trail.text)

/-- The body of an unquoted `url(…)` that no blanks surround. -/
structure RawUrl where
  content : List Char
  content_ne : content ≠ []
  close_notMem : ')' ∉ content
  isQuote_head : ∀ c ∈ content.head?, isQuote c = false
  isBlank_head : ∀ c ∈ content.head?, isBlank c = false
  isBlank_last : ∀ c ∈ content.getLast?, isBlank c = false

/-- What a statement imports. -/
inductive ImportTarget where
  | string (q : Quotation)
  | quotedUrl (q : Quotation)
  | rawUrl (u : RawUrl)

namespace ImportTarget

def text : ImportTarget → List Char
  | string q => q.text
  | quotedUrl q => ['u', 'r', 'l', '('] ++ (q.text ++ [')'])
  | rawUrl u => ['u', 'r', 'l', '('] ++ u.content ++ [')']

def content : ImportTarget → List Char
  | string q => q.content
  | quotedUrl q => q.content
  | rawUrl u => u.content

end ImportTarget

namespace ImportStatement

/-- The marks that open something, or may. -/
def marks : List Char := ['"', '\'', '/', '(', '@']

end ImportStatement

/-- An `@import` statement. -/
structure ImportStatement where
  lead : Spacing
  lead_ne : lead.text ≠ []
  options : Option OptionList
  target : ImportTarget
  media : Filler ImportStatement.marks

namespace ImportStatement

/-- What stands behind the keyword. -/
def body (s : ImportStatement) : List Char :=
  s.lead.text ++ (s.options.elim [] OptionList.text ++ (s.target.text ++ (s.media.text ++ [';'])))

def text (s : ImportStatement) : List Char := Directive.keyword.word ++ s.body

/-- Statements on fresh lines, each with the text in front of it, and the text after the last one. -/
def written (statements : List (Filler marks × ImportStatement)) (last : Filler marks) : List Char :=
  statements.flatMap (fun s => s.1.text ++ '\n' :: s.2.text) ++ last.text

end ImportStatement

/-! ## What they say -/

/-- The union of some options. -/
def ImportOptions.ofList (options : List ImportOption) : ImportOptions where
  isInline := .inline ∈ options
  isLess := .less ∈ options
  isCss := .css ∈ options
  isOptional := .optional ∈ options

def OptionList.options (l : OptionList) : List ImportOption := l.listed.map ListedOption.option

def ImportStatement.directive (s : ImportStatement) (line : Nat) : Directive :=
  ⟨String.ofList s.target.content, ImportOptions.ofList (s.options.elim [] OptionList.options), line⟩

/-! ## Options -/

theorem ImportOption.isIdent_of_mem_name (o : ImportOption) : ∀ c ∈ o.name.toList, isIdent c = true := by
  cases o <;> exact List.forall_iff_forall_mem.1 (by decide)

theorem ListedOption.trim_text (o : ListedOption) : trim o.text = o.option.name.toList := by
  have hblank : ∀ c ∈ o.option.name.toList, isBlank c = false := fun c hc =>
    isBlank_of_isIdent (o.option.isIdent_of_mem_name c hc)
  have hne : o.option.name.toList ≠ [] := by cases o.option <;> decide
  exact trim_append o.lead.isBlank o.trail.isBlank hne (fun c hc => hblank c (List.mem_of_mem_head? hc))
    fun c hc => hblank c (List.mem_of_getLast? hc)

theorem ListedOption.eq_of_mem_text (o : ListedOption) {c : Char} (hc : c ∈ o.text) :
    isIdent c = true ∨ isAsciiBlank c = true := by
  rcases List.mem_append.1 hc with hc | hc
  · rcases List.mem_append.1 hc with hc | hc
    · exact .inr (o.lead.blank c hc)
    · exact .inl (o.option.isIdent_of_mem_name c hc)
  · exact .inr (o.trail.blank c hc)

theorem OptionList.isIdent_of_mem_getLast? (l : OptionList) : ∀ c ∈ l.text.getLast?, isIdent c = false := by
  intro c hc
  have hlast : l.text.getLast? = lastOf (some ')') l.trail.text := by
    rw [text, getLast?_eq_lastOf none]
    simp
  rw [hlast] at hc
  rcases Option.or_eq_some_iff.1 hc with hc | ⟨-, hc⟩
  · exact l.trail.isIdent_of_mem_getLast? c hc
  · cases hc
    decide

namespace ImportOptions

/-- Options with some more. -/
def union (o : ImportOptions) (options : List ImportOption) : ImportOptions where
  isInline := o.isInline || .inline ∈ options
  isLess := o.isLess || .less ∈ options
  isCss := o.isCss || .css ∈ options
  isOptional := o.isOptional || .optional ∈ options

theorem add_name (o : ImportOptions) (option : ImportOption) : o.add option.name = .ok (o.union [option]) := by
  cases option <;> simp [ImportOption.name, add, union]

theorem union_union (o : ImportOptions) (l m : List ImportOption) : (o.union l).union m = o.union (l ++ m) := by
  simp [union, Bool.or_assoc]

theorem foldlM_add (o : ImportOptions) (l : List ListedOption) :
    (l.map ListedOption.text).foldlM (fun o raw => o.add (String.ofList (trim raw))) o =
      .ok (o.union (l.map ListedOption.option)) := by
  induction l generalizing o with
  | nil => simp [union]; rfl
  | cons first l ih =>
    rw [List.map_cons, List.foldlM_cons, first.trim_text, String.ofList_toList, add_name]
    exact (ih _).trans (by rw [union_union]; rfl)

/-- The options between the parentheses are those that are listed. -/
theorem ofText_inner (l : OptionList) : ofText l.inner = .ok (ofList l.options) := by
  have hunion : ∀ options, union {} options = ofList options := fun options => by simp [union, ofList]
  unfold ofText OptionList.inner OptionList.options
  -- Nothing between the parentheses is one empty name, which is no option.
  by_cases hnil : l.listed = []
  · rw [hnil]
    rfl
  · have hcomma : ∀ t ∈ l.listed.map ListedOption.text, ',' ∉ t := by
      intro t ht hmem
      obtain ⟨o, -, rfl⟩ := List.mem_map.1 ht
      exact ne_of_isIdent_or_isAsciiBlank (o.eq_of_mem_text hmem) (by decide) rfl
    rw [List.splitOn_intercalate ',' hcomma (by simpa using hnil), foldlM_add, hunion]

end ImportOptions

theorem OptionList.eq_of_mem_inner (l : OptionList) {c : Char} (hc : c ∈ l.inner) :
    (isIdent c = true ∨ isAsciiBlank c = true) ∨ c = ',' := by
  rcases mem_of_mem_intercalate hc with hc | ⟨t, ht, hc⟩
  · exact .inr (List.mem_singleton.1 hc)
  · obtain ⟨o, -, rfl⟩ := List.mem_map.1 ht
    exact .inl (o.eq_of_mem_text hc)

theorem splitAtClose?_append {s : List Char} (hs : ')' ∉ s) (rest : List Char) :
    splitAtClose? (s ++ ')' :: rest) = some (s, rest) := by
  simp only [splitAtClose?, dropWhile_ne_append hs, takeWhile_ne_append hs]

/-- The options are what is listed up to the first closing parenthesis. -/
theorem Directive.optionsOf_listed (lead gap : Spacing) {listed : List Char} (hclose : ')' ∉ listed) {rest : List Char}
    (hrest : ∀ c ∈ rest.head?, isAsciiBlank c = false) :
    optionsOf (lead.text ++ '(' :: (listed ++ ')' :: (gap.text ++ rest))) =
      (ImportOptions.ofText listed).map fun o => (o, rest) := by
  rw [optionsOf, skipBlanks_append lead.blank (by rintro c ⟨⟩; decide)]
  simp only [splitAtClose?_append hclose, skipBlanks_append gap.blank hrest]

theorem Directive.optionsOf_list (lead : Spacing) (l : OptionList) {rest : List Char}
    (hrest : ∀ c ∈ rest.head?, isAsciiBlank c = false) :
    optionsOf (lead.text ++ (l.text ++ rest)) = .ok (ImportOptions.ofList l.options, rest) := by
  have hclose : ')' ∉ l.inner := by
    intro hmem
    rcases l.eq_of_mem_inner hmem with h | h
    · exact ne_of_isIdent_or_isAsciiBlank h (by decide) rfl
    · cases h
  have hlisted := optionsOf_listed lead l.trail hclose hrest
  rw [ImportOptions.ofText_inner] at hlisted
  simpa [OptionList.text, Except.map] using hlisted

theorem Directive.optionsOf_of_head? (lead : Spacing) {rest : List Char}
    (hrest : ∀ c ∈ rest.head?, isAsciiBlank c = false ∧ c ≠ '(') :
    optionsOf (lead.text ++ rest) = .ok (ImportOptions.ofList [], rest) := by
  rw [optionsOf, skipBlanks_append lead.blank fun c hc => (hrest c hc).1]
  split
  · exact absurd rfl (hrest '(' rfl).2
  · rfl

/-! ## Targets -/

theorem RawUrl.exists_cons (u : RawUrl) :
    ∃ d body, u.content = d :: body ∧ isQuote d = false ∧ isAsciiBlank d = false := by
  obtain ⟨d, body, hcontent⟩ := List.exists_cons_of_ne_nil u.content_ne
  have hhead : d ∈ u.content.head? := by rw [hcontent]; rfl
  exact ⟨d, body, hcontent, u.isQuote_head d hhead, isAsciiBlank_of_isBlank (u.isBlank_head d hhead)⟩

theorem quotedTarget?_body (q : Quotation) (rest : List Char) :
    quotedTarget? q.quote (q.content ++ [q.quote] ++ rest) = some q.content := by
  simp only [quotedTarget?, q.quotedLength_body, List.take_left]
  simp

namespace ImportTarget

/-- A target starts with a mark or a letter. -/
theorem head_text (t : ImportTarget) (rest : List Char) :
    ∀ c ∈ (t.text ++ rest).head?, isAsciiBlank c = false ∧ c ≠ '(' := by
  cases t with
  | string q =>
    rintro c ⟨⟩
    refine ⟨isAsciiBlank_of_isQuote q.isQuote_quote, fun heq => ?_⟩
    have hquote := q.isQuote_quote
    rw [heq] at hquote
    cases hquote
  | quotedUrl q =>
    rintro c ⟨⟩
    decide
  | rawUrl u =>
    rintro c ⟨⟩
    decide

theorem target?_url (body : List Char) : target? (['u', 'r', 'l', '('] ++ body) =
    match skipBlanks body with
    | [] => none
    | d :: body =>
      if isQuote d then quotedTarget? d body
      else match splitAtClose? (d :: body) with
        | none => none
        | some (raw, _) => if trim raw = [] then none else some (trim raw) := rfl

theorem target?_text (t : ImportTarget) (rest : List Char) : target? (t.text ++ rest) = some t.content := by
  cases t with
  | string q =>
    rw [text, Quotation.text, List.cons_append, target?, if_pos q.isQuote_quote]
    exact quotedTarget?_body q rest
  | quotedUrl q =>
    have hskip : skipBlanks (q.text ++ [')'] ++ rest) = q.quote :: (q.content ++ [q.quote] ++ ([')'] ++ rest)) := by
      have hblank := isAsciiBlank_of_isQuote q.isQuote_quote
      simp [Quotation.text, skipBlanks, hblank]
    rw [text, List.append_assoc, target?_url, hskip]
    simp only [q.isQuote_quote, if_true, quotedTarget?_body, content]
  | rawUrl u =>
    obtain ⟨d, body, hcontent, hquote, hblank⟩ := u.exists_cons
    have hskip : skipBlanks (u.content ++ ([')'] ++ rest)) = d :: (body ++ ')' :: rest) := by
      simp [hcontent, skipBlanks, hblank]
    have hclose : splitAtClose? (d :: (body ++ ')' :: rest)) = some (u.content, rest) := by
      rw [← List.cons_append, ← hcontent, splitAtClose?_append u.close_notMem]
    have htrim : trim u.content = u.content := by
      simpa using trim_append (s := []) (u := []) (by simp) (by simp) u.content_ne u.isBlank_head u.isBlank_last
    rw [text, List.append_assoc, List.append_assoc, target?_url, hskip]
    simp [hquote, hclose, htrim, u.content_ne, content]

end ImportTarget

/-! ## Parsing -/

theorem isPlain_directiveKeyword : Directive.keyword.IsPlain where
  word_ne := by decide
  lower := List.forall_iff_forall_mem.1 (by decide)
  opensNothing := List.forall_iff_forall_mem.1 (by decide)
  notUrl := by decide
  once := List.forall_iff_forall_mem.1 (by decide)

namespace ImportStatement

variable (s : ImportStatement)

theorem optionsOf_body (rest : List Char) : ∃ tail, Directive.optionsOf (s.body ++ rest) =
    .ok (ImportOptions.ofList (s.options.elim [] OptionList.options), s.target.text ++ tail) := by
  refine ⟨s.media.text ++ [';'] ++ rest, ?_⟩
  have hhead := s.target.head_text (s.media.text ++ [';'] ++ rest)
  unfold body
  cases s.options with
  | none =>
    have hnone := Directive.optionsOf_of_head? s.lead hhead
    simpa using hnone
  | some l =>
    have hlist := Directive.optionsOf_list s.lead l fun c hc => (hhead c hc).1
    simpa using hlist

/-- A statement says what it says, whatever follows it. -/
theorem ofText_body (line : Nat) (rest : List Char) :
    Directive.ofText line (s.body ++ rest) = .ok (s.directive line) := by
  obtain ⟨tail, hoptions⟩ := s.optionsOf_body rest
  simp only [Directive.ofText, hoptions, bind, Except.bind, s.target.target?_text]
  rfl

theorem isLongerWord_body (line : Nat) (rest : List Char) : Directive.isLongerWord ⟨line, s.body ++ rest⟩ = false := by
  obtain ⟨c, lead, hlead⟩ := List.exists_cons_of_ne_nil s.lead_ne
  have hblank : isAsciiBlank c = true := s.lead.blank c (hlead ▸ List.mem_cons_self)
  simp [Directive.isLongerWord, body, hlead, isIdent_of_isAsciiBlank hblank]

end ImportStatement

namespace Directive

variable {before : Option Char} {s rest : List Char}

/-- Text without the marks that open something. -/
theorem passes_of_unmarked (hs : ∀ c ∈ s, (isQuote c = false ∧ c ≠ '/' ∧ c ≠ '(') ∧ c ≠ '@')
    (hlast : rest = [] ∨ ∀ c ∈ s.getLast?, isIdent c = false) : keyword.Passes before s rest :=
  Keyword.passes_of_mark rfl (by decide) hs hlast

theorem unmarked_of_isIdent_or_isAsciiBlank {c : Char} (hc : isIdent c = true ∨ isAsciiBlank c = true) :
    (isQuote c = false ∧ c ≠ '/' ∧ c ≠ '(') ∧ c ≠ '@' :=
  ⟨opensNothing_of_isIdent_or_isAsciiBlank hc, ne_of_isIdent_or_isAsciiBlank hc (by decide)⟩

theorem passes_spacing (s : Spacing) : keyword.Passes before s.text rest :=
  passes_of_unmarked (fun c hc => unmarked_of_isIdent_or_isAsciiBlank (.inr (s.blank c hc)))
    (.inr s.isIdent_of_mem_getLast?)

theorem passes_open : keyword.Passes before ['('] rest := by
  refine Keyword.passes_of_plain (List.forall_iff_forall_mem.1 (by decide)) fun t ht hne => ?_
  obtain rfl := (List.suffix_cons_iff.1 ht).resolve_right fun hnil => hne (List.suffix_nil.1 hnil)
  exact ⟨rfl, rfl⟩

theorem passes_optionList (l : OptionList) : keyword.Passes before l.text rest := by
  have hclosed : ∀ before rest, keyword.Passes before (l.inner ++ [')']) rest := by
    refine fun before rest => passes_of_unmarked (fun c hc => ?_) (.inr ?_)
    · rcases List.mem_append.1 hc with hc | hc
      · rcases l.eq_of_mem_inner hc with hc | rfl
        · exact unmarked_of_isIdent_or_isAsciiBlank hc
        · decide
      · obtain rfl := List.mem_singleton.1 hc
        decide
    · rw [List.getLast?_concat]
      rintro c ⟨⟩
      decide
  have htext : l.text = ['('] ++ (l.inner ++ [')'] ++ l.trail.text) := by simp [OptionList.text]
  rw [htext]
  exact passes_open.append ((hclosed _ _).append (passes_spacing l.trail))

theorem passes_target (t : ImportTarget) (hbefore : before.any isIdent = false) :
    keyword.Passes before t.text rest := by
  have hword : ∀ t, startsWord keyword.word ('u' :: t) = false := fun t => rfl
  cases t with
  | string q => exact Keyword.passes_quotation q
  | quotedUrl q =>
    refine (Keyword.passes_urlOpening hword hbefore q.isQuote_quote).append ((Keyword.passes_quotation q).append ?_)
    refine passes_of_unmarked (List.forall_iff_forall_mem.1 (by decide)) (.inr ?_)
    rintro c ⟨⟩
    rfl
  | rawUrl u =>
    obtain ⟨d, body, hcontent, hquote, hblank⟩ := u.exists_cons
    rw [ImportTarget.text, hcontent]
    exact Keyword.passes_url hword hbefore (hblank) hquote (hcontent ▸ u.close_notMem)

end Directive

namespace ImportStatement

/-- What stands in front of the keyword of a statement. -/
def front (s : Filler marks × ImportStatement) : List Char := s.1.text ++ ['\n']

/-- What stands behind the keyword of a statement. -/
def back (s : Filler marks × ImportStatement) : List Char := s.2.body

theorem written_eq_document (statements : List (Filler marks × ImportStatement)) (last : Filler marks) :
    written statements last = Directive.keyword.document front back statements last.text := by
  simp [written, Keyword.document, text, front, back]

theorem unmarked_of_mem_filler (f : Filler marks) {c : Char} (hc : c ∈ f.text) :
    (isQuote c = false ∧ c ≠ '/' ∧ c ≠ '(') ∧ c ≠ '@' := by
  refine ⟨f.opensNothing (List.forall_iff_forall_mem.1 (by decide)) c hc, ?_⟩
  rintro rfl
  exact f.free '@' hc (by decide)

/-- Text between marks that ends in a character of no name. -/
theorem passes_filler_concat (f : Filler marks) {before : Option Char} {rest : List Char} {d : Char}
    (hmark : (isQuote d = false ∧ d ≠ '/' ∧ d ≠ '(') ∧ d ≠ '@') (hident : isIdent d = false) :
    Directive.keyword.Passes before (f.text ++ [d]) rest := by
  refine Directive.passes_of_unmarked (fun c hc => ?_) (.inr ?_)
  · rcases List.mem_append.1 hc with hc | hc
    · exact unmarked_of_mem_filler f hc
    · rwa [List.mem_singleton.1 hc]
  · rw [List.getLast?_concat]
    rintro c ⟨⟩
    exact hident

theorem passes_last (last : Filler marks) (before : Option Char) : Directive.keyword.Passes before last.text [] :=
  Directive.passes_of_unmarked (fun _ => unmarked_of_mem_filler last) (.inl rfl)

theorem passes_body (s : ImportStatement) {before : Option Char} {rest : List Char} :
    Directive.keyword.Passes before s.body rest := by
  -- In front of the target there is a blank or a closing parenthesis, so that `url(` is a word of its own there.
  have hlead : (lastOf before s.lead.text).any isIdent = false := any_lastOf s.lead_ne s.lead.isIdent_of_mem_getLast?
  have htarget : (lastOf (lastOf before s.lead.text) (s.options.elim [] OptionList.text)).any isIdent = false := by
    cases s.options with
    | none => exact hlead
    | some l => exact any_lastOf (List.cons_ne_nil _ _) l.isIdent_of_mem_getLast?
  refine (Directive.passes_spacing s.lead).append (Keyword.Passes.append ?_ ?_)
  · cases s.options with
    | none => exact Keyword.passes_nil
    | some l => exact Directive.passes_optionList l
  · exact (Directive.passes_target s.target htarget).append (passes_filler_concat s.media (by decide) (by decide))

theorem frames : Directive.keyword.Frames front back := by
  refine ⟨fun s before rest => passes_filler_concat s.1 (by decide) (by decide), fun s before => ?_,
    fun s before rest => s.2.passes_body⟩
  rw [front, lastOf, List.getLast?_concat]
  rfl

end ImportStatement

/-- Parsing written statements finds each of them, with its target, its options and the line on which it stands. -/
theorem Directive.parse_written (statements : List (Filler ImportStatement.marks × ImportStatement))
    (last : Filler ImportStatement.marks) :
    parse (stripComments (ImportStatement.written statements last)) =
      .ok (statements.mapIdx fun i s =>
        s.2.directive (1 + (ImportStatement.written (statements.take i) s.1 ++ ['\n']).count '\n')) := by
  have hline : ∀ i (s : Filler ImportStatement.marks × ImportStatement),
      ImportStatement.written (statements.take i) s.1 ++ ['\n'] =
        keyword.document ImportStatement.front ImportStatement.back (statements.take i) (ImportStatement.front s) := by
    intro i s
    rw [ImportStatement.written_eq_document]
    simp [Keyword.document, ImportStatement.front]
  have hlast := ImportStatement.passes_last last
  have hstrip := ImportStatement.frames.stripAfter_document isPlain_directiveKeyword hlast none statements
  have hfind := ImportStatement.frames.findAfter_document isPlain_directiveKeyword hlast none 1 statements
  rw [ImportStatement.written_eq_document]
  change ((keyword.findAfter none 1 (stripAfter none _)).filter _).mapM _ = _
  rw [hstrip, hfind, List.filter_eq_self.2 fun o ho => ?_]
  · refine mapM_mapIdx_eq_ok fun i s => ?_
    rw [ImportStatement.back, s.2.ofText_body, hline]
    rfl
  · obtain ⟨i, hi, rfl⟩ := List.mem_mapIdx.1 ho
    simp [ImportStatement.back, ImportStatement.isLongerWord_body]

/-- A statement with two options for a screen, and one of an unquoted path that looks like a comment. -/
example :
    let tight : Spacing := ⟨[], by simp⟩
    let blank : Spacing := ⟨[' '], List.all_eq_true.1 rfl⟩
    let options : OptionList := ⟨[⟨tight, .inline, tight⟩, ⟨blank, .optional, tight⟩], blank⟩
    let base : Quotation := ⟨'"', "a.css".toList, by decide, by decide, by decide⟩
    let theme : RawUrl :=
      ⟨"b/*c*/".toList, by decide, by decide, by simp [isQuote], by simp [isBlank], by simp [isBlank]⟩
    let screen : Filler ImportStatement.marks := ⟨" screen".toList, List.forall_iff_forall_mem.1 (by decide)⟩
    let nothing : Filler ImportStatement.marks := ⟨[], by simp⟩
    let first : ImportStatement := ⟨blank, by decide, some options, .string base, screen⟩
    let second : ImportStatement := ⟨blank, by decide, none, .rawUrl theme, nothing⟩
    let text := "\n@import (inline, optional) \"a.css\" screen;\n@import url(b/*c*/);".toList
    ImportStatement.written [(nothing, first), (nothing, second)] nothing = text ∧
      Directive.parse (stripComments text) =
        .ok [⟨"a.css", .ofList [.inline, .optional], 2⟩, ⟨"b/*c*/", {}, 3⟩] := by
  constructor <;> cbv

end StyleTrack.Source
