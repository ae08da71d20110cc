/-
Calls of `data-uri` that are written down are found again: in any text in which calls alternate with text that opens
nothing, a scan finds exactly these calls, in order, with what their arguments say and the line on which they stand.
What the strings hold does not matter, be it separators, comments or whole calls.
-/
import StyleTrack.Proofs.Source.Passage
import StyleTrack.Proofs.Text.Blank
import StyleTrack.Source.Reference

namespace StyleTrack.Source

open StyleTrack.Text

/-! ## Written calls -/

/-- A quoted string as an argument, with `~` in front or without. -/
structure StringArgument where
  isEscaped : Bool
  string : Quotation

/-- The argument that names the path of a call. -/
inductive PathArgument where
  | string (a : StringArgument)
  /-- `@name` -/
  | named (name : List Char) (ident : ∀ c ∈ name, isIdent c = true)

/-- The argument for the mime type, up to the argument for the path. -/
structure MimeArgument where
  argument : StringArgument
  beforeComma : Spacing
  afterComma : Spacing

/-- A call of `data-uri`. -/
structure Call where
  lead : Spacing
  mime : Option MimeArgument
  path : PathArgument
  trail : Spacing

def StringArgument.text (a : StringArgument) : List Char := (if a.isEscaped then ['~'] else []) ++ a.string.text

def PathArgument.text : PathArgument → List Char
  | .string a => a.text
  | .named name _ => '@' :: name

def MimeArgument.text (m : MimeArgument) : List Char :=
  m.argument.text ++ m.beforeComma.text ++ ',' :: m.afterComma.text

namespace Call

/-- The text between the parentheses. -/
def arguments (c : Call) : List Char :=
  c.lead.text ++ (c.mime.elim [] MimeArgument.text ++ (c.path.text ++ c.trail.text))

def text (c : Call) : List Char := ' ' :: (Reference.keyword.word ++ (c.arguments ++ [')', ';']))

/-- The marks that open something, or may. -/
def marks : List Char := ['"', '\'', '/', '(']

/-- Calls, each with the text in front of it, and the text after the last one. -/
def written (calls : List (Filler marks × Call)) (last : Filler marks) : List Char :=
  calls.flatMap (fun c => c.1.text ++ c.2.text) ++ last.text

end Call

/-! ## What they say -/

/-- A string is a path as it is if no variable is interpolated in it. -/
def PathArgument.path : PathArgument → ReferencePath
  | .string a =>
    if ['@', '{'] <:+: a.string.content then .dynamic (String.ofList a.string.content)
    else .literal (String.ofList a.string.content)
  | .named name _ => .dynamic (String.ofList ('@' :: name))

def Call.reference (c : Call) (line : Nat) : Reference :=
  ⟨c.path.path, c.mime.map fun m => String.ofList m.argument.string.content, line⟩

/-! ## Shapes of arguments -/

theorem hasInterpolation_iff {s : List Char} : hasInterpolation s = true ↔ ['@', '{'] <:+: s := by
  fun_induction hasInterpolation s with
  | case1 rest => simpa using List.infix_append [] ['@', '{'] rest
  | case2 c rest hnot ih =>
    rw [ih, List.infix_cons_iff]
    refine ⟨.inr, fun h => h.resolve_left fun hprefix => ?_⟩
    obtain ⟨hc, hrest⟩ := List.cons_prefix_cons.1 hprefix
    obtain ⟨tail, hrest, -⟩ := List.cons_prefix_iff.1 hrest
    exact hnot tail hc.symm hrest
  | case3 => simp

variable {lead trail : List Char}

namespace StringArgument

variable (a : StringArgument)

theorem quote_ne_tilde : a.string.quote ≠ '~' := by
  intro heq
  have hquote := a.string.isQuote_quote
  rw [heq] at hquote
  cases hquote

theorem dropTilde_text : dropTilde a.text = a.string.text := by
  unfold text
  cases a.isEscaped with
  | true => rfl
  | false =>
    rw [if_neg (by decide), List.nil_append, Quotation.text, dropTilde]
    intro rest heq
    exact a.quote_ne_tilde (List.cons.inj heq).1

theorem isBlank_of_mem_head? {c : Char} (hc : c ∈ a.text.head?) : isBlank c = false := by
  unfold text at hc
  cases hescaped : a.isEscaped with
  | true =>
    rw [hescaped] at hc
    cases hc
    decide
  | false =>
    rw [hescaped] at hc
    cases hc
    exact isBlank_of_isQuote a.string.isQuote_quote

theorem isBlank_of_mem_getLast? {c : Char} (hc : c ∈ a.text.getLast?) : isBlank c = false := by
  rw [text, Quotation.text, ← List.cons_append, ← List.append_assoc, List.getLast?_concat] at hc
  cases hc
  exact isBlank_of_isQuote a.string.isQuote_quote

theorem text_ne_nil : a.text ≠ [] := by simp [text, Quotation.text]

/-- Between blanks a string is taken for what it holds. -/
theorem classify_text (hlead : ∀ c ∈ lead, isBlank c = true) (htrail : ∀ c ∈ trail, isBlank c = true) :
    Argument.classify (lead ++ a.text ++ trail) = if ['@', '{'] <:+: a.string.content then
      .interpolated (String.ofList a.string.content) else .literal (String.ofList a.string.content) := by
  have htrim : trim (lead ++ a.text ++ trail) = a.text :=
    trim_append hlead htrail a.text_ne_nil (fun _ => a.isBlank_of_mem_head?) (fun _ => a.isBlank_of_mem_getLast?)
  have hunquoted : unquoted? a.string.text = some a.string.content := by
    have hlength := a.string.quotedLength_body []
    rw [List.append_nil] at hlength
    simp [Quotation.text, unquoted?, a.string.isQuote_quote, hlength]
  simp only [Argument.classify, htrim, if_neg a.text_ne_nil, a.dropTilde_text, hunquoted, ← hasInterpolation_iff]

end StringArgument

namespace PathArgument

theorem text_ne_nil (p : PathArgument) : p.text ≠ [] := by
  cases p with
  | string a => exact a.text_ne_nil
  | named name ident => exact List.cons_ne_nil _ _

theorem trim_text (p : PathArgument) (hlead : ∀ c ∈ lead, isBlank c = true) (htrail : ∀ c ∈ trail, isBlank c = true) :
    trim (lead ++ p.text ++ trail) = p.text := by
  cases p with
  | string a =>
    exact trim_append hlead htrail a.text_ne_nil (fun _ => a.isBlank_of_mem_head?) (fun _ => a.isBlank_of_mem_getLast?)
  | named name ident =>
    refine trim_append hlead htrail (List.cons_ne_nil _ _) ?_ ?_
    · rintro c ⟨⟩
      decide
    · intro c hc
      rcases List.mem_cons.1 (List.mem_of_getLast? hc) with rfl | hc
      · decide
      · exact isBlank_of_isIdent (ident c hc)

/-- Between blanks the path argument names the path that it stands for. -/
theorem pathOf_classify (p : PathArgument) (hlead : ∀ c ∈ lead, isBlank c = true)
    (htrail : ∀ c ∈ trail, isBlank c = true) :
    Reference.pathOf (Argument.classify (lead ++ p.text ++ trail)) = .ok p.path := by
  have htrim := p.trim_text hlead htrail
  cases p with
  | string a =>
    rw [text, a.classify_text hlead htrail, path]
    split <;> rfl
  | named name ident =>
    have hsigil : (('@' :: name).dropWhile isSigil).all isIdent = true := by
      rw [List.dropWhile_cons_of_pos (by decide), List.all_eq_true]
      exact fun c hc => ident c ((List.dropWhile_suffix _).subset hc)
    have hunquoted : unquoted? (dropTilde ('@' :: name)) = none := rfl
    have hfirst : ('@' :: name).head?.any isSigil = true := rfl
    rw [text] at htrim ⊢
    simp only [Argument.classify, htrim, List.cons_ne_nil, if_false, hunquoted, hsigil, hfirst, Bool.and_self, if_true]
    rfl

end PathArgument

/-! ## Splitting -/

namespace Arguments

theorem prepend_prepend (s t : List Char) (a : Arguments) : prepend s (prepend t a) = prepend (s ++ t) a := by
  simp [prepend]

/-- Whether a text belongs to one argument, whatever follows it. -/
def Unsplit (s : List Char) : Prop := ∀ rest, split? 0 (s ++ rest) = (split? 0 rest).map (prepend s)

theorem unsplit_nil : Unsplit [] := fun rest => by
  have hid : prepend [] = id := rfl
  rw [hid, Option.map_id_apply, List.nil_append]

theorem Unsplit.append {s t : List Char} (hs : Unsplit s) (ht : Unsplit t) : Unsplit (s ++ t) := by
  intro rest
  rw [List.append_assoc, hs, ht, Option.map_map]
  congr 1
  funext a
  exact prepend_prepend s t a

theorem unsplit_of_plain {s : List Char} (hs : ∀ c ∈ s, isQuote c = false ∧ c ∉ ['(', ')', ',']) : Unsplit s := by
  induction s with
  | nil => exact unsplit_nil
  | cons c s ih =>
    have hfirst : Unsplit [c] := by
      intro rest
      obtain ⟨hquote, hmark⟩ := hs c List.mem_cons_self
      simp only [List.mem_cons, List.not_mem_nil, or_false, not_or] at hmark
      simp [split?, hquote, hmark]
    exact hfirst.append (ih fun d hd => hs d (List.mem_cons_of_mem _ hd))

theorem unsplit_quotation (q : Quotation) : Unsplit q.text := by
  intro rest
  rw [Quotation.text, List.cons_append, split?, if_pos q.isQuote_quote]
  simp only [q.quotedLength_body, List.take_left, List.drop_left]

theorem unsplit_of_isIdent_or_isAsciiBlank {s : List Char} (hs : ∀ c ∈ s, isIdent c = true ∨ isAsciiBlank c = true) :
    Unsplit s := by
  refine unsplit_of_plain fun c hc => ?_
  have hne : ∀ d, isIdent d = false ∧ isAsciiBlank d = false → c ≠ d :=
    fun d => ne_of_isIdent_or_isAsciiBlank (hs c hc)
  exact ⟨(opensNothing_of_isIdent_or_isAsciiBlank (hs c hc)).1,
    by simp [hne '(' (by decide), hne ')' (by decide), hne ',' (by decide)]⟩

theorem unsplit_spacing (s : Spacing) : Unsplit s.text :=
  unsplit_of_isIdent_or_isAsciiBlank fun c hc => .inr (s.blank c hc)

theorem unsplit_string (a : StringArgument) : Unsplit a.text := by
  refine (unsplit_of_plain fun c hc => ?_).append (unsplit_quotation a.string)
  cases hescaped : a.isEscaped with
  | true =>
    rw [hescaped] at hc
    obtain rfl := List.mem_singleton.1 hc
    decide
  | false =>
    rw [hescaped] at hc
    cases hc

theorem unsplit_path : ∀ p : PathArgument, Unsplit p.text
  | .string a => unsplit_string a
  | .named name ident =>
    have hsigil : Unsplit ['@'] := unsplit_of_plain (List.forall_iff_forall_mem.1 (by decide))
    hsigil.append (unsplit_of_isIdent_or_isAsciiBlank fun c hc => .inl (ident c hc))

theorem split?_close (rest : List Char) : split? 0 (')' :: rest) = some ⟨[], [], rest⟩ := by
  simp [split?, isQuote]

theorem split?_comma (rest : List Char) :
    split? 0 (',' :: rest) = (split? 0 rest).map fun a => ⟨[], a.toList, a.rest⟩ := by
  simp [split?, isQuote]

end Arguments

namespace Call

variable (c : Call)

/-- The arguments of a call as they stand between the parentheses and commas. -/
def split : List (List Char) :=
  match c.mime with
  | none => [c.lead.text ++ c.path.text ++ c.trail.text]
  | some m => [c.lead.text ++ m.argument.text ++ m.beforeComma.text, m.afterComma.text ++ c.path.text ++ c.trail.text]

theorem split?_arguments (rest : List Char) :
    ∃ args, Arguments.split? 0 (c.arguments ++ ')' :: rest) = some args ∧ args.toList = c.split := by
  have hlast : ∀ s : Spacing, Arguments.split? 0 (s.text ++ (c.path.text ++ c.trail.text) ++ ')' :: rest) =
      some ⟨s.text ++ c.path.text ++ c.trail.text, [], rest⟩ := by
    intro s
    have hpath := (Arguments.unsplit_path c.path).append (Arguments.unsplit_spacing c.trail)
    rw [(Arguments.unsplit_spacing s).append hpath,
      Arguments.split?_close]
    simp [Arguments.prepend]
  unfold arguments split
  cases c.mime with
  | none => exact ⟨_, hlast c.lead, rfl⟩
  | some m =>
    have hfirst := ((Arguments.unsplit_spacing c.lead).append (Arguments.unsplit_string m.argument)).append
      (Arguments.unsplit_spacing m.beforeComma)
    refine ⟨⟨c.lead.text ++ m.argument.text ++ m.beforeComma.text,
      [m.afterComma.text ++ c.path.text ++ c.trail.text], rest⟩, ?_, rfl⟩
    have htext : c.lead.text ++ ((some m).elim [] MimeArgument.text ++ (c.path.text ++ c.trail.text)) ++ ')' :: rest =
        c.lead.text ++ m.argument.text ++ m.beforeComma.text ++
          (',' :: (m.afterComma.text ++ (c.path.text ++ c.trail.text) ++ ')' :: rest)) := by
      simp [MimeArgument.text]
    rw [htext, hfirst, Arguments.split?_comma, hlast m.afterComma]
    simp [Arguments.prepend, Arguments.toList]

/-- The arguments of a call say what the call says, whatever follows it. -/
theorem ofOccurrence_arguments (line : Nat) (rest : List Char) :
    Reference.ofOccurrence ⟨line, c.arguments ++ ')' :: rest⟩ = .ok (c.reference line) := by
  obtain ⟨args, hsplit, hargs⟩ := c.split?_arguments rest
  have hpath : ∀ s : Spacing, Reference.pathOf (Argument.classify (s.text ++ c.path.text ++ c.trail.text)) =
      .ok c.path.path := fun s => c.path.pathOf_classify s.isBlank c.trail.isBlank
  -- One argument is the path; of two the first is the mime type. Blanks around them are trimmed in both cases.
  simp only [Reference.ofOccurrence, hsplit, hargs]
  unfold split reference
  cases c.mime with
  | none =>
    have hne : trim (c.lead.text ++ c.path.text ++ c.trail.text) ≠ [] := by
      rw [c.path.trim_text c.lead.isBlank c.trail.isBlank]
      exact c.path.text_ne_nil
    simp only [Reference.shapes, if_neg hne, Reference.ofArguments, hpath]
    rfl
  | some m =>
    have hmime : (Argument.classify (c.lead.text ++ m.argument.text ++ m.beforeComma.text)).text? =
        some (String.ofList m.argument.string.content) := by
      rw [m.argument.classify_text c.lead.isBlank m.beforeComma.isBlank]
      split <;> rfl
    simp only [Reference.shapes, List.map_cons, List.map_nil, Reference.ofArguments, hmime, hpath]
    rfl

end Call

/-! ## Scanning -/

namespace Keyword

variable {k : Keyword} {before : Option Char} {rest : List Char} (hk : IsCall k.word)
include hk

theorem passes_spacing (s : Spacing) : k.Passes before s.text rest :=
  passes_of_isCall hk (fun c hc => opensNothing_of_isIdent_or_isAsciiBlank (.inr (s.blank c hc)))
    (.inr s.isIdent_of_mem_getLast?)

theorem passes_single {c : Char} (hopens : isQuote c = false ∧ c ≠ '/' ∧ c ≠ '(') (hident : isIdent c = false) :
    k.Passes before [c] rest :=
  passes_of_isCall hk (by simpa using hopens) (.inr (by simpa using hident))

theorem passes_string (a : StringArgument) : k.Passes before a.text rest := by
  refine Passes.append ?_ (passes_quotation a.string)
  cases a.isEscaped with
  | true => exact passes_single hk (by decide) (by decide)
  | false => exact passes_nil

/-- The end of a call, from the argument for the path on. -/
theorem passes_path (p : PathArgument) (trail : Spacing) :
    k.Passes before (p.text ++ (trail.text ++ [')', ';'])) rest := by
  cases p with
  | string a =>
    have hclose : ∀ before rest, k.Passes before [')', ';'] rest := fun before rest =>
      Passes.append (passes_single hk (by decide) (by decide)) (passes_single hk (by decide) (by decide))
    exact (passes_string hk a).append ((passes_spacing hk trail).append (hclose _ _))
  | named name ident =>
    -- A name alone could begin a call with what follows it; with the closing parenthesis it cannot.
    have hends : (PathArgument.text (.named name ident) ++ (trail.text ++ [')', ';'])).getLast? = some ';' := by
      rw [← List.append_assoc, List.getLast?_append_of_ne_nil _ (by simp)]
      rfl
    refine passes_of_isCall hk (fun c hc => ?_) (.inr fun c hc => ?_)
    · simp only [PathArgument.text, List.mem_append, List.mem_cons, List.not_mem_nil, or_false] at hc
      rcases hc with (rfl | hc) | hc | rfl | rfl
      · decide
      · exact opensNothing_of_isIdent_or_isAsciiBlank (.inl (ident c hc))
      · exact opensNothing_of_isIdent_or_isAsciiBlank (.inr (trail.blank c hc))
      · decide
      · decide
    · rw [hends] at hc
      cases hc
      decide

theorem passes_arguments (c : Call) : k.Passes before (c.arguments ++ [')', ';']) rest := by
  have harguments : c.arguments ++ [')', ';'] =
      c.lead.text ++ (c.mime.elim [] MimeArgument.text ++ (c.path.text ++ (c.trail.text ++ [')', ';']))) := by
    simp [Call.arguments]
  rw [harguments]
  refine (passes_spacing hk c.lead).append (Passes.append ?_ (passes_path hk c.path c.trail))
  cases c.mime with
  | none => exact passes_nil
  | some m =>
    refine ((passes_string hk m.argument).append (passes_spacing hk m.beforeComma)).append ?_
    have hcomma : ∀ before rest, k.Passes before [','] rest := fun before rest => passes_single hk (by decide) (by decide)
    exact (hcomma _ _).append (passes_spacing hk m.afterComma)

end Keyword

theorem isCall_referenceKeyword : IsCall Reference.keyword.word :=
  ⟨by decide, List.forall_iff_forall_mem.1 (by decide)⟩

theorem isPlain_referenceKeyword : Reference.keyword.IsPlain where
  word_ne := by decide
  lower := List.forall_iff_forall_mem.1 (by decide)
  opensNothing := List.forall_iff_forall_mem.1 (by decide)
  notUrl := by decide
  once := List.forall_iff_forall_mem.1 (by decide)

namespace Call

/-- What stands in front of the keyword of a call. -/
def front (c : Filler marks × Call) : List Char := c.1.text ++ [' ']

/-- What stands behind the keyword of a call. -/
def back (c : Filler marks × Call) : List Char := c.2.arguments ++ [')', ';']

theorem written_eq_document (calls : List (Filler marks × Call)) (last : Filler marks) :
    written calls last = Reference.keyword.document front back calls last.text := by
  simp [written, Keyword.document, text, front, back]

theorem opensNothing_of_mem_gap (gap : Filler marks) {d : Char} (hd : d ∈ gap.text) :
    isQuote d = false ∧ d ≠ '/' ∧ d ≠ '(' := gap.opensNothing (fun _ hm => hm) d hd

theorem passes_last (last : Filler marks) (before : Option Char) : Reference.keyword.Passes before last.text [] :=
  Keyword.passes_of_isCall isCall_referenceKeyword (fun _ => opensNothing_of_mem_gap last) (.inl rfl)

/-- Nothing but the keyword is found in the text in front of a call and the call. -/
theorem frames : Reference.keyword.Frames front back := by
  have hends : ∀ c : Filler marks × Call, (front c).getLast? = some ' ' := fun c => List.getLast?_concat
  refine ⟨fun c before rest => ?_, fun c before => ?_, fun c before rest => ?_⟩
  · refine Keyword.passes_of_isCall isCall_referenceKeyword (fun d hd => ?_) (.inr fun d hd => ?_)
    · rcases List.mem_append.1 hd with hd | hd
      · exact opensNothing_of_mem_gap c.1 hd
      · obtain rfl := List.mem_singleton.1 hd
        decide
    · rw [hends] at hd
      cases hd
      decide
  · rw [lastOf, hends]
    rfl
  · exact Keyword.passes_arguments isCall_referenceKeyword c.2

end Call

/-- A scan of written calls finds each of them, with what it says and the line on which it stands. -/
theorem Reference.scan_written (calls : List (Filler Call.marks × Call)) (last : Filler Call.marks) :
    scan (Call.written calls last) =
      .ok (calls.mapIdx fun i c => c.2.reference (1 + (Call.written (calls.take i) c.1).count '\n')) := by
  have hline : ∀ i (c : Filler Call.marks × Call),
      (keyword.document Call.front Call.back (calls.take i) (Call.front c)).count '\n' =
        (Call.written (calls.take i) c.1).count '\n' := by
    intro i c
    rw [Call.written_eq_document]
    simp [Keyword.document, Call.front]
  have hlast := Call.passes_last last
  have hstrip := Call.frames.stripAfter_document isPlain_referenceKeyword hlast none calls
  have hfind := Call.frames.findAfter_document isPlain_referenceKeyword hlast none 1 calls
  rw [scan, Call.written_eq_document]
  change (keyword.findAfter none 1 (stripAfter none _)).mapM ofOccurrence = _
  rw [hstrip, hfind]
  refine mapM_mapIdx_eq_ok fun i c => ?_
  rw [Call.back, List.append_assoc, List.cons_append, c.2.ofOccurrence_arguments, hline]

/-- A call with a mime type and a string that looks like a comment, and one on the next line that names a variable. -/
example :
    let tight : Spacing := ⟨[], by simp⟩
    let blank : Spacing := ⟨[' '], List.all_eq_true.1 rfl⟩
    let mime : StringArgument := ⟨false, ⟨'"', "image/png".toList, by decide, by decide, by decide⟩⟩
    let path : StringArgument := ⟨true, ⟨'\'', "/*a*/.png".toList, by decide, by decide, by decide⟩⟩
    let image : Call := ⟨blank, some ⟨mime, tight, blank⟩, .string path, blank⟩
    let icon : Call := ⟨tight, none, .named "icon".toList (List.all_eq_true.1 rfl), tight⟩
    let first : Filler Call.marks := ⟨['a', ':'], List.forall_iff_forall_mem.1 (by decide)⟩
    let second : Filler Call.marks := ⟨['\n', 'b', ':'], List.forall_iff_forall_mem.1 (by decide)⟩
    let text := "a: data-uri( \"image/png\", ~'/*a*/.png' );\nb: data-uri(@icon);".toList
    Call.written [(first, image), (second, icon)] ⟨[], by simp⟩ = text ∧
      Reference.scan text = .ok [⟨.literal "/*a*/.png", some "image/png", 1⟩, ⟨.dynamic "@icon", none, 2⟩] := by
  constructor <;> cbv

end StyleTrack.Source
