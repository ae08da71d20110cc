/-
Texts that both passes over a style sheet, the one that blanks comments out and the one that looks for a keyword, go
through without finding anything. Such a text stays as it is, whatever follows it, and what is found is what is found
in the text that follows. Documents are put together from such passages and from keywords.
-/
import StyleTrack.Proofs.Source.Lexeme
import StyleTrack.Source.Comment
import StyleTrack.Source.Keyword

namespace StyleTrack.Source

open StyleTrack.Text

/-! ## From the middle of a text -/

/-- What is left of a text that follows the character `before` when its comments are blanked out. -/
def stripAfter (before : Option Char) (text : List Char) : List Char :=
  (segment commentStep before text).flatMap Lexeme.stripped

/-- The occurrences of a keyword in a text that follows the character `before` and starts on `line`. -/
def Keyword.findAfter (k : Keyword) (before : Option Char) (line : Nat) (text : List Char) : List Occurrence :=
  occurrences line text (segment k.step before text)

variable {k : Keyword} {before : Option Char} {c : Char} {body rest s t : List Char} {line : Nat} {kind : Kind}

theorem stripAfter_lexeme (h : commentStep before c (body ++ rest) = (kind, body.length)) :
    stripAfter before (c :: body ++ rest) =
      (Lexeme.mk kind (c :: body)).stripped ++ stripAfter (lastOf before (c :: body)) rest := by
  rw [stripAfter, segment_append_of_step h, List.flatMap_cons]
  rfl

theorem stripAfter_of_step (h : commentStep before c (body ++ rest) = (kind, body.length)) (hkind : kind ≠ .comment) :
    stripAfter before (c :: body ++ rest) = c :: body ++ stripAfter (lastOf before (c :: body)) rest := by
  rw [stripAfter_lexeme h, Lexeme.stripped, if_neg hkind]

theorem stripAfter_of_plain (h : ∀ before c t, c :: t <:+ s → commentStep before c (t ++ rest) = (.plain, 0)) :
    stripAfter before (s ++ rest) = s ++ stripAfter (lastOf before s) rest := by
  have hsingle : (s.map Lexeme.single).flatMap Lexeme.stripped = s := by
    rw [List.flatMap_map]
    exact List.flatMap_singleton' s
  rw [stripAfter, segment_append_of_plain h, List.flatMap_append, hsingle]
  rfl

namespace Keyword

theorem findAfter_of_step (h : k.step before c (body ++ rest) = (kind, body.length)) (line : Nat) :
    k.findAfter before line (c :: body ++ rest) = (if kind = .keyword then [⟨line, rest⟩] else []) ++
      k.findAfter (lastOf before (c :: body)) (line + (c :: body).count '\n') rest := by
  rw [findAfter, segment_append_of_step h, occurrences]
  simp only [List.drop_left]
  split <;> rfl

theorem findAfter_of_plain (h : ∀ before c t, c :: t <:+ s → k.step before c (t ++ rest) = (.plain, 0)) :
    k.findAfter before line (s ++ rest) = k.findAfter (lastOf before s) (line + s.count '\n') rest := by
  induction s generalizing before line with
  | nil => rfl
  | cons c s ih =>
    have hstep : k.step before c ([] ++ (s ++ rest)) = (.plain, ([] : List Char).length) := h before c s List.suffix_rfl
    have hfirst := findAfter_of_step hstep line
    rw [List.cons_append, List.nil_append] at hfirst
    rw [List.cons_append, hfirst, ih fun before c t ht => h before c t (ht.trans (List.suffix_cons _ _)), Nat.add_assoc,
      ← List.count_append, ← lastOf_append]
    rfl

/-! ## Passages -/

/-- Whether nothing is found in a text between the character `before` and some text that follows. -/
structure Passes (k : Keyword) (before : Option Char) (text rest : List Char) : Prop where
  strip : stripAfter before (text ++ rest) = text ++ stripAfter (lastOf before text) rest
  find : ∀ line, k.findAfter before line (text ++ rest) = k.findAfter (lastOf before text) (line + text.count '\n') rest

theorem passes_nil : k.Passes before [] rest := ⟨rfl, fun _ => rfl⟩

theorem Passes.append (hs : k.Passes before s (t ++ rest)) (ht : k.Passes (lastOf before s) t rest) :
    k.Passes before (s ++ t) rest := by
  refine ⟨?_, fun line => ?_⟩
  · rw [List.append_assoc, hs.strip, ht.strip, lastOf_append, List.append_assoc]
  · rw [List.append_assoc, hs.find, ht.find, lastOf_append, List.count_append, Nat.add_assoc]

theorem passes_of_step (hstrip : commentStep before c (body ++ rest) = (kind, body.length))
    (hfind : k.step before c (body ++ rest) = (kind, body.length)) (hcomment : kind ≠ .comment)
    (hkeyword : kind ≠ .keyword) : k.Passes before (c :: body) rest := by
  refine ⟨stripAfter_of_step hstrip hcomment, fun line => ?_⟩
  rw [findAfter_of_step hfind, if_neg hkeyword, List.nil_append]

/-- Away from quotes, comments and the keyword both passes look for `url(` only. -/
theorem steps_eq_urlStep (before : Option Char) (hquote : isQuote c = false) (hslash : c ≠ '/')
    (hword : startsWord k.word (c :: t) = false) :
    commentStep before c t = urlStep before c t ∧ k.step before c t = urlStep before c t := by
  constructor
  · simp [commentStep, hquote, hslash]
  · simp [step, hquote, hword]

theorem passes_of_urlStep (hquote : isQuote c = false) (hslash : c ≠ '/')
    (hword : startsWord k.word (c :: (body ++ rest)) = false)
    (h : urlStep before c (body ++ rest) = (kind, body.length)) (hcomment : kind ≠ .comment) (hkeyword : kind ≠ .keyword) :
    k.Passes before (c :: body) rest := by
  obtain ⟨hstrip, hfind⟩ := steps_eq_urlStep before hquote hslash hword
  exact passes_of_step (hstrip.trans h) (hfind.trans h) hcomment hkeyword

theorem urlStep_of_not_startsWord (h : startsWord ['u', 'r', 'l', '('] (c :: t) = false) :
    urlStep before c t = (.plain, 0) := by
  simp [urlStep, opensUrl, h]

theorem urlStep_of_url (hbefore : before.any isIdent = false) :
    urlStep before 'u' ('r' :: 'l' :: '(' :: t) =
      match rawUrlLength? t with
      | some n => (.url, n + 3)
      | none => (.plain, 3) := by
  have hopens : opensUrl before ('u' :: 'r' :: 'l' :: '(' :: t) = true := by simp [opensUrl, startsWord, hbefore]
  rw [urlStep, if_pos hopens]
  rfl

/-- Text between marks: nothing in it opens a string, a comment or an unquoted body, and no keyword begins in it. -/
theorem passes_of_plain (hs : ∀ c ∈ s, isQuote c = false ∧ c ≠ '/')
    (hnone : ∀ t, t <:+ s → t ≠ [] → startsWord ['u', 'r', 'l', '('] (t ++ rest) = false ∧
      startsWord k.word (t ++ rest) = false) : k.Passes before s rest := by
  have hstep : ∀ before c t, c :: t <:+ s → commentStep before c (t ++ rest) = (.plain, 0) ∧
      k.step before c (t ++ rest) = (.plain, 0) := by
    intro before c t ht
    obtain ⟨hquote, hslash⟩ := hs c (ht.subset List.mem_cons_self)
    obtain ⟨hurl, hword⟩ := hnone (c :: t) ht (by simp)
    obtain ⟨hstrip, hfind⟩ := steps_eq_urlStep before hquote hslash hword
    exact ⟨hstrip.trans (urlStep_of_not_startsWord hurl), hfind.trans (urlStep_of_not_startsWord hurl)⟩
  exact ⟨stripAfter_of_plain fun before c t ht => (hstep before c t ht).1,
    fun line => findAfter_of_plain fun before c t ht => (hstep before c t ht).2⟩

theorem isCall_url : IsCall ['u', 'r', 'l', '('] := ⟨by decide, List.forall_iff_forall_mem.1 (by decide)⟩

/-- Text without quotes, slashes and opening parentheses, for a keyword that has an opening parenthesis itself. -/
theorem passes_of_isCall (hk : IsCall k.word) (hs : ∀ c ∈ s, isQuote c = false ∧ c ≠ '/' ∧ c ≠ '(')
    (hlast : rest = [] ∨ ∀ c ∈ s.getLast?, isIdent c = false) : k.Passes before s rest := by
  have hopen : '(' ∉ s := fun hmem => (hs _ hmem).2.2 rfl
  refine passes_of_plain (fun c hc => ⟨(hs c hc).1, (hs c hc).2.1⟩) fun t ht hne => ?_
  exact ⟨startsWord_suffix_append isCall_url hopen hlast ht hne, startsWord_suffix_append hk hopen hlast ht hne⟩

/-- Text without quotes, slashes, opening parentheses and the mark that the keyword begins with. -/
theorem passes_of_mark {mark : Char} (hk : k.word.head? = some mark) (hmark : mark.isAlpha = false)
    (hs : ∀ c ∈ s, (isQuote c = false ∧ c ≠ '/' ∧ c ≠ '(') ∧ c ≠ mark)
    (hlast : rest = [] ∨ ∀ c ∈ s.getLast?, isIdent c = false) : k.Passes before s rest := by
  have hopen : '(' ∉ s := fun hmem => (hs _ hmem).1.2.2 rfl
  refine passes_of_plain (fun c hc => ⟨(hs c hc).1.1, (hs c hc).1.2.1⟩) fun t ht hne => ?_
  refine ⟨startsWord_suffix_append isCall_url hopen hlast ht hne, ?_⟩
  obtain ⟨c, t, rfl⟩ := List.exists_cons_of_ne_nil hne
  obtain ⟨w, hword⟩ := List.head?_eq_some_iff.1 hk
  have hfirst : c.toLower ≠ mark := fun heq =>
    (hs c (ht.subset List.mem_cons_self)).2 ((toLower_eq_iff hmark).1 heq)
  rw [hword]
  simp [startsWord, hfirst]

end Keyword

/-! ## Keywords -/

namespace Keyword

/-- Whether both passes go through a keyword character by character: it is in lower case, opens nothing, and does not
begin again inside. -/
structure IsPlain (k : Keyword) : Prop where
  word_ne : k.word ≠ []
  lower : ∀ c ∈ k.word, c.toLower = c
  opensNothing : ∀ c ∈ k.word, isQuote c = false ∧ c ≠ '/' ∧ isAsciiBlank c = false
  notUrl : ∀ w ∈ k.word.tails, w ≠ [] → ¬ w <+: ['u', 'r', 'l', '('] ∧ ¬ ['u', 'r', 'l', '('] <+: w
  once : ∀ c ∈ k.word.tail, some c ≠ k.word.head?

namespace IsPlain

theorem not_startsUrl (hk : k.IsPlain) {w : List Char} (hw : w <:+ k.word) (hne : w ≠ []) (h : startsWord w t = true) :
    startsWord ['u', 'r', 'l', '('] t = false := by
  rw [Bool.eq_false_iff]
  intro hurl
  obtain ⟨hnot, hnot'⟩ := hk.notUrl w ((List.mem_tails _ _).2 hw) hne
  -- Two words that start the same text: one of them starts the other.
  rcases List.prefix_or_prefix_of_prefix (startsWord_iff.1 h) (startsWord_iff.1 hurl) with hprefix | hprefix
  · exact hnot hprefix
  · exact hnot' hprefix

theorem startsWord_append (hk : k.IsPlain) {w : List Char} (hw : w <:+ k.word) (rest : List Char) :
    startsWord w (w ++ rest) = true := by
  have hlower : w.map Char.toLower = w :=
    (List.map_congr_left fun c hc => hk.lower c (hw.subset hc)).trans (List.map_id' _)
  rw [startsWord_iff, List.map_append, hlower]
  exact List.prefix_append _ _

theorem stripAfter_word (hk : k.IsPlain) :
    stripAfter before (k.word ++ rest) = k.word ++ stripAfter (lastOf before k.word) rest := by
  refine stripAfter_of_plain fun before c t ht => ?_
  obtain ⟨hquote, hslash, -⟩ := hk.opensNothing c (ht.subset List.mem_cons_self)
  have hurl := hk.not_startsUrl ht (by simp) (hk.startsWord_append ht rest)
  rw [List.cons_append] at hurl
  simp [commentStep, hquote, hslash, urlStep_of_not_startsWord hurl]

theorem newline_notMem (hk : k.IsPlain) : '\n' ∉ k.word := fun hmem => by
  have hblank := (hk.opensNothing _ hmem).2.2
  cases hblank

theorem count_word (hk : k.IsPlain) : k.word.count '\n' = 0 := List.count_eq_zero.2 hk.newline_notMem

theorem findAfter_word (hk : k.IsPlain) (hbefore : before.all k.follows = true) :
    k.findAfter before line (k.word ++ rest) = ⟨line, rest⟩ :: k.findAfter (lastOf before k.word) line rest := by
  obtain ⟨d, w, hword⟩ := List.exists_cons_of_ne_nil hk.word_ne
  -- The keyword goes before `url(` in the step, so only the quotes have to be ruled out.
  have hstarts := hk.startsWord_append List.suffix_rfl rest
  have hquote : isQuote d = false := (hk.opensNothing d (hword ▸ List.mem_cons_self)).1
  have hstep : k.step before d (w ++ rest) = (.keyword, w.length) := by
    rw [hword, List.cons_append] at hstarts
    simp [step, hquote, hword, hstarts, hbefore]
  have hfind := findAfter_of_step hstep line
  rw [← hword, hk.count_word, if_pos rfl] at hfind
  exact hfind

end IsPlain

end Keyword

/-! ## Pieces of documents -/

/-- Text without some marks. -/
structure Filler (marks : List Char) where
  text : List Char
  free : ∀ c ∈ text, c ∉ marks

theorem Filler.opensNothing {marks : List Char} (h : ∀ m ∈ ['"', '\'', '/', '('], m ∈ marks) (f : Filler marks) :
    ∀ c ∈ f.text, isQuote c = false ∧ c ≠ '/' ∧ c ≠ '(' := by
  intro c hc
  have hne : ∀ m ∈ ['"', '\'', '/', '('], c ≠ m := fun m hm heq => f.free c hc (heq ▸ h m hm)
  simp only [List.mem_cons, List.not_mem_nil, or_false, forall_eq_or_imp, forall_eq] at hne
  exact ⟨by simp [isQuote, hne], hne.2.2.1, hne.2.2.2⟩

/-- Blanks between tokens. -/
structure Spacing where
  text : List Char
  blank : ∀ c ∈ text, isAsciiBlank c = true

theorem Spacing.isBlank (s : Spacing) : ∀ c ∈ s.text, Text.isBlank c = true :=
  fun c hc => isBlank_of_isAsciiBlank (s.blank c hc)

theorem Spacing.isIdent_of_mem_getLast? (s : Spacing) : ∀ c ∈ s.text.getLast?, isIdent c = false :=
  fun c hc => isIdent_of_isAsciiBlank (s.blank c (List.mem_of_getLast? hc))

/-- A quoted string without escapes. -/
structure Quotation where
  quote : Char
  content : List Char
  isQuote_quote : isQuote quote = true
  quote_notMem : quote ∉ content
  escape_notMem : '\\' ∉ content

/-- The string between its quotes. -/
def Quotation.text (q : Quotation) : List Char := q.quote :: (q.content ++ [q.quote])

theorem Quotation.quotedLength_body (q : Quotation) (rest : List Char) :
    quotedLength q.quote (q.content ++ [q.quote] ++ rest) = (q.content ++ [q.quote]).length := by
  rw [List.append_assoc, List.singleton_append, quotedLength_append q.isQuote_quote q.quote_notMem q.escape_notMem]
  simp

namespace Keyword

theorem passes_quotation (q : Quotation) : k.Passes before q.text rest := by
  have hstrip : commentStep before q.quote (q.content ++ [q.quote] ++ rest) = (.quoted, (q.content ++ [q.quote]).length) := by
    rw [commentStep, if_pos q.isQuote_quote, q.quotedLength_body]
  have hfind : k.step before q.quote (q.content ++ [q.quote] ++ rest) = (.quoted, (q.content ++ [q.quote]).length) := by
    rw [step, if_pos q.isQuote_quote, q.quotedLength_body]
  exact passes_of_step hstrip hfind (by decide) (by decide)

variable (hword : ∀ t, startsWord k.word ('u' :: t) = false)
include hword

/-- The body of an unquoted `url(…)`. -/
theorem passes_url {x : Char} (hbefore : before.any isIdent = false) (hblank : isAsciiBlank x = false)
    (hquote : isQuote x = false) (hclose : ')' ∉ x :: s) :
    k.Passes before (['u', 'r', 'l', '('] ++ x :: s ++ [')']) rest := by
  have hraw : rawUrlLength? (x :: (s ++ ')' :: rest)) = some (s.length + 2) := by
    have hskip : skipBlanks (x :: (s ++ ')' :: rest)) = x :: (s ++ ')' :: rest) := by
      rw [skipBlanks, List.dropWhile_cons_of_neg (by simp [hblank])]
    rw [rawUrlLength?, hskip, ← List.cons_append, closeLength_append hclose]
    simp [hquote]
  have hurl : urlStep before 'u' ('r' :: 'l' :: '(' :: x :: s ++ [')'] ++ rest) =
      (.url, ('r' :: 'l' :: '(' :: x :: s ++ [')']).length) := by
    simp [urlStep_of_url hbefore, hraw]
  exact passes_of_urlStep (by decide) (by decide) (hword _) hurl (by decide) (by decide)

/-- The opening of a quoted `url(…)`. -/
theorem passes_urlOpening {quote : Char} (hbefore : before.any isIdent = false) (hquote : isQuote quote = true) :
    k.Passes before ['u', 'r', 'l', '('] (quote :: rest) := by
  have hblank : isAsciiBlank quote = false := isAsciiBlank_of_isQuote hquote
  have hraw : rawUrlLength? (quote :: rest) = none := by
    rw [rawUrlLength?, skipBlanks, List.dropWhile_cons_of_neg (by simp [hblank])]
    simp [hquote]
  have hurl : urlStep before 'u' (['r', 'l', '('] ++ quote :: rest) = (.plain, ['r', 'l', '('].length) := by
    simp [urlStep_of_url hbefore, hraw]
  exact passes_of_urlStep (by decide) (by decide) (hword _) hurl (by decide) (by decide)

end Keyword

/-! ## Documents -/

theorem mapM_mapIdx_eq_ok {ε α β γ : Type} {f : β → Except ε γ} {h : Nat → α → β} {g : Nat → α → γ} {items : List α}
    (hf : ∀ i a, f (h i a) = .ok (g i a)) : (items.mapIdx h).mapM f = .ok (items.mapIdx g) := by
  induction items generalizing h g with
  | nil => rfl
  | cons a items ih =>
    rw [List.mapIdx_cons, List.mapIdx_cons, List.mapM_cons, hf 0 a, ih fun i a => hf (i + 1) a]
    rfl

namespace Keyword

/-- Items that hold a keyword between a front and a back, and the text after the last one. -/
def document {α : Type} (k : Keyword) (front back : α → List Char) (items : List α) (last : List Char) : List Char :=
  items.flatMap (fun a => front a ++ (k.word ++ back a)) ++ last

/-- Whether the keyword is all that is found in an item. -/
structure Frames {α : Type} (k : Keyword) (front back : α → List Char) : Prop where
  passes_front : ∀ a before rest, k.Passes before (front a) rest
  follows_front : ∀ a before, (lastOf before (front a)).all k.follows = true
  passes_back : ∀ a before rest, k.Passes before (back a) rest

variable {α : Type} {front back : α → List Char} {last : List Char}

theorem document_cons (a : α) (items : List α) :
    k.document front back (a :: items) last = front a ++ (k.word ++ (back a ++ k.document front back items last)) := by
  simp [document]

namespace Frames

variable (hf : k.Frames front back) (hk : k.IsPlain) (hlast : ∀ before, k.Passes before last [])
include hf hk hlast

theorem stripAfter_document (before : Option Char) (items : List α) :
    stripAfter before (k.document front back items last) = k.document front back items last := by
  induction items generalizing before with
  | nil => simpa [document, stripAfter, segment] using (hlast before).strip
  | cons a items ih =>
    rw [document_cons, (hf.passes_front a _ _).strip, hk.stripAfter_word, (hf.passes_back a _ _).strip, ih]

/-- The keyword is found once in every item, on the line that the fronts and backs before it lead to. -/
theorem findAfter_document (before : Option Char) (line : Nat) (items : List α) :
    k.findAfter before line (k.document front back items last) = items.mapIdx fun i a =>
      ⟨line + (k.document front back (items.take i) (front a)).count '\n',
        back a ++ k.document front back (items.drop (i + 1)) last⟩ := by
  have hword : k.word.count '\n' = 0 := hk.count_word
  induction items generalizing before line with
  | nil =>
    have hfind := (hlast before).find line
    rw [List.append_nil] at hfind
    simpa [document, findAfter, segment, occurrences] using hfind
  | cons a items ih =>
    rw [document_cons, (hf.passes_front a _ _).find, hk.findAfter_word (hf.follows_front a _),
      (hf.passes_back a _ _).find, ih, List.mapIdx_cons]
    simp [document, hword, Nat.add_assoc]

end Frames

end Keyword

end StyleTrack.Source
