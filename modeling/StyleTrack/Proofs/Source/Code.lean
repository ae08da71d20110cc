/-
The two passes over a style sheet see the same code. The pass that blanks comments out and the pass over what it leaves
behind agree on where strings and unquoted bodies start and end, and a keyword is found exactly where it starts at a
character of code.
-/
import StyleTrack.Proofs.Source.Closed

namespace StyleTrack.Source

open StyleTrack.Text

/-! ## Code of a stripped text -/

/-- Recognises what is opaque in comment-free text. -/
def opaqueStep : Step := fun before c rest =>
  if isQuote c then (.quoted, quotedLength c rest) else urlStep before c rest

/-- The lexemes that a lexeme leaves behind when comments are blanked out. -/
def Lexeme.code (l : Lexeme) : List Lexeme :=
  if l.kind = .comment then l.stripped.map Lexeme.single else [l]

variable {before before' : Option Char} {c : Char} {body rest rest' s : List Char} {kind : Kind}

theorem opensUrl_eq_false_of_isAsciiBlank (hc : isAsciiBlank c = true) : opensUrl before (c :: rest) = false := by
  simp only [isAsciiBlank, Bool.or_eq_true, decide_eq_true_eq] at hc
  rcases hc with (((rfl | rfl) | rfl) | rfl) | rfl <;> rfl

theorem CodeLexeme.of_isAsciiBlank (hc : isAsciiBlank c = true) : CodeLexeme before c [] rest .plain :=
  .single rest (opensUrl_eq_false_of_isAsciiBlank hc)

theorem isQuote_of_isAsciiBlank (hc : isAsciiBlank c = true) : isQuote c = false :=
  (opensNothing_of_isIdent_or_isAsciiBlank (.inr hc)).1

theorem commentStep_of_isAsciiBlank (hc : isAsciiBlank c = true) : commentStep before c rest = (.plain, 0) := by
  have hslash : c ≠ '/' := (opensNothing_of_isIdent_or_isAsciiBlank (.inr hc)).2.1
  exact commentStep_iff.2 (.code [] rest .plain (isQuote_of_isAsciiBlank hc) (fun heq => absurd heq hslash)
    (.of_isAsciiBlank hc))

theorem segment_commentStep_of_isAsciiBlank (hs : ∀ c ∈ s, isAsciiBlank c = true) :
    segment commentStep before (s ++ rest) = s.map Lexeme.single ++ segment commentStep (lastOf before s) rest :=
  segment_append_of_plain fun _ c _ ht => commentStep_of_isAsciiBlank (hs c (ht.subset List.mem_cons_self))

theorem stripAfter_of_isAsciiBlank (hs : ∀ c ∈ s, isAsciiBlank c = true) :
    stripAfter before (s ++ rest) = s ++ stripAfter (lastOf before s) rest :=
  stripAfter_of_plain fun _ c _ ht => commentStep_of_isAsciiBlank (hs c (ht.subset List.mem_cons_self))

theorem isAsciiBlank_of_mem_blanked {d : Char} (hd : d ∈ blanked c) : isAsciiBlank d = true := by
  unfold blanked at hd
  split at hd
  · rw [List.mem_singleton.1 hd]
    rfl
  · rw [List.eq_of_mem_replicate hd]
    rfl

theorem stripped_of_comment (h : kind = .comment) : (Lexeme.mk kind s).stripped = s.flatMap blanked := if_pos h

theorem stripped_of_ne_comment (h : kind ≠ .comment) : (Lexeme.mk kind s).stripped = s := if_neg h

theorem isAsciiBlank_of_mem_stripped (h : kind = .comment) :
    ∀ d ∈ (Lexeme.mk kind s).stripped, isAsciiBlank d = true := by
  intro d hd
  rw [stripped_of_comment h] at hd
  obtain ⟨c, -, hd⟩ := List.mem_flatMap.1 hd
  exact isAsciiBlank_of_mem_blanked hd

theorem count_blanked : (blanked c).count '\n' = [c].count '\n' := by
  unfold blanked
  split
  · rename_i hc
    rw [hc]
  · rename_i hc
    rw [List.count_replicate, List.count_singleton]
    simp [hc]

/-- What a lexeme leaves behind has its lines. -/
theorem count_stripped (l : Lexeme) : l.stripped.count '\n' = l.text.count '\n' := by
  unfold Lexeme.stripped
  split
  · induction l.text with
    | nil => rfl
    | cons c text ih =>
      rw [List.flatMap_cons, List.count_append, ih, count_blanked, ← List.count_append]
      rfl
  · rfl

theorem CodeLexeme.ne_comment (h : CodeLexeme before c body rest kind) : kind ≠ .comment := by
  cases h <;> decide

theorem toLower_of_opensUrl (h : opensUrl before (c :: rest) = true) : c.toLower = 'u' := by
  have hword := (Bool.and_eq_true_iff.1 h).1
  rw [startsWord] at hword
  exact of_decide_eq_true (Bool.and_eq_true_iff.1 hword).1

/-- What a stripped text starts with, the text starts with: blanks are no part of a name or a call, and a word without
`u` does not begin with `url(`. -/
theorem startsWord_of_stripAfter {w : List Char} (hw : ∀ d ∈ w, isIdent d = true ∨ d = '(') (hu : 'u' ∉ w)
    (h : startsWord w (stripAfter before s) = true) : startsWord w s = true := by
  induction w generalizing before s with
  | nil => simp [startsWord]
  | cons d w ih =>
    cases s with
    | nil => simpa [stripAfter, segment] using h
    | cons c s =>
      obtain ⟨body, rest, kind, rfl, hstep⟩ := bounded_commentStep.exists_lexeme before c s
      rw [← List.cons_append, stripAfter_lexeme hstep] at h
      have hfirst : ∀ x t, startsWord (d :: w) (x :: t) = true → x.toLower = d ∧ startsWord w t = true := by
        simp [startsWord]
      have hplain : ∀ x, x.toLower = d → isIdent x = true ∨ x = '(' := by
        rintro x rfl
        exact (hw _ List.mem_cons_self).imp isIdent_of_toLower (toLower_eq_iff (by decide)).1
      have hnotUrl : c.toLower = 'u' → c.toLower ≠ d := fun hc heq => hu (by rw [← hc, heq]; exact List.mem_cons_self)
      cases commentStep_iff.1 hstep with
      | quoted body rest opens length =>
        rw [stripped_of_ne_comment (by decide)] at h
        rcases hplain c (hfirst _ _ h).1 with hc | rfl
        · rw [(opensNothing_of_isIdent_or_isAsciiBlank (.inl hc)).1] at opens
          cases opens
        · cases opens
      | block inner rest opens length =>
        subst opens
        rcases hplain ' ' (hfirst _ _ h).1 with hc | hc <;> cases hc
      | line inner rest opens free ends =>
        subst opens
        rcases hplain ' ' (hfirst _ _ h).1 with hc | hc <;> cases hc
      | code body rest kind unquoted uncommented code =>
        rw [stripped_of_ne_comment code.ne_comment] at h
        cases code with
        | url word inner rest length opens raw =>
          exact absurd (hfirst _ _ h).1 (hnotUrl (toLower_of_opensUrl opens))
        | opening body rest length opens quoted =>
          exact absurd (hfirst _ _ h).1 (hnotUrl (toLower_of_opensUrl opens))
        | single rest opens =>
          -- Only here both texts go on with the same character.
          obtain ⟨hc, htail⟩ := hfirst _ _ h
          have hrest := ih (fun x hx => hw x (List.mem_cons_of_mem _ hx))
            (fun hmem => hu (List.mem_cons_of_mem _ hmem)) htail
          simp [startsWord, hc, hrest]

/-- Behind `url(` a quote stays where it is. -/
theorem rawUrlLength?_stripAfter (h : rawUrlLength? s = none) : rawUrlLength? (stripAfter before s) = none := by
  obtain ⟨blanks, quote, tail, rfl, hblanks, hquote⟩ := rawUrlLength?_eq_none_iff.1 h
  rw [stripAfter_of_isAsciiBlank hblanks]
  obtain ⟨body, rest, kind, rfl, hstep⟩ := bounded_commentStep.exists_lexeme (lastOf before blanks) quote tail
  have hkind : kind = .quoted := by
    rw [commentStep, if_pos hquote] at hstep
    exact (Prod.mk.inj hstep).1.symm
  subst hkind
  rw [← List.cons_append, stripAfter_lexeme hstep, stripped_of_ne_comment (by decide)]
  exact rawUrlLength?_eq_none_iff.2 ⟨blanks, quote, _, rfl, hblanks, hquote⟩

/-- Whether a text starts alike behind two characters: they are both part of a name or both are not, unless the text
starts with a line feed, behind which it does not matter. -/
def StartsAlike (before before' : Option Char) (text : List Char) : Prop :=
  before.any isIdent = before'.any isIdent ∨ ∀ c ∈ text.head?, c = '\n'

theorem opensUrl_eq (h : StartsAlike before before' (c :: rest)) (rest' : List Char) :
    opensUrl before (c :: rest') = opensUrl before' (c :: rest') := by
  rcases h with h | h
  · rw [opensUrl, opensUrl, h]
  · obtain rfl : c = '\n' := h c rfl
    rfl

theorem CodeLexeme.strip (h : CodeLexeme before c body rest kind)
    (halike : StartsAlike before before' (c :: body ++ rest)) (last : Option Char) :
    CodeLexeme before' c body (stripAfter last rest) kind := by
  cases h with
  | url word inner rest length opens raw =>
    have hraw : rawUrlLength? (inner ++ stripAfter last rest) = some inner.length := by
      rcases mem_or_eq_nil_of_rawUrlLength? raw with hmem | rfl
      · rw [rawUrlLength?_append hmem] at raw ⊢
        exact raw
      · simpa [stripAfter, segment] using raw
    exact .url word inner _ length (opensUrl_eq halike word ▸ opens) hraw
  | opening body rest length opens quoted =>
    exact .opening body _ length (opensUrl_eq halike body ▸ opens) (rawUrlLength?_stripAfter quoted)
  | single rest opens =>
    refine .single _ ?_
    rw [← opensUrl_eq halike]
    by_contra hnot
    obtain ⟨hword, hbefore⟩ := Bool.and_eq_true_iff.1 (Bool.not_eq_false _ ▸ hnot)
    rw [startsWord, Bool.and_eq_true] at hword
    have hrest : startsWord ['r', 'l', '('] rest = true :=
      startsWord_of_stripAfter (List.forall_iff_forall_mem.1 (by decide)) (by decide) hword.2
    rw [opensUrl, startsWord, hword.1, hrest, hbefore] at opens
    cases opens

/-- A stripped text starts as the text does, unless that starts with a slash. -/
theorem head?_stripAfter (before : Option Char) (s : List Char) :
    (stripAfter before s).head? = s.head? ∨ s.head? = some '/' := by
  cases s with
  | nil => exact .inl (by simp [stripAfter, segment])
  | cons c s =>
    obtain ⟨body, rest, kind, rfl, hstep⟩ := bounded_commentStep.exists_lexeme before c s
    by_cases hkind : kind = .comment
    · subst hkind
      cases commentStep_iff.1 hstep with
      | block inner rest opens length => exact .inr (congrArg some opens)
      | line inner rest opens free ends => exact .inr (congrArg some opens)
      | code body rest kind unquoted uncommented code => exact absurd rfl code.ne_comment
    · rw [← List.cons_append, stripAfter_of_step hstep hkind]
      exact .inl rfl

/-- What is no comment is found again in a stripped text, and nothing in it becomes a comment. -/
theorem SourceLexeme.strip (h : SourceLexeme before c body rest kind) (hkind : kind ≠ .comment)
    (halike : StartsAlike before before' (c :: body ++ rest)) (last : Option Char) :
    SourceLexeme before' c body (stripAfter last rest) kind := by
  cases h with
  | quoted body rest opens length =>
    refine .quoted body _ opens ?_
    rcases closesQuote_or_eq_nil length with hclosed | rfl
    · exact quotedLength_append_of_closesQuote opens hclosed length _
    · simpa [stripAfter, segment] using length
  | block inner rest opens length => exact absurd rfl hkind
  | line inner rest opens free ends => exact absurd rfl hkind
  | code body rest kind unquoted uncommented code =>
    refine .code body _ kind unquoted (fun hc d hd => ?_) (code.strip halike last)
    -- Behind a slash that opens no comment there is no slash, so a comment does not follow it either.
    cases body with
    | cons x body => exact uncommented hc d hd
    | nil =>
      rw [List.nil_append] at uncommented hd
      rcases head?_stripAfter last rest with hhead | hslash
      · exact uncommented hc d (hhead ▸ hd)
      · exact absurd rfl (uncommented hc '/' hslash).2

/-- A stripped text has the lexemes of the text, with blanks in place of comments. -/
theorem segment_commentStep_stripAfter (h : StartsAlike before before' s) :
    segment commentStep before' (stripAfter before s) = (segment commentStep before s).flatMap Lexeme.code := by
  induction before, s using bounded_commentStep.induction generalizing before' with
  | nil before => simp [stripAfter, segment]
  | cons before c body rest kind hstep ih =>
    rw [stripAfter_lexeme hstep, segment_append_of_step hstep, List.flatMap_cons]
    have hlast : lastOf before' (c :: body) = lastOf before (c :: body) := by rw [lastOf_cons, lastOf_cons]
    by_cases hkind : kind = .comment
    · -- A comment becomes blanks. It does not matter to what follows which character of a comment or blank is last.
      have halike : StartsAlike (lastOf before (c :: body)) (lastOf before' (Lexeme.mk kind (c :: body)).stripped) rest := by
        subst hkind
        have hblank := isAsciiBlank_of_mem_stripped (s := c :: body) rfl
        cases commentStep_iff.1 hstep with
        | block inner rest opens length =>
          rcases suffix_or_eq_nil_of_blockLength length with ⟨inner, rfl⟩ | rfl
          · have hlast : lastOf before (c :: '*' :: (inner ++ ['*', '/'])) = some '/' := by simp
            have hne : (Lexeme.mk .comment (c :: '*' :: (inner ++ ['*', '/']))).stripped ≠ [] := by
              subst opens
              exact List.cons_ne_nil ' ' _
            refine .inl ?_
            rw [hlast, any_lastOf hne fun d hd => isIdent_of_isAsciiBlank (hblank d (List.mem_of_getLast? hd))]
            rfl
          · exact .inr (by simp)
        -- Behind a line comment there is a line feed or nothing.
        | line inner rest opens free ends => exact .inr ends
        | code body rest kind unquoted uncommented code => exact absurd rfl code.ne_comment
      rw [segment_commentStep_of_isAsciiBlank (isAsciiBlank_of_mem_stripped hkind), ih halike, Lexeme.code, if_pos hkind]
    · -- What is no comment keeps its text, and so its lexeme.
      have hfound := commentStep_iff.2 ((commentStep_iff.1 hstep).strip hkind h (lastOf before (c :: body)))
      rw [stripped_of_ne_comment hkind, segment_append_of_step hfound, hlast, ih (.inl rfl), Lexeme.code, if_neg hkind]
      rfl

theorem ne_comment_of_mem_code {l m : Lexeme} (h : m ∈ l.code) : m.kind ≠ .comment := by
  unfold Lexeme.code at h
  split at h
  · obtain ⟨c, -, rfl⟩ := List.mem_map.1 h
    exact Kind.noConfusion
  · rename_i hkind
    rwa [List.mem_singleton.1 h]

/-- In a text without comments both steps find the same. -/
theorem segment_opaqueStep_of_uncommented (h : ∀ l ∈ segment commentStep before s, l.kind ≠ .comment) :
    segment opaqueStep before s = segment commentStep before s := by
  induction before, s using bounded_commentStep.induction with
  | nil before => rw [segment, segment]
  | cons before c body rest kind hstep ih =>
    rw [segment_append_of_step hstep] at h ⊢
    have hkind : kind ≠ .comment := h _ List.mem_cons_self
    have hopaque : opaqueStep before c (body ++ rest) = (kind, body.length) := by
      unfold commentStep at hstep
      unfold opaqueStep
      split_ifs at hstep ⊢ with hquote hblock hline
      · exact hstep
      · exact absurd (Prod.mk.inj hstep).1.symm hkind
      · exact absurd (Prod.mk.inj hstep).1.symm hkind
      · exact hstep
    rw [segment_append_of_step hopaque, ih fun l hl => h l (List.mem_cons_of_mem _ hl)]

theorem segment_stripAfter (h : StartsAlike before before' s) :
    segment opaqueStep before' (stripAfter before s) = (segment commentStep before s).flatMap Lexeme.code := by
  have hlexemes := segment_commentStep_stripAfter h
  rw [← hlexemes]
  refine segment_opaqueStep_of_uncommented fun l hl => ?_
  rw [hlexemes] at hl
  obtain ⟨m, -, hl⟩ := List.mem_flatMap.1 hl
  exact ne_comment_of_mem_code hl

theorem written_code (before : Option Char) (s : List Char) :
    written ((segment commentStep before s).flatMap Lexeme.code) = stripAfter before s := by
  rw [← segment_stripAfter (.inl rfl), written_segment]

/-! ## Keywords in code -/

/-- Where a keyword starts at a character of code, in a text that follows the character `before`, starts on `line` and
consists of some lexemes. -/
def Keyword.inCode (k : Keyword) (line : Nat) (before : Option Char) : List Lexeme → List Occurrence
  | [] => []
  | l :: rest =>
    let text := l.text ++ written rest
    let later := inCode k (line + l.text.count '\n') (lastOf before l.text) rest
    if l.kind = .plain && startsWord k.word text && before.all k.follows then ⟨line, text.drop k.word.length⟩ :: later
    else later

variable {k : Keyword} {line : Nat} {lexemes : List Lexeme}

theorem isQuote_of_toLower (h : isQuote c = true) : isQuote c.toLower = true := by
  simp only [isQuote, Bool.or_eq_true, decide_eq_true_eq] at h
  rcases h with rfl | rfl <;> rfl

theorem written_map_single (s : List Char) : written (s.map Lexeme.single ++ lexemes) = s ++ written lexemes := by
  induction s with
  | nil => rfl
  | cons c s ih => exact congrArg (c :: ·) ih

namespace Keyword

theorem inCode_cons_of_not {l : Lexeme}
    (h : (startsWord k.word (l.text ++ written lexemes) && before.all k.follows) = false) :
    k.inCode line before (l :: lexemes) = k.inCode (line + l.text.count '\n') (lastOf before l.text) lexemes := by
  rw [inCode, Bool.and_assoc, h, Bool.and_false]
  rfl

theorem inCode_cons_of_starts (h : (startsWord k.word (c :: written lexemes) && before.all k.follows) = true) :
    k.inCode line before (.single c :: lexemes) = ⟨line, (c :: written lexemes).drop k.word.length⟩ ::
      k.inCode (line + [c].count '\n') (lastOf before [c]) lexemes := by
  rw [inCode, Bool.and_assoc]
  exact if_pos (Bool.and_eq_true_iff.2 ⟨rfl, h⟩)

theorem inCode_append_of_not_startsWord
    (h : ∀ t, t <:+ s → t ≠ [] → startsWord k.word (t ++ written lexemes) = false) :
    k.inCode line before (s.map Lexeme.single ++ lexemes) =
      k.inCode (line + s.count '\n') (lastOf before s) lexemes := by
  induction s generalizing line before with
  | nil => rfl
  | cons c s ih =>
    have hfirst : startsWord k.word ((Lexeme.single c).text ++ written (s.map Lexeme.single ++ lexemes)) = false := by
      rw [written_map_single]
      exact h (c :: s) List.suffix_rfl (List.cons_ne_nil c s)
    rw [List.map_cons, List.cons_append, inCode_cons_of_not (Bool.and_eq_false_iff.2 (.inl hfirst)),
      ih fun t ht => h t (ht.trans (List.suffix_cons c s)), Nat.add_assoc, ← List.count_append, ← lastOf_append]
    rfl

theorem bounded_step (k : Keyword) : Bounded k.step := by
  intro before c rest
  unfold step
  split_ifs with hquote hword
  · exact quotedLength_le c rest
  · have hlength := length_le_of_startsWord (Bool.and_eq_true_iff.1 hword).1
    exact Nat.sub_le_of_le_add hlength
  · exact bounded_urlStep before c rest

variable (hk : k.IsPlain)
include hk

/-- The letters of a keyword, of either case, are found one by one. -/
theorem segment_opaqueStep_of_word {t : List Char} (ht : t.map Char.toLower <:+ k.word) :
    segment opaqueStep before (t ++ rest) = t.map Lexeme.single ++ segment opaqueStep (lastOf before t) rest := by
  refine segment_append_of_plain fun before c u hu => ?_
  have hu' : (c :: u).map Char.toLower <:+ k.word := (hu.map Char.toLower).trans ht
  have hquote : isQuote c = false := by
    by_contra hnot
    have hlower := isQuote_of_toLower (Bool.not_eq_false _ ▸ hnot)
    rw [(hk.opensNothing _ (hu'.subset List.mem_cons_self)).1] at hlower
    cases hlower
  have hstarts : startsWord ((c :: u).map Char.toLower) (c :: (u ++ rest)) = true := by
    rw [startsWord_iff, ← List.cons_append, List.map_append]
    exact List.prefix_append _ _
  have hurl := hk.not_startsUrl hu' (List.cons_ne_nil _ _) hstarts
  rw [opaqueStep, hquote]
  exact urlStep_of_not_startsWord hurl

/-- A keyword does not start inside a keyword. -/
theorem inCode_append_of_tail {t : List Char} (ht : t.map Char.toLower = k.word.tail) :
    k.inCode line before (t.map Lexeme.single ++ lexemes) =
      k.inCode (line + t.count '\n') (lastOf before t) lexemes := by
  refine inCode_append_of_not_startsWord fun u hu hne => ?_
  obtain ⟨d, u, rfl⟩ := List.exists_cons_of_ne_nil hne
  obtain ⟨w, hw⟩ : ∃ w, k.word = w :: k.word.tail := by
    obtain ⟨w, tail, hw⟩ := List.exists_cons_of_ne_nil hk.word_ne
    exact ⟨w, by rw [hw]; rfl⟩
  have hmem : d.toLower ∈ k.word.tail := ht ▸ List.mem_map_of_mem (hu.subset List.mem_cons_self)
  have honce := hk.once _ hmem
  rw [hw] at honce
  rw [hw, List.cons_append, startsWord, decide_eq_false fun heq => honce (congrArg some heq), Bool.false_and]

/-- A keyword that is found in a text starts at a character of code, and where it starts it is found. -/
theorem findAfter_eq_inCode : k.findAfter before line s = k.inCode line before (segment opaqueStep before s) := by
  induction before, s using k.bounded_step.induction generalizing line with
  | nil before => simp [findAfter, segment, occurrences, inCode]
  | cons before c body rest kind hstep ih =>
    rw [findAfter_of_step hstep, ih]
    unfold step at hstep
    split_ifs at hstep with hquote hword
    · obtain ⟨rfl, hlength⟩ := Prod.mk.inj hstep
      have hopaque : opaqueStep before c (body ++ rest) = (.quoted, body.length) := by
        rw [opaqueStep, if_pos hquote, hlength]
      rw [segment_append_of_step hopaque]
      rfl
    · -- The keyword is one lexeme for one step and single characters for the other.
      obtain ⟨rfl, hlength⟩ := Prod.mk.inj hstep
      obtain ⟨hstarts, hbefore⟩ := Bool.and_eq_true_iff.1 hword
      have hword_length : k.word.length = (c :: body).length := by
        have hpos := List.length_pos_of_ne_nil hk.word_ne
        rw [List.length_cons]
        omega
      have hlower : (c :: body).map Char.toLower = k.word := by
        have hprefix := startsWord_iff.1 hstarts
        rw [← List.cons_append, List.map_append] at hprefix
        refine ((List.prefix_of_prefix_length_le hprefix (List.prefix_append _ _) ?_).eq_of_length ?_).symm
        · rw [List.length_map, hword_length]
        · rw [List.length_map, hword_length]
      have htail : body.map Char.toLower = k.word.tail := by rw [← hlower, List.map_cons, List.tail_cons]
      have hdrop : (c :: body ++ rest).drop k.word.length = rest := by rw [hword_length, List.drop_left]
      rw [segment_opaqueStep_of_word hk (hlower ▸ List.suffix_rfl), List.map_cons, List.cons_append,
        inCode_cons_of_starts, inCode_append_of_tail hk htail]
      · rw [written_map_single, written_segment, Nat.add_assoc, ← List.count_append, ← lastOf_append,
          ← List.cons_append, hdrop]
        rfl
      · rw [written_map_single, written_segment]
        exact hword
    · have hopaque : opaqueStep before c (body ++ rest) = (kind, body.length) := by
        rw [opaqueStep, if_neg hquote]
        exact hstep
      have hkind : kind ≠ .keyword := by cases urlStep_iff.1 hstep <;> decide
      rw [segment_append_of_step hopaque, if_neg hkind, List.nil_append, inCode_cons_of_not]
      rw [written_segment]
      exact Bool.eq_false_iff.2 hword

end Keyword

end StyleTrack.Source
