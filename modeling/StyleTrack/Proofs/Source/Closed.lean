/-
Texts that close what they open. What follows such a text on a new line does not reach back into it: strings, block
comments and unquoted bodies have ended, line comments end there, and no word goes across the line feed. So the lexemes
of the whole are those of the text, the line feed, and those of what follows.
-/
import StyleTrack.Proofs.Source.Passage
import Mathlib.Data.List.TakeWhile

namespace StyleTrack.Source

open StyleTrack.Text

/-! ## Closed lexemes -/

/-- Whether a string is closed, from after its opening quote. -/
def closesQuote (quote : Char) : List Char → Bool
  | [] => false
  | '\\' :: _ :: rest => closesQuote quote rest
  | c :: rest => c = quote || closesQuote quote rest

/-- Whether a lexeme ends where it should and not because the text does. Only strings, block comments and unquoted
`url(…)` bodies can be left open. -/
def Lexeme.isClosed (l : Lexeme) : Bool :=
  match l.kind, l.text with
  | .quoted, quote :: body => closesQuote quote body
  | .comment, '/' :: '*' :: body => ['*', '/'].isSuffixOf body
  | .url, text => text.getLast? = some ')'
  | _, _ => true

/-- Whether a text closes every string, block comment and unquoted body that it opens. -/
def IsClosed (text : List Char) : Prop := ∀ l ∈ segment commentStep none text, l.isClosed = true

variable {before : Option Char} {c quote : Char} {body rest rest' : List Char} {kind : Kind}

/-! ## Strings -/

theorem quotedLength_self (hquote : isQuote quote = true) (rest : List Char) :
    quotedLength quote (quote :: rest) = 1 := by
  rw [quotedLength, if_pos rfl]
  rintro d t rfl
  cases hquote

theorem quotedLength_cons_of_ne (hne : c ≠ quote) (hescape : c = '\\' → rest = []) :
    quotedLength quote (c :: rest) = quotedLength quote rest + 1 := by
  rw [quotedLength, if_neg hne]
  exact fun d t hc hrest => List.cons_ne_nil d t (hrest.symm.trans (hescape hc))

theorem quotedLength_eq_zero (h : quotedLength quote rest = 0) : rest = [] := by
  cases rest with
  | nil => rfl
  | cons c rest =>
    unfold quotedLength at h
    split at h
    · assumption
    · cases h
    · split at h <;> cases h

/-- A string that is closed ends there, whatever follows it. -/
theorem quotedLength_append_of_closesQuote (hquote : isQuote quote = true) (hclosed : closesQuote quote body = true)
    (h : quotedLength quote (body ++ rest) = body.length) (rest' : List Char) :
    quotedLength quote (body ++ rest') = body.length := by
  fun_induction closesQuote quote body with
  | case1 => cases hclosed
  | case2 d body ih =>
    simp only [List.cons_append, quotedLength, List.length_cons, Nat.add_right_cancel_iff] at h ⊢
    exact ih hclosed h
  | case3 c body hescape ih =>
    by_cases hc : c = quote
    · subst hc
      rw [List.cons_append, quotedLength_self hquote] at h ⊢
      exact h
    · rw [decide_eq_false hc, Bool.false_or] at hclosed
      -- A backslash as the last character would not leave the string closed.
      have hplain : c ≠ '\\' := by
        intro heq
        obtain ⟨d, tail, rfl⟩ := List.exists_cons_of_ne_nil (l := body) (by rintro rfl; cases hclosed)
        exact hescape d tail heq rfl
      rw [List.cons_append, quotedLength_cons_of_ne hc fun heq => absurd heq hplain, List.length_cons] at h ⊢
      rw [ih hclosed (Nat.add_right_cancel h)]

/-- A string is closed, or the text ends with it. -/
theorem closesQuote_or_eq_nil (h : quotedLength quote (body ++ rest) = body.length) :
    closesQuote quote body = true ∨ rest = [] := by
  fun_induction closesQuote quote body with
  | case1 => exact .inr (quotedLength_eq_zero h)
  | case2 d body ih =>
    simp only [List.cons_append, quotedLength, List.length_cons, Nat.add_right_cancel_iff] at h
    exact ih h
  | case3 c body hescape ih =>
    by_cases hc : c = quote
    · exact .inl (by simp [hc])
    · rw [decide_eq_false hc, Bool.false_or]
      by_cases hlone : c = '\\' → body ++ rest = []
      · rw [List.cons_append, quotedLength_cons_of_ne hc hlone, List.length_cons] at h
        exact ih (Nat.add_right_cancel h)
      · -- A backslash that takes the next character with it takes two; the string has one left.
        obtain ⟨rfl, hne⟩ := Classical.not_imp.1 hlone
        cases body with
        | nil =>
          obtain ⟨d, tail, rfl⟩ := List.exists_cons_of_ne_nil hne
          simp [quotedLength] at h
        | cons d body => exact absurd rfl (hescape d body rfl)

/-! ## Block comments -/

theorem blockLength_le (s : List Char) : blockLength s ≤ s.length := by
  fun_induction blockLength s with
  | case1 => exact Nat.le_refl 0
  | case2 rest => simp
  | case3 c rest hend ih => simp only [List.length_cons]; omega

theorem blockLength_append_of_suffix (hclosed : ['*', '/'] <:+ body) (h : blockLength (body ++ rest) = body.length)
    (rest' : List Char) : blockLength (body ++ rest') = body.length := by
  fun_induction blockLength body with
  | case1 => simp at hclosed
  | case2 body =>
    simp only [List.cons_append, blockLength] at h ⊢
    exact h
  | case3 c body hend ih =>
    rcases List.suffix_cons_iff.1 hclosed with heq | hsuffix
    · obtain ⟨rfl, rfl⟩ := List.cons.inj heq
      exact absurd rfl (hend [] rfl)
    · -- The rest of the body has a closing mark of its own, so no mark goes across its start.
      have hplain : ∀ rest tail, c = '*' → body ++ rest = '/' :: tail → False := by
        rintro rest tail rfl heq
        obtain ⟨d, body, rfl⟩ := List.exists_cons_of_ne_nil (l := body) (by rintro rfl; simp at hsuffix)
        obtain ⟨rfl, -⟩ := List.cons.inj heq
        exact hend body rfl rfl
      rw [List.cons_append, blockLength, List.length_cons] at h ⊢
      · rw [ih hsuffix (Nat.add_right_cancel h)]
      · exact hplain rest'
      · exact hplain rest

/-- A block comment is closed, or the text ends with it. -/
theorem suffix_or_eq_nil_of_blockLength (h : blockLength (body ++ rest) = body.length) :
    ['*', '/'] <:+ body ∨ rest = [] := by
  fun_induction blockLength body with
  | case1 =>
    cases rest with
    | nil => exact .inr rfl
    | cons c rest =>
      rw [List.nil_append] at h
      unfold blockLength at h
      split at h
      · contradiction
      · cases h
      · cases h
  | case2 body =>
    rw [List.cons_append, List.cons_append, blockLength] at h
    obtain rfl : body = [] := List.length_eq_zero_iff.1 (by simpa using h.symm)
    exact .inl List.suffix_rfl
  | case3 c body hend ih =>
    by_cases hmeets : ∃ tail, c = '*' ∧ body ++ rest = '/' :: tail
    · -- A closing mark that goes across the end of the body takes more than the body.
      obtain ⟨tail, rfl, heq⟩ := hmeets
      cases body with
      | nil =>
        rw [List.cons_append, heq] at h
        simp [blockLength] at h
      | cons d body =>
        obtain ⟨rfl, -⟩ := List.cons.inj heq
        exact absurd rfl (hend body rfl)
    · rw [List.cons_append, blockLength, List.length_cons] at h
      · exact (ih (Nat.add_right_cancel h)).imp (List.suffix_cons_iff.2 <| .inr ·) id
      · exact fun tail hc heq => hmeets ⟨tail, hc, heq⟩

/-! ## Unquoted bodies -/

theorem closeLength_append_of_mem (h : ')' ∈ body) (rest : List Char) :
    closeLength (body ++ rest) = closeLength body := by
  induction body with
  | nil => cases h
  | cons c body ih =>
    rw [List.cons_append, closeLength, closeLength]
    split
    · rfl
    · rename_i hc
      rw [ih ((List.mem_cons.1 h).resolve_left (Ne.symm hc))]

/-- An unquoted body is closed, or the text ends with it. -/
theorem mem_or_eq_nil_of_closeLength (h : closeLength (body ++ rest) = body.length) : ')' ∈ body ∨ rest = [] := by
  induction body with
  | nil =>
    cases rest with
    | nil => exact .inr rfl
    | cons c rest =>
      rw [List.nil_append, closeLength] at h
      split at h <;> cases h
  | cons c body ih =>
    by_cases hc : c = ')'
    · exact .inl (hc ▸ List.mem_cons_self)
    · rw [List.cons_append, closeLength, if_neg hc, List.length_cons] at h
      exact (ih (Nat.add_right_cancel h)).imp (List.mem_cons_of_mem _) id

theorem rawUrlLength?_append (h : ')' ∈ body) (rest : List Char) :
    rawUrlLength? (body ++ rest) = rawUrlLength? body := by
  have hne : skipBlanks body ≠ [] := by
    intro hnil
    have hblank := List.dropWhile_eq_nil_iff.1 hnil _ h
    cases hblank
  rw [rawUrlLength?, rawUrlLength?, closeLength_append_of_mem h, skipBlanks_append_of_ne_nil hne,
    List.head?_append_of_ne_nil _ hne]

theorem mem_or_eq_nil_of_rawUrlLength? (h : rawUrlLength? (body ++ rest) = some body.length) :
    ')' ∈ body ∨ rest = [] := by
  unfold rawUrlLength? at h
  split at h
  · cases h
  · exact mem_or_eq_nil_of_closeLength (Option.some.inj h)

/-- A body is quoted if behind some blanks there is a quote. -/
theorem rawUrlLength?_eq_none_iff : rawUrlLength? body = none ↔ ∃ blanks quote tail,
    body = blanks ++ quote :: tail ∧ (∀ c ∈ blanks, isAsciiBlank c = true) ∧ isQuote quote = true := by
  constructor
  · intro h
    have hquoted : (skipBlanks body).head?.any isQuote = true := by
      by_contra hnot
      rw [rawUrlLength?, if_neg hnot] at h
      cases h
    cases hskip : skipBlanks body with
    | nil =>
      rw [hskip] at hquoted
      cases hquoted
    | cons quote tail =>
      refine ⟨body.takeWhile isAsciiBlank, quote, tail, ?_, fun c => List.mem_takeWhile_imp, by rwa [hskip] at hquoted⟩
      rw [← hskip, skipBlanks, List.takeWhile_append_dropWhile]
  · rintro ⟨blanks, quote, tail, rfl, hblanks, hquote⟩
    have hskip : skipBlanks (blanks ++ quote :: tail) = quote :: tail := by
      refine skipBlanks_append hblanks ?_
      rintro c ⟨⟩
      exact isAsciiBlank_of_isQuote hquote
    rw [rawUrlLength?, hskip]
    exact if_pos hquote

theorem rawUrlLength?_append_of_none (h : rawUrlLength? body = none) (rest : List Char) :
    rawUrlLength? (body ++ rest) = none := by
  obtain ⟨blanks, quote, tail, rfl, hblanks, hquote⟩ := rawUrlLength?_eq_none_iff.1 h
  exact rawUrlLength?_eq_none_iff.2 ⟨blanks, quote, tail ++ rest, by simp, hblanks, hquote⟩

/-! ## What a step finds -/

/-- What starts at a character of code, where it takes `body` after the character and leaves `rest`. -/
inductive CodeLexeme (before : Option Char) (c : Char) : (body rest : List Char) → Kind → Prop
  /-- `url(` with an unquoted body. -/
  | url (word inner rest : List Char) (length : word.length = 3) (opens : opensUrl before (c :: word) = true)
      (raw : rawUrlLength? (inner ++ rest) = some inner.length) : CodeLexeme before c (word ++ inner) rest .url
  /-- `url(` with a quoted body. -/
  | opening (word rest : List Char) (length : word.length = 3) (opens : opensUrl before (c :: word) = true)
      (quoted : rawUrlLength? rest = none) : CodeLexeme before c word rest .plain
  /-- Nothing in particular. -/
  | single (rest : List Char) (opens : opensUrl before (c :: rest) = false) : CodeLexeme before c [] rest .plain

theorem startsWord_append_of_length_le {w s : List Char} (h : w.length ≤ s.length) (rest : List Char) :
    startsWord w (s ++ rest) = startsWord w s := by
  induction w generalizing s with
  | nil => simp [startsWord]
  | cons d w ih =>
    cases s with
    | nil => simp at h
    | cons c s => rw [List.cons_append, startsWord, startsWord, ih (Nat.le_of_succ_le_succ h)]

theorem opensUrl_append {word : List Char} (h : word.length = 3) (rest : List Char) :
    opensUrl before (c :: (word ++ rest)) = opensUrl before (c :: word) := by
  rw [opensUrl, opensUrl, ← List.cons_append, startsWord_append_of_length_le (by simp [h])]

theorem drop_append {word : List Char} (h : word.length = 3) (rest : List Char) : (word ++ rest).drop 3 = rest := by
  rw [← h, List.drop_left]

theorem urlStep_iff : urlStep before c (body ++ rest) = (kind, body.length) ↔ CodeLexeme before c body rest kind := by
  constructor
  · intro h
    unfold urlStep at h
    split at h
    · rename_i hopens
      split at h
      · rename_i n hraw
        obtain ⟨rfl, hlength⟩ := Prod.mk.inj h
        obtain ⟨word, inner, rfl, hword⟩ : ∃ word inner, body = word ++ inner ∧ word.length = 3 :=
          ⟨body.take 3, body.drop 3, (List.take_append_drop 3 body).symm, List.length_take_of_le (by omega)⟩
        have hinner : n = inner.length := by
          rw [List.length_append, hword] at hlength
          omega
        rw [List.append_assoc] at hraw hopens
        rw [drop_append hword, hinner] at hraw
        exact .url word inner rest hword (opensUrl_append hword _ ▸ hopens) hraw
      · rename_i hraw
        obtain ⟨rfl, hlength⟩ := Prod.mk.inj h
        rw [drop_append hlength.symm] at hraw
        exact .opening body rest hlength.symm (opensUrl_append hlength.symm _ ▸ hopens) hraw
    · rename_i hopens
      obtain ⟨rfl, hlength⟩ := Prod.mk.inj h
      obtain rfl := List.length_eq_zero_iff.1 hlength.symm
      exact .single rest (Bool.eq_false_iff.2 hopens)
  · intro h
    cases h with
    | url word inner rest length opens raw =>
      rw [List.append_assoc, urlStep, opensUrl_append length, if_pos opens, drop_append length, raw]
      simp [length, Nat.add_comm]
    | opening word rest length opens quoted =>
      rw [urlStep, opensUrl_append length, if_pos opens, drop_append length, quoted, length]
    | single rest opens =>
      rw [List.nil_append, urlStep, opens]
      rfl

/-- What starts at a character, where it takes `body` after the character and leaves `rest`. -/
inductive SourceLexeme (before : Option Char) (c : Char) : (body rest : List Char) → Kind → Prop
  /-- A string. -/
  | quoted (body rest : List Char) (opens : isQuote c = true) (length : quotedLength c (body ++ rest) = body.length) :
      SourceLexeme before c body rest .quoted
  /-- A comment up to its closing mark. -/
  | block (inner rest : List Char) (opens : c = '/') (length : blockLength (inner ++ rest) = inner.length) :
      SourceLexeme before c ('*' :: inner) rest .comment
  /-- A comment up to the end of the line. -/
  | line (inner rest : List Char) (opens : c = '/') (free : '\n' ∉ inner) (ends : ∀ d ∈ rest.head?, d = '\n') :
      SourceLexeme before c ('/' :: inner) rest .comment
  | code (body rest : List Char) (kind : Kind) (unquoted : isQuote c = false)
      (uncommented : c = '/' → ∀ d ∈ (body ++ rest).head?, d ≠ '*' ∧ d ≠ '/')
      (code : CodeLexeme before c body rest kind) : SourceLexeme before c body rest kind

/-- The rest of a line. -/
theorem length_takeWhile_line_iff : ((body ++ rest).takeWhile (· ≠ '\n')).length = body.length ↔
    '\n' ∉ body ∧ ∀ d ∈ rest.head?, d = '\n' := by
  constructor
  · intro h
    have hsplit := List.takeWhile_append_dropWhile (p := (· ≠ '\n')) (l := body ++ rest)
    obtain ⟨hbody, hrest⟩ := List.append_inj hsplit h
    refine ⟨fun hmem => ?_, fun d hd => ?_⟩
    · rw [← hbody] at hmem
      simpa using List.mem_takeWhile_imp hmem
    · have hnot := List.head?_dropWhile_not (· ≠ '\n') (body ++ rest)
      rw [hrest, hd] at hnot
      simpa using hnot
  · rintro ⟨hfree, hends⟩
    have hnone : rest.takeWhile (· ≠ '\n') = [] := by
      cases rest with
      | nil => rfl
      | cons d rest => rw [List.takeWhile_cons_of_neg (by simp [hends d rfl])]
    rw [List.takeWhile_append_of_pos (forall_ne_of_notMem hfree), hnone, List.append_nil]

theorem commentStep_iff :
    commentStep before c (body ++ rest) = (kind, body.length) ↔ SourceLexeme before c body rest kind := by
  constructor
  · intro h
    unfold commentStep at h
    split_ifs at h with hquote hblock hline
    · obtain ⟨rfl, hlength⟩ := Prod.mk.inj h
      exact .quoted body rest hquote hlength
    · obtain ⟨rfl, hlength⟩ := Prod.mk.inj h
      obtain ⟨d, inner, rfl⟩ := List.exists_cons_of_ne_nil (l := body) (by rintro rfl; cases hlength)
      simp only [List.cons_append, List.head?_cons, Bool.and_eq_true, decide_eq_true_eq, Option.some.injEq] at hblock
      obtain ⟨hc, rfl⟩ := hblock
      exact .block inner rest hc (Nat.add_right_cancel hlength)
    · obtain ⟨rfl, hlength⟩ := Prod.mk.inj h
      obtain ⟨hfree, hends⟩ := length_takeWhile_line_iff.1 hlength
      simp only [Bool.and_eq_true, decide_eq_true_eq] at hline
      obtain ⟨hc, hhead⟩ := hline
      cases body with
      | nil => cases hends '/' hhead
      | cons d inner =>
        obtain rfl := Option.some.inj hhead
        exact .line inner rest hc (fun hmem => hfree (List.mem_cons_of_mem _ hmem)) hends
    · refine .code body rest kind (Bool.eq_false_iff.2 hquote) (fun hc d hd => ?_) (urlStep_iff.1 h)
      simp only [hc, decide_true, Bool.true_and, decide_eq_true_eq] at hblock hline
      rw [Option.mem_def.1 hd] at hblock hline
      exact ⟨fun heq => hblock (congrArg some heq), fun heq => hline (congrArg some heq)⟩
  · intro h
    cases h with
    | quoted body rest opens length => rw [commentStep, if_pos opens, length]
    | block inner rest opens length =>
      subst opens
      simp [commentStep, isQuote, length]
    | line inner rest opens free ends =>
      have hlength : (('/' :: inner ++ rest).takeWhile (· ≠ '\n')).length = ('/' :: inner).length :=
        length_takeWhile_line_iff.2 ⟨by simpa using free, ends⟩
      subst opens
      rw [commentStep, hlength]
      simp [isQuote]
    | code body rest kind unquoted uncommented code =>
      have hnot : ∀ d, d = '*' ∨ d = '/' → (decide (c = '/') && decide ((body ++ rest).head? = some d)) = false := by
        intro d hd
        rw [Bool.and_eq_false_iff, decide_eq_false_iff_not, decide_eq_false_iff_not]
        by_cases hc : c = '/'
        · refine .inr fun hhead => ?_
          obtain ⟨hstar, hslash⟩ := uncommented hc d hhead
          exact hd.elim hstar hslash
        · exact .inl hc
      rw [commentStep, unquoted, hnot '*' (.inl rfl), hnot '/' (.inr rfl)]
      exact urlStep_iff.2 code

theorem bounded_commentStep : Bounded commentStep := by
  intro before c rest
  unfold commentStep
  split_ifs with hquote hblock hline
  · exact quotedLength_le c rest
  · have hlength := blockLength_le (rest.drop 1)
    cases rest with
    | nil => simp at hblock
    | cons d rest => simpa using hlength
  · exact (List.takeWhile_sublist _).length_le
  · exact bounded_urlStep before c rest

/-! ## In front of a line feed -/

/-- The closing parenthesis of an unquoted body does not stand in the word in front of it. -/
theorem mem_of_isClosed {word inner : List Char} (hlength : word.length = 3)
    (hopens : opensUrl before (c :: word) = true) (hclosed : (Lexeme.mk .url (c :: (word ++ inner))).isClosed = true) :
    ')' ∈ inner := by
  have hword : ['u', 'r', 'l', '('] = (c :: word).map Char.toLower :=
    (startsWord_iff.1 (Bool.and_eq_true_iff.1 hopens).1).eq_of_length (by simp [hlength])
  have hmem : ')' ∈ c :: word ++ inner := List.mem_of_getLast? (of_decide_eq_true hclosed)
  refine (List.mem_append.1 hmem).resolve_left fun hmem => ?_
  have hlower : Char.toLower ')' ∈ ['u', 'r', 'l', '('] := hword ▸ List.mem_map_of_mem hmem
  exact absurd hlower (by decide)

theorem CodeLexeme.append_newline (h : CodeLexeme before c body rest kind)
    (hclosed : (Lexeme.mk kind (c :: body)).isClosed = true) (tail : List Char) :
    CodeLexeme before c body (rest ++ '\n' :: tail) kind := by
  cases h with
  | url word inner rest length opens raw =>
    -- The closing parenthesis is inside, and with it everything that the length depends on.
    have hmem := mem_of_isClosed length opens hclosed
    rw [rawUrlLength?_append hmem] at raw
    exact .url word inner _ length opens (by rw [rawUrlLength?_append hmem, raw])
  | opening body rest length opens quoted => exact .opening body _ length opens (rawUrlLength?_append_of_none quoted _)
  | single rest opens =>
    refine .single _ ?_
    rw [opensUrl, ← List.cons_append, startsWord_append_cons (by decide) (by decide)]
    exact opens

theorem SourceLexeme.append_newline (h : SourceLexeme before c body rest kind)
    (hclosed : (Lexeme.mk kind (c :: body)).isClosed = true) (tail : List Char) :
    SourceLexeme before c body (rest ++ '\n' :: tail) kind := by
  cases h with
  | quoted body rest opens length =>
    exact .quoted body _ opens (quotedLength_append_of_closesQuote opens hclosed length _)
  | block inner rest opens length =>
    subst opens
    exact .block inner _ rfl (blockLength_append_of_suffix (List.isSuffixOf_iff_suffix.1 hclosed) length _)
  | line inner rest opens free ends =>
    -- A line comment goes up to a line feed: the next one of the text, or the one behind the text.
    refine .line inner _ opens free fun d hd => ?_
    cases rest with
    | nil => exact (Option.some.inj hd).symm
    | cons x rest => exact ends d hd
  | code body rest kind unquoted uncommented code =>
    refine .code body _ kind unquoted (fun hc d hd => ?_) (code.append_newline hclosed tail)
    rw [← List.append_assoc] at hd
    cases hempty : body ++ rest with
    | nil =>
      rw [hempty] at hd
      cases hd
      decide
    | cons x t =>
      rw [hempty] at hd
      exact uncommented hc d (by rw [hempty]; exact hd)

theorem segment_append_newline {s : List Char} (h : ∀ l ∈ segment commentStep before s, l.isClosed = true)
    (tail : List Char) : segment commentStep before (s ++ '\n' :: tail) =
      segment commentStep before s ++ segment commentStep (lastOf before s) ('\n' :: tail) := by
  induction before, s using bounded_commentStep.induction with
  | nil before => simp [segment]
  | cons before c body rest kind hstep ih =>
    rw [segment_append_of_step hstep] at h ⊢
    have hclosed := h _ List.mem_cons_self
    have hstep' := commentStep_iff.2 ((commentStep_iff.1 hstep).append_newline hclosed tail)
    rw [List.append_assoc, segment_append_of_step hstep', ih fun l hl => h l (List.mem_cons_of_mem _ hl), lastOf_append]
    rfl

end StyleTrack.Source
