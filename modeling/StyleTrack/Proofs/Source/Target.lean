/-
Targets that are written as strings. A string that is closed stands for the text between its quotes, and one that is
closed nowhere is refused, unless the text ends in a backslash and the quote: the quote that the backslash takes with it
is then mistaken for the closing one.
-/
import StyleTrack.Import.Expansion
import StyleTrack.Proofs.Import.Traced
import StyleTrack.Proofs.Source.Statement
import StyleTrack.Proofs.Source.Static

namespace StyleTrack.Source

open StyleTrack.Text

variable {quote c d : Char} {body content rest target : List Char} {o : Occurrence}

/-! ## Strings that are closed -/

/-- Whether the string that `body` follows the opening quote of is closed behind its content. -/
def Closes (quote : Char) (content body : List Char) : Prop :=
  StringBody quote content ∧ ∃ rest, body = content ++ quote :: rest

/-- Whether a string is closed nowhere. -/
def Unterminated (quote : Char) (body : List Char) : Prop := ∀ content, ¬ Closes quote content body

namespace Unterminated

theorem of_escape (h : Unterminated quote ('\\' :: c :: body)) : Unterminated quote body := by
  rintro content ⟨hcontent, rest, rfl⟩
  exact h ('\\' :: c :: content) ⟨.escape c content hcontent, rest, rfl⟩

theorem ne_of_cons (h : Unterminated quote (c :: body)) : c ≠ quote := by
  rintro rfl
  exact h [] ⟨.nil, body, rfl⟩

theorem of_cons (hlone : c = '\\' → body = []) (h : Unterminated quote (c :: body)) : Unterminated quote body := by
  rintro content ⟨hcontent, rest, rfl⟩
  have hplain : c ≠ '\\' := fun heq => by simpa using hlone heq
  exact h (c :: content) ⟨.char c content h.ne_of_cons hplain hcontent, rest, rfl⟩

/-- A string that is closed nowhere takes all there is. -/
theorem quotedLength_eq (h : Unterminated quote body) : quotedLength quote body = body.length := by
  fun_induction quotedLength quote body with
  | case1 => rfl
  | case2 c body ih => rw [ih h.of_escape]; rfl
  | case3 body hescape => exact absurd rfl h.ne_of_cons
  | case4 c body hescape hne ih =>
    have hlone : c = '\\' → body = [] := by
      rintro rfl
      cases body with
      | nil => rfl
      | cons d body => exact absurd rfl (hescape d body rfl)
    rw [ih (h.of_cons hlone)]
    rfl

/-- Only a quote that a backslash takes with it can be the last character of a string that is closed nowhere. -/
theorem suffix_of_getLast? (h : Unterminated quote body) (hlast : body.getLast? = some quote) :
    ['\\', quote] <:+ body := by
  fun_induction quotedLength quote body with
  | case1 => cases hlast
  | case2 c body ih =>
    cases body with
    | nil =>
      obtain rfl : c = quote := by simpa using hlast
      exact List.suffix_rfl
    | cons d body =>
      have htail := ih h.of_escape (by simpa using hlast)
      exact htail.trans (List.suffix_append ['\\', c] _)
  | case3 body hescape => exact absurd rfl h.ne_of_cons
  | case4 c body hescape hne ih =>
    cases body with
    | nil => exact absurd (by simpa using hlast) hne
    | cons d body =>
      have hlone : c = '\\' → d :: body = [] := fun heq => absurd rfl (hescape d body heq)
      exact (ih (h.of_cons hlone) (by simpa using hlast)).trans (List.suffix_cons c _)

theorem getLast?_eq_iff (h : Unterminated quote body) : body.getLast? = some quote ↔ ['\\', quote] <:+ body := by
  refine ⟨h.suffix_of_getLast?, ?_⟩
  rintro ⟨front, rfl⟩
  simp

end Unterminated

theorem quotedTarget?_of_closes (hquote : isQuote quote = true) (h : Closes quote content body) :
    quotedTarget? quote body = some content := by
  obtain ⟨hcontent, rest, rfl⟩ := h
  have htaken : (content ++ quote :: rest).take (content.length + 1) = content ++ [quote] := by
    rw [List.take_length_add_append]
    rfl
  simp only [quotedTarget?, quotedLength_of_stringBody hquote hcontent, htaken]
  simp

theorem quotedTarget?_of_unterminated (h : Unterminated quote body) :
    quotedTarget? quote body = if ['\\', quote] <:+ body then some body.dropLast else none := by
  simp only [quotedTarget?, h.quotedLength_eq, List.take_length, h.getLast?_eq_iff]

/-- Every string that is closed is a target, and of the others those that seem to be. -/
theorem quotedTarget?_eq_some_iff (hquote : isQuote quote = true) : quotedTarget? quote body = some content ↔
    Closes quote content body ∨ Unterminated quote body ∧ ['\\', quote] <:+ body ∧ content = body.dropLast := by
  by_cases hclosed : ∃ inner, Closes quote inner body
  · obtain ⟨inner, hinner⟩ := hclosed
    rw [quotedTarget?_of_closes hquote hinner, Option.some.injEq]
    constructor
    · rintro rfl
      exact .inl hinner
    · rintro (hcontent | ⟨hnone, -⟩)
      · exact Option.some.inj ((quotedTarget?_of_closes hquote hinner).symm.trans (quotedTarget?_of_closes hquote hcontent))
      · exact absurd hinner (hnone inner)
  · have hnone : Unterminated quote body := fun inner hinner => hclosed ⟨inner, hinner⟩
    rw [quotedTarget?_of_unterminated hnone]
    simp [hnone content, hnone, eq_comm]

theorem exists_quotedTarget?_iff (hquote : isQuote quote = true) : (∃ content, quotedTarget? quote body = some content) ↔
    (∃ content, Closes quote content body) ∨ ['\\', quote] <:+ body := by
  simp only [quotedTarget?_eq_some_iff hquote]
  constructor
  · rintro ⟨content, hclosed | ⟨-, hends, -⟩⟩
    · exact .inl ⟨content, hclosed⟩
    · exact .inr hends
  · intro h
    by_cases hclosed : ∃ content, Closes quote content body
    · exact hclosed.imp fun _ => .inl
    · exact ⟨body.dropLast, .inr ⟨not_exists.1 hclosed, h.resolve_left hclosed, rfl⟩⟩

/-! ## Directives with quoted targets -/

/-- How a target is written as a string: on its own or inside `url(…)`. -/
inductive QuotedTarget (quote : Char) (body : List Char) : List Char → Prop
  | string : QuotedTarget quote body (quote :: body)
  | url (word : List Char) (gap : Spacing) (isUrl : word.map Char.toLower = ['u', 'r', 'l', '(']) :
      QuotedTarget quote body (word ++ (gap.text ++ quote :: body))

/-- Whether the target behind the keyword, and behind the options if there are any, is a string that opens with `quote`
before `body`. -/
def Occurrence.Quotes (o : Occurrence) (quote : Char) (body : List Char) : Prop :=
  isQuote quote = true ∧ ∃ (lead : Spacing) (target : List Char), QuotedTarget quote body target ∧
    (o.rest = lead.text ++ target ∨ ∃ (listed : List Char) (gap : Spacing), ')' ∉ listed ∧
      o.rest = lead.text ++ '(' :: (listed ++ ')' :: (gap.text ++ target)))

namespace QuotedTarget

theorem exists_cons (hquote : isQuote quote = true) (h : QuotedTarget quote body target) :
    ∃ c rest, target = c :: rest ∧ (isQuote c = true ∨ c.toLower = 'u') := by
  cases h with
  | string => exact ⟨quote, body, rfl, .inl hquote⟩
  | url word gap isUrl =>
    obtain ⟨c, word, rfl⟩ := List.exists_cons_of_ne_nil (l := word) (by rintro rfl; cases isUrl)
    exact ⟨c, _, rfl, .inr (List.cons.inj isUrl).1⟩

/-- A target starts neither with a blank nor with options. -/
theorem of_mem_head? (hquote : isQuote quote = true) (h : QuotedTarget quote body target) :
    ∀ c ∈ target.head?, isAsciiBlank c = false ∧ c ≠ '(' := by
  obtain ⟨c, rest, rfl, hc⟩ := h.exists_cons hquote
  rintro d ⟨⟩
  rcases hc with hc | hc
  · refine ⟨isAsciiBlank_of_isQuote hc, ?_⟩
    rintro rfl
    cases hc
  · have hident : isIdent c = true := isIdent_of_toLower (by rw [hc]; rfl)
    refine ⟨isAsciiBlank_of_isBlank (isBlank_of_isIdent hident), ?_⟩
    rintro rfl
    cases hident

theorem target?_eq (hquote : isQuote quote = true) (h : QuotedTarget quote body target) :
    target? target = quotedTarget? quote body := by
  cases h with
  | string => rw [target?, if_pos hquote]
  | url word gap isUrl =>
    have hword : startsWord ['u', 'r', 'l', '('] (word ++ (gap.text ++ quote :: body)) = true := by
      rw [startsWord_iff, List.map_append, isUrl]
      exact List.prefix_append _ _
    have hdrop : (word ++ (gap.text ++ quote :: body)).drop 4 = gap.text ++ quote :: body := by
      have hlength : word.length = 4 := by simpa using congrArg List.length isUrl
      rw [← hlength, List.drop_left]
    have hskip : skipBlanks (gap.text ++ quote :: body) = quote :: body :=
      skipBlanks_append gap.blank (by rintro c ⟨⟩; exact isAsciiBlank_of_isQuote hquote)
    obtain ⟨c, word, rfl⟩ := List.exists_cons_of_ne_nil (l := word) (by rintro rfl; cases isUrl)
    have hplain : isQuote c = false := by
      rw [Bool.eq_false_iff]
      intro hc
      have hlower : c.toLower = 'u' := (List.cons.inj isUrl).1
      simp only [isQuote, Bool.or_eq_true, decide_eq_true_eq] at hc
      rcases hc with rfl | rfl <;> cases hlower
    rw [List.cons_append] at hword hdrop ⊢
    simp only [target?, hplain, hword, hdrop, hskip, hquote, Bool.false_eq_true, if_false, if_true]

end QuotedTarget

/-- Behind the options, it is the string that decides. -/
theorem Occurrence.Quotes.ofText_eq (h : o.Quotes quote body) : ∃ options : Except DirectiveFault ImportOptions,
    (∃ target, Directive.optionsOf o.rest = options.map fun options => (options, target)) ∧
    Directive.ofText o.line o.rest = options.bind fun options =>
      match quotedTarget? quote body with
      | none => .error .malformed
      | some content => .ok ⟨String.ofList content, options, o.line⟩ := by
  obtain ⟨hquote, lead, target, htarget, hrest⟩ := h
  have hhead := htarget.of_mem_head? hquote
  have hoptions : ∃ options : Except DirectiveFault ImportOptions,
      Directive.optionsOf o.rest = options.map fun options => (options, target) := by
    rcases hrest with hrest | ⟨listed, gap, hclose, hrest⟩
    · exact ⟨.ok (ImportOptions.ofList []), by rw [hrest, Directive.optionsOf_of_head? lead hhead]; rfl⟩
    · exact ⟨ImportOptions.ofText listed, by
        rw [hrest, Directive.optionsOf_listed lead gap hclose fun c hc => (hhead c hc).1]⟩
  obtain ⟨options, hoptions⟩ := hoptions
  refine ⟨options, ⟨target, hoptions⟩, ?_⟩
  rw [Directive.ofText, hoptions]
  cases options with
  | error fault => rfl
  | ok options =>
    cases hcontent : quotedTarget? quote body <;>
      simp only [Except.map, bind, Except.bind, htarget.target?_eq hquote, hcontent]

theorem Occurrence.Quotes.exists_ok_iff (h : o.Quotes quote body) : (∃ d, Directive.ofText o.line o.rest = .ok d) ↔
    (∃ r, Directive.optionsOf o.rest = .ok r) ∧ ∃ content, quotedTarget? quote body = some content := by
  obtain ⟨options, ⟨target, hoptions⟩, hofText⟩ := h.ofText_eq
  rw [hofText, hoptions]
  cases options with
  | error fault => simp [Except.map, Except.bind]
  | ok options => cases quotedTarget? quote body <;> simp [Except.map, Except.bind]

/-- The text that a directive takes for its target. -/
theorem Occurrence.Quotes.target_eq (h : o.Quotes quote body) {d : Directive}
    (hd : Directive.ofText o.line o.rest = .ok d) : quotedTarget? quote body = some d.target.toList := by
  obtain ⟨options, -, hofText⟩ := h.ofText_eq
  rw [hofText] at hd
  cases options with
  | error fault => cases hd
  | ok options =>
    rw [Except.bind] at hd
    cases hcontent : quotedTarget? quote body with
    | none => simp [hcontent] at hd
    | some content =>
      simp only [hcontent, Except.ok.injEq] at hd
      rw [← hd, String.toList_ofList]

/-! ## All directives of a text -/

/-- Where the directives of a text are. -/
def Directive.statements (text : List Char) : List Occurrence := (keyword.find text).filter fun o => !isLongerWord o

theorem Directive.parse_eq_ok_iff {text : List Char} {directives : List Directive} : parse text = .ok directives ↔
    List.Forall₂ (fun o d => ofText o.line o.rest = .ok d) (statements text) directives := by
  simp only [parse, mapM_eq_ok_iff, mapError_eq_ok_iff, statements]

/-- What a text says with strings for targets. Where its directives are accepted, each such string is closed and its
content is the target, or the text ends in a backslash and the quote, and the target is all before that quote. Behind
proper options, a string is accepted exactly if it is closed or the text ends so. Any other makes a syntax error of every
file that has the text when its comments are blanked out. -/
theorem parse_quoted (text : List Char) :
    (∀ directives, Directive.parse text = .ok directives → List.Forall₂ (fun o d => ∀ quote body, o.Quotes quote body →
      Closes quote d.target.toList body ∨
        Unterminated quote body ∧ ['\\', quote] <:+ body ∧ d.target.toList = body.dropLast)
      (Directive.statements text) directives) ∧
    ∀ o ∈ Directive.statements text, ∀ quote body, o.Quotes quote body →
      ((∃ d, Directive.ofText o.line o.rest = .ok d) ↔
        (∃ r, Directive.optionsOf o.rest = .ok r) ∧ ((∃ content, Closes quote content body) ∨ ['\\', quote] <:+ body)) ∧
      (Unterminated quote body → ¬ ['\\', quote] <:+ body → ∀ (file : Path) (source : List Char),
        stripComments source = text → ∃ line fault, Expansion.tasksOf file source = .error (.malformed file line fault)) := by
  refine ⟨fun directives hparse => ?_, fun o ho quote body hquotes => ?_⟩
  · refine (Directive.parse_eq_ok_iff.1 hparse).imp fun o d hd quote body hquotes => ?_
    exact (quotedTarget?_eq_some_iff hquotes.1).1 (hquotes.target_eq hd)
  · have haccepted : (∃ d, Directive.ofText o.line o.rest = .ok d) ↔ (∃ r, Directive.optionsOf o.rest = .ok r) ∧
        ((∃ content, Closes quote content body) ∨ ['\\', quote] <:+ body) := by
      rw [hquotes.exists_ok_iff, exists_quotedTarget?_iff hquotes.1]
    refine ⟨haccepted, fun hnone hsuffix file source hsource => ?_⟩
    rw [Expansion.tasksOf, hsource]
    cases hparse : Directive.parse text with
    | error fault => exact ⟨_, _, rfl⟩
    | ok directives =>
      obtain ⟨d, -, hd⟩ := exists_of_forall₂_left (Directive.parse_eq_ok_iff.1 hparse) ho
      rcases (haccepted.1 ⟨d, hd⟩).2 with ⟨content, hcontent⟩ | hends
      · exact absurd hcontent (hnone content)
      · exact absurd hends hsuffix

/-- The string in `@import "a\"` is closed nowhere and taken for a target; the one in `@import "a` is refused. -/
theorem parse_quoted_escaped :
    (Directive.parse "@import \"a\\\"".toList = .ok [⟨"a\\", {}, 1⟩] ∧ Unterminated '"' ['a', '\\', '"']) ∧
      ∃ line fault, Expansion.tasksOf (.ofString "main.less") "@import \"a".toList =
        .error (.malformed (.ofString "main.less") line fault) := by
  have hparse : Directive.parse "@import \"a\\\"".toList = .ok [⟨"a\\", {}, 1⟩] := by decide +kernel
  have hescaped : Directive.statements "@import \"a\\\"".toList = [⟨1, " \"a\\\"".toList⟩] := by decide +kernel
  have hopen : Directive.statements "@import \"a".toList = [⟨1, " \"a".toList⟩] := by decide +kernel
  have hquotes : ∀ body, Occurrence.Quotes ⟨1, ' ' :: '"' :: body⟩ '"' body := fun body =>
    ⟨by decide, ⟨[' '], List.forall_iff_forall_mem.1 (by decide)⟩, '"' :: body, .string, .inl rfl⟩
  have htaken := (parse_quoted "@import \"a\\\"".toList).1 _ hparse
  rw [hescaped, List.forall₂_cons] at htaken
  have hnone : Unterminated '"' ['a', '\\', '"'] := by
    rcases htaken.1 '"' _ (hquotes ['a', '\\', '"']) with ⟨hbody, -⟩ | ⟨hnone, -⟩
    · -- The backslash before the quote would have nothing to take with it.
      cases hbody with
      | char c s hne hescape h =>
        cases h with
        | char c s hne hescape h => exact absurd rfl hescape
    · exact hnone
  have hnone' : Unterminated '"' ['a'] := by
    rintro content ⟨-, rest, hbody⟩
    have hmem : '"' ∈ ['a'] := by
      rw [hbody]
      simp
    simp at hmem
  refine ⟨⟨hparse, hnone⟩, ?_⟩
  refine ((parse_quoted "@import \"a".toList).2 ⟨1, " \"a".toList⟩ ?_ '"' ['a'] (hquotes ['a'])).2 hnone' ?_ _ _ ?_
  · rw [hopen]
    exact List.mem_singleton_self _
  · decide
  · decide +kernel

end StyleTrack.Source
