/-
Which calls name a path without evaluation. The path argument of such a call is one quoted string in which no variable
is interpolated, or one token of characters that stand for themselves; any other is dynamic, whatever it is made of.
That a string in an argument has ended is due to the parenthesis that closes the call behind it.
-/
import StyleTrack.Proofs.Source.Composition

namespace StyleTrack.Source

open StyleTrack.Text

/-! ## Static paths -/

/-- What may stand between two quotes: a backslash takes the next character with it, and no other character is the
quote. -/
inductive StringBody (quote : Char) : List Char → Prop
  | nil : StringBody quote []
  | escape (c : Char) (s : List Char) (h : StringBody quote s) : StringBody quote ('\\' :: c :: s)
  | char (c : Char) (s : List Char) (hne : c ≠ quote) (hescape : c ≠ '\\') (h : StringBody quote s) :
      StringBody quote (c :: s)

/-- The arguments that name a path as it is, between blanks, and the paths that they name. -/
inductive StaticPath : (argument path : List Char) → Prop
  | string (tilde : List Char) (quote : Char) (path : List Char) (escaped : tilde = [] ∨ tilde = ['~'])
      (opens : isQuote quote = true) (body : StringBody quote path) (literal : ¬ ['@', '{'] <:+: path) :
      StaticPath (tilde ++ quote :: (path ++ [quote])) path
  | token (path : List Char) (ne_nil : path ≠ []) (bare : ∀ c ∈ path, isIdent c = true ∨ c ∈ ['.', '/', '+'])
      (unsigned : path.head? ≠ some '+') : StaticPath path path

/-- Whether a call has a path argument: the only one of its arguments or the second of two, none of which is blank. -/
def Occurrence.HasPath (o : Occurrence) (argument : List Char) : Prop :=
  ∃ args, Arguments.split? 0 o.rest = some args ∧
    (args.toList = [argument] ∨ ∃ mime, args.toList = [mime, argument]) ∧ ∀ raw ∈ args.toList, trim raw ≠ []

/-- Whether a call is well formed and its path depends on evaluation. -/
def Occurrence.IsDynamic (o : Occurrence) : Prop :=
  ∃ argument, o.HasPath argument ∧ ∀ path, ¬ StaticPath (trim argument) path

variable {quote c : Char} {body inner rest s t u : List Char} {line depth : Nat} {o : Occurrence}

/-! ## Strings -/

theorem quotedLength_of_stringBody (hquote : isQuote quote = true) (h : StringBody quote body) (rest : List Char) :
    quotedLength quote (body ++ quote :: rest) = body.length + 1 := by
  induction h with
  | nil => exact quotedLength_self hquote rest
  | escape c s h ih => rw [List.cons_append, List.cons_append, quotedLength, ih]; rfl
  | char c s hne hescape h ih =>
    rw [List.cons_append, quotedLength_cons_of_ne hne fun heq => absurd heq hescape, ih]
    rfl

/-- A string that is closed where it ends is a body and its closing quote. -/
theorem exists_stringBody_of_closesQuote (hlength : quotedLength quote body = body.length)
    (hclosed : closesQuote quote body = true) : ∃ inner, body = inner ++ [quote] ∧ StringBody quote inner := by
  fun_induction closesQuote quote body with
  | case1 => cases hclosed
  | case2 d body ih =>
    rw [quotedLength, List.length_cons, List.length_cons, Nat.add_right_cancel_iff] at hlength
    obtain ⟨inner, rfl, h⟩ := ih hlength hclosed
    exact ⟨'\\' :: d :: inner, rfl, .escape d inner h⟩
  | case3 c body hescape ih =>
    have hlone : c = '\\' → body = [] := by
      intro heq
      cases body with
      | nil => rfl
      | cons d body => exact absurd rfl (hescape d body heq)
    by_cases hc : c = quote
    · subst hc
      rw [quotedLength, if_pos rfl, List.length_cons] at hlength
      · obtain rfl := List.length_eq_zero_iff.1 (Nat.succ_inj.1 hlength).symm
        exact ⟨[], rfl, .nil⟩
      · exact hescape
    · rw [decide_eq_false hc, Bool.false_or] at hclosed
      rw [quotedLength_cons_of_ne hc hlone, List.length_cons, Nat.add_right_cancel_iff] at hlength
      obtain ⟨inner, rfl, h⟩ := ih hlength hclosed
      have hplain : c ≠ '\\' := fun heq => by simpa using hlone heq
      exact ⟨c :: inner, rfl, .char c inner hc hplain h⟩

/-! ## Arguments of a call -/

/-- Text in which every string is closed. -/
inductive StringsClosed : List Char → Prop
  | nil : StringsClosed []
  | string (quote : Char) (body s : List Char) (opens : isQuote quote = true)
      (length : quotedLength quote body = body.length) (closed : closesQuote quote body = true) (h : StringsClosed s) :
      StringsClosed (quote :: (body ++ s))
  | char (c : Char) (s : List Char) (plain : isQuote c = false) (h : StringsClosed s) : StringsClosed (c :: s)

theorem StringsClosed.of_append (hs : ∀ c ∈ s, isQuote c = false) (h : StringsClosed (s ++ t)) : StringsClosed t := by
  induction s with
  | nil => exact h
  | cons c s ih =>
    refine ih (fun d hd => hs d (List.mem_cons_of_mem _ hd)) ?_
    have hc := hs c List.mem_cons_self
    generalize hu : c :: s ++ t = u at h
    cases h with
    | nil => cases hu
    | string quote body s opens length closed h =>
      rw [(List.cons.inj hu).1, opens] at hc
      cases hc
    | char c u plain h =>
      rw [← (List.cons.inj hu).2] at h
      exact h

/-- What stands between the parentheses and commas of a call is taken from the text, and its strings are closed. -/
theorem split?_spec {args : Arguments} (h : Arguments.split? depth s = some args) :
    (args.first <+: s ∧ StringsClosed args.first) ∧ ∀ raw ∈ args.others, raw <:+: s ∧ StringsClosed raw := by
  have hcons : ∀ (c : Char) {rest : List Char} {inner : Arguments}, isQuote c = false →
      ((inner.first <+: rest ∧ StringsClosed inner.first) ∧ ∀ raw ∈ inner.others, raw <:+: rest ∧ StringsClosed raw) →
      (((inner.prepend [c]).first <+: c :: rest ∧ StringsClosed (inner.prepend [c]).first) ∧
        ∀ raw ∈ (inner.prepend [c]).others, raw <:+: c :: rest ∧ StringsClosed raw) := by
    rintro c rest inner hc ⟨⟨hstart, hstrings⟩, hothers⟩
    exact ⟨⟨List.cons_prefix_cons.2 ⟨rfl, hstart⟩, .char c _ hc hstrings⟩,
      fun raw hraw => ⟨List.infix_cons (hothers raw hraw).1, (hothers raw hraw).2⟩⟩
  fun_induction Arguments.split? depth s generalizing args with
  | case1 depth => cases h
  | case2 depth c rest hquote n =>
    rename_i ih
    obtain ⟨inner, hinner, rfl⟩ := Option.map_eq_some_iff.1 h
    obtain ⟨⟨hstart, hstrings⟩, hothers⟩ := ih hinner
    obtain ⟨hlength, hclosed⟩ := Arguments.closesQuote_of_split? hinner
    refine ⟨⟨?_, .string c _ _ hquote ?_ hclosed hstrings⟩, fun raw hraw => ⟨?_, (hothers raw hraw).2⟩⟩
    · rw [Arguments.prepend, List.cons_append, List.cons_prefix_cons]
      exact ⟨rfl, by simpa using (List.prefix_append_right_inj (rest.take n)).2 hstart⟩
    · simpa using quotedLength_append_of_closesQuote hquote hclosed hlength []
    · exact List.infix_cons ((hothers raw hraw).1.trans (List.drop_suffix n rest).isInfix)
  | case3 depth rest hquote ih =>
    obtain ⟨inner, hinner, rfl⟩ := Option.map_eq_some_iff.1 h
    exact hcons '(' (by decide) (ih hinner)
  | case4 rest hquote hopen =>
    obtain rfl := Option.some.inj h
    exact ⟨⟨List.nil_prefix, .nil⟩, by simp⟩
  | case5 rest outer hquote hopen ih =>
    obtain ⟨inner, hinner, rfl⟩ := Option.map_eq_some_iff.1 h
    exact hcons ')' (by decide) (ih hinner)
  | case6 depth c rest hquote hopen hclose hcomma ih =>
    obtain ⟨inner, hinner, rfl⟩ := Option.map_eq_some_iff.1 h
    obtain ⟨⟨hstart, hstrings⟩, hothers⟩ := ih hinner
    refine ⟨⟨List.nil_prefix, .nil⟩, fun raw hraw => ?_⟩
    rcases List.mem_cons.1 hraw with rfl | hraw
    · exact ⟨List.infix_cons hstart.isInfix, hstrings⟩
    · exact ⟨List.infix_cons (hothers raw hraw).1, (hothers raw hraw).2⟩
  | case7 depth c rest hquote hopen hclose hcomma ih =>
    obtain ⟨inner, hinner, rfl⟩ := Option.map_eq_some_iff.1 h
    exact hcons c (Bool.not_eq_true _ ▸ hquote) (ih hinner)

/-- Between blanks, what is quoted from start to end is a closed string. -/
theorem unquoted?_eq_some_iff (hstrings : StringsClosed (t ++ u)) (hu : ∀ c ∈ u, isBlank c = true) :
    unquoted? t = some inner ↔ ∃ quote, isQuote quote = true ∧ StringBody quote inner ∧ t = quote :: (inner ++ [quote]) := by
  constructor
  · intro h
    cases t with
    | nil => cases h
    | cons quote body =>
      simp only [unquoted?, Option.ite_none_right_eq_some, Bool.and_eq_true, decide_eq_true_eq, Option.some.injEq] at h
      obtain ⟨⟨⟨hquote, hlength⟩, hlast⟩, rfl⟩ := h
      generalize htext : quote :: body ++ u = text at hstrings
      cases hstrings with
      | nil => cases htext
      | char c s plain h =>
        rw [← (List.cons.inj htext).1, hquote] at plain
        cases plain
      | string quote' piece s opens length closed h =>
        obtain ⟨rfl, htail⟩ := List.cons.inj htext
        obtain ⟨inner, rfl, hinner⟩ := exists_stringBody_of_closesQuote length closed
        -- Behind the string there are blanks only, so it ends where the argument does.
        have hbody : body = inner ++ [quote] := by
          rcases List.append_eq_append_iff.1 htail with ⟨x, hpiece, hx⟩ | ⟨x, rfl, -⟩
          · rcases List.eq_nil_or_concat x with rfl | ⟨x, d, rfl⟩
            · simpa using hpiece.symm
            · rw [List.concat_eq_append, ← List.append_assoc] at hpiece
              obtain rfl : quote = d := List.singleton_inj.1 (List.append_inj_right' hpiece rfl)
              have hblank := hu quote (by simp [hx])
              rw [isBlank_of_isQuote hquote] at hblank
              cases hblank
          · rw [List.append_assoc, List.singleton_append, quotedLength_of_stringBody hquote hinner] at hlength
            obtain rfl : x = [] := by
              simp only [List.length_append, List.length_cons] at hlength
              exact List.length_eq_zero_iff.1 (by omega)
            exact List.append_nil _
        exact ⟨quote, hquote, by simpa [hbody] using hinner, by simp [hbody]⟩
  · rintro ⟨quote, hquote, hbody, rfl⟩
    have hlength := quotedLength_of_stringBody hquote hbody []
    simp [unquoted?, hquote, hlength]

/-! ## Shapes -/

theorem exists_dropTilde (s : List Char) : ∃ tilde, (tilde = [] ∨ tilde = ['~']) ∧ s = tilde ++ dropTilde s := by
  unfold dropTilde
  split
  · exact ⟨['~'], .inr rfl, rfl⟩
  · exact ⟨[], .inl rfl, rfl⟩

theorem isBare_iff : isBare c = true ↔ isIdent c = true ∨ c ∈ ['.', '/', '+'] := by
  simp [isBare, or_assoc]

theorem dropTilde_append {tilde : List Char} (htilde : tilde = [] ∨ tilde = ['~']) (hquote : isQuote quote = true)
    (rest : List Char) : dropTilde (tilde ++ quote :: rest) = quote :: rest := by
  rcases htilde with rfl | rfl
  · rw [List.nil_append, dropTilde]
    rintro tail heq
    rw [(List.cons.inj heq).1] at hquote
    cases hquote
  · rfl

theorem unquoted?_dropTilde_of_isBare (h : ∀ c ∈ s, isBare c = true) : unquoted? (dropTilde s) = none := by
  have hmem : ∀ c ∈ dropTilde s, isBare c = true := by
    obtain ⟨tilde, -, hs⟩ := exists_dropTilde s
    exact fun c hc => h c (hs ▸ List.mem_append_right tilde hc)
  cases hs : dropTilde s with
  | nil => rfl
  | cons quote body =>
    have hquote : isQuote quote = false := by
      rw [Bool.eq_false_iff]
      intro hquote
      have hbare := hmem quote (hs ▸ List.mem_cons_self)
      simp only [isQuote, Bool.or_eq_true, decide_eq_true_eq] at hquote
      rcases hquote with rfl | rfl <;> cases hbare
    simp [unquoted?, hquote]

namespace Reference

open Argument

/-- An argument that is not blank names a path or is dynamic. -/
theorem exists_pathOf_classify (h : trim s ≠ []) : ∃ path, pathOf (classify s) = .ok path := by
  rw [classify, if_neg h]
  split
  · split
    · exact ⟨_, rfl⟩
    · exact ⟨_, rfl⟩
  · split_ifs
    · exact ⟨_, rfl⟩
    · exact ⟨_, rfl⟩
    · exact ⟨_, rfl⟩

theorem pathOf_classify_of_static {path : List Char} (h : StaticPath (trim s) path) :
    pathOf (classify s) = .ok (.literal (String.ofList path)) := by
  rw [classify]
  generalize trim s = t at h
  cases h with
  | string tilde quote path escaped opens body literal =>
    have hunquoted : unquoted? (quote :: (path ++ [quote])) = some path := by
      have hlength := quotedLength_of_stringBody opens body []
      simp [unquoted?, opens, hlength]
    have hnot : hasInterpolation path = false := Bool.eq_false_iff.2 fun hhas => literal (hasInterpolation_iff.1 hhas)
    simp only [dropTilde_append escaped opens, hunquoted, hnot]
    rw [if_neg (by simp)]
    rfl
  | token path ne_nil bare unsigned =>
    have hbare : ∀ c ∈ path, isBare c = true := fun c hc => isBare_iff.2 (bare c hc)
    have hsigil : path.head?.any isSigil = false := by
      obtain ⟨c, path, rfl⟩ := List.exists_cons_of_ne_nil ne_nil
      rw [List.head?_cons, Option.any_some, Bool.eq_false_iff]
      intro hsigil
      have hc := hbare c List.mem_cons_self
      simp only [isSigil, Bool.or_eq_true, decide_eq_true_eq] at hsigil
      rcases hsigil with rfl | rfl <;> cases hc
    simp only [ne_nil, if_false, unquoted?_dropTilde_of_isBare hbare, hsigil, Bool.false_and, Bool.false_eq_true]
    rw [if_pos (by simpa [unsigned] using hbare)]
    rfl

theorem static_of_pathOf_classify (hstrings : StringsClosed s) {path : String}
    (h : pathOf (classify s) = .ok (.literal path)) : StaticPath (trim s) path.toList := by
  obtain ⟨lead, trail, hs, hlead, htrail⟩ := exists_trim s
  obtain ⟨tilde, htilde, htrim⟩ := exists_dropTilde (trim s)
  have hrest : StringsClosed (dropTilde (trim s) ++ trail) := by
    have hquote : ∀ c ∈ lead ++ tilde, isQuote c = false := by
      intro c hc
      rw [Bool.eq_false_iff]
      intro hquote
      rcases List.mem_append.1 hc with hc | hc
      · have hblank := hlead c hc
        rw [isBlank_of_isQuote hquote] at hblank
        cases hblank
      · rcases htilde with rfl | rfl
        · cases hc
        · rw [List.mem_singleton.1 hc] at hquote
          cases hquote
    refine StringsClosed.of_append hquote ?_
    rwa [List.append_assoc, ← List.append_assoc tilde, ← htrim, ← List.append_assoc, ← hs]
  rw [classify] at h
  split at h
  · cases h
  · split at h
    · rename_i inner hunquoted
      obtain ⟨quote, hquote, hbody, hstring⟩ := (unquoted?_eq_some_iff hrest htrail).1 hunquoted
      split_ifs at h with hhas
      · cases h
      · obtain rfl : String.ofList inner = path := by simpa [pathOf] using h
        rw [htrim, hstring, String.toList_ofList]
        exact .string tilde quote inner htilde hquote hbody fun hwithin => hhas (hasInterpolation_iff.2 hwithin)
    · split_ifs at h with hsigil hbare
      · cases h
      · obtain rfl : String.ofList (trim s) = path := by simpa [pathOf] using h
        rw [Bool.and_eq_true, List.all_eq_true, decide_eq_true_eq] at hbare
        rw [String.toList_ofList]
        exact .token (trim s) ‹_› (fun c hc => isBare_iff.1 (hbare.1 c hc)) hbare.2
      · cases h

/-- An argument of a call names a path if it is a string without interpolation or a token, and then that path. -/
theorem pathOf_classify_eq_literal_iff (hstrings : StringsClosed s) {path : String} :
    pathOf (classify s) = .ok (.literal path) ↔ StaticPath (trim s) path.toList := by
  refine ⟨static_of_pathOf_classify hstrings, fun h => ?_⟩
  rw [pathOf_classify_of_static h, String.ofList_toList]

/-! ## Calls -/

theorem text?_classify_eq_none_iff : (classify s).text? = none ↔ trim s = [] := by
  constructor
  · intro h
    by_contra hne
    rw [classify, if_neg hne] at h
    split at h
    · split at h <;> cases h
    · split_ifs at h <;> cases h
  · intro h
    rw [classify, if_pos h]
    rfl

theorem trim_ne_nil_of_pathOf {path : ReferencePath} (h : pathOf (classify s) = .ok path) : trim s ≠ [] := by
  intro hblank
  rw [classify, if_pos hblank] at h
  cases h

/-- The arguments of a call make a reference if there are one or two of them and none is blank. -/
theorem exists_ofArguments_iff {raw : List (List Char)} {path : ReferencePath} :
    (∃ r, ofArguments line (shapes raw) = .ok r ∧ r.path = path) ↔
      ∃ argument, (raw = [argument] ∨ ∃ mime, raw = [mime, argument]) ∧ (∀ s ∈ raw, trim s ≠ []) ∧
        pathOf (classify argument) = .ok path := by
  have hfault : ∀ fault : CallFault, ¬ ∃ r : Reference, Except.error fault = .ok r ∧ r.path = path := by
    rintro fault ⟨r, hr, -⟩
    cases hr
  have hpath : ∀ (s : List Char) (mime : Option String),
      (∃ r, (do return ⟨← pathOf (classify s), mime, line⟩ : Except CallFault Reference) = .ok r ∧ r.path = path) ↔
        pathOf (classify s) = .ok path := by
    intro s mime
    cases pathOf (classify s) with
    | error fault => exact iff_of_false (hfault fault) (by simp)
    | ok p =>
      constructor
      · rintro ⟨r, hr, rfl⟩
        cases hr
        rfl
      · intro heq
        exact ⟨_, rfl, Except.ok.inj heq⟩
  rcases raw with _ | ⟨a, _ | ⟨b, _ | ⟨c, more⟩⟩⟩
  · exact iff_of_false (hfault _) (by simp)
  · rw [shapes]
    by_cases hblank : trim a = []
    · rw [if_pos hblank]
      exact iff_of_false (hfault _) (by simp [hblank])
    · rw [if_neg hblank, ofArguments, hpath]
      simp [hblank]
  · rw [shapes, List.map_cons, List.map_singleton, ofArguments]
    · cases hmime : (classify a).text? with
      | none =>
        have hblank := text?_classify_eq_none_iff.1 hmime
        exact iff_of_false (hfault _) (by simp [hblank])
      | some text =>
        have hne : trim a ≠ [] := fun hblank => by
          rw [text?_classify_eq_none_iff.2 hblank] at hmime
          cases hmime
        dsimp only
        rw [hpath]
        constructor
        · intro h
          exact ⟨b, .inr ⟨a, rfl⟩, by simpa [hne] using trim_ne_nil_of_pathOf h, h⟩
        · rintro ⟨argument, hargs, -, h⟩
          simp at hargs
          rwa [hargs]
    · simp
  · exact iff_of_false (hfault _) (by simp)

/-- A call makes a reference to what its path argument says, if it has one. -/
theorem exists_ofOccurrence_iff {path : ReferencePath} : (∃ r, ofOccurrence o = .ok r ∧ r.path = path) ↔
    ∃ argument, o.HasPath argument ∧ pathOf (classify argument) = .ok path := by
  unfold ofOccurrence Occurrence.HasPath
  cases Arguments.split? 0 o.rest with
  | none => exact iff_of_false (by rintro ⟨r, hr, -⟩; cases hr) (by simp)
  | some args =>
    have hok : ∀ r, ((ofArguments o.line (shapes args.toList)).mapError fun fault => (⟨o.line, fault⟩ : MalformedCall)) =
        .ok r ↔ ofArguments o.line (shapes args.toList) = .ok r := by
      intro r
      cases ofArguments o.line (shapes args.toList) <;> simp [Except.mapError]
    simp only [hok, exists_ofArguments_iff, Option.some.injEq, exists_eq_left', and_assoc]

end Reference

/-! ## Static and dynamic calls -/

theorem suffix_of_mem_find {k : Keyword} (h : o ∈ k.find s) : o.rest <:+ s := by
  have hoccurrences : ∀ (lexemes : List Lexeme) (line : Nat) (text : List Char),
      o ∈ Keyword.occurrences line text lexemes → o.rest <:+ text := by
    intro lexemes
    induction lexemes with
    | nil => simp [Keyword.occurrences]
    | cons l lexemes ih =>
      intro line text ho
      have hdrop := List.drop_suffix l.text.length text
      rw [Keyword.occurrences] at ho
      split at ho
      · rcases List.mem_cons.1 ho with rfl | ho
        · exact hdrop
        · exact (ih _ _ ho).trans hdrop
      · exact (ih _ _ ho).trans hdrop
  exact hoccurrences _ _ _ h

theorem StaticPath.isInfix {path : List Char} (h : StaticPath s path) : path <:+: s := by
  cases h with
  | string tilde quote path escaped opens body literal => exact ⟨tilde ++ [quote], [quote], by simp⟩
  | token path ne_nil bare unsigned => exact List.infix_rfl

theorem StaticPath.not_interpolated {path : List Char} (h : StaticPath s path) : ¬ ['@', '{'] <:+: path := by
  cases h with
  | string tilde quote path escaped opens body literal => exact literal
  | token path ne_nil bare unsigned =>
    intro hwithin
    rcases bare '@' (hwithin.subset List.mem_cons_self) with hident | hmem
    · cases hident
    · simp at hmem

namespace Occurrence.HasPath

variable {argument : List Char} (h : o.HasPath argument)
include h

theorem exists_args : ∃ args, Arguments.split? 0 o.rest = some args ∧ argument ∈ args.toList ∧ trim argument ≠ [] := by
  obtain ⟨args, hsplit, hargs, hblank⟩ := h
  have hmem : argument ∈ args.toList := by
    rcases hargs with hargs | ⟨mime, hargs⟩ <;> simp [hargs]
  exact ⟨args, hsplit, hmem, hblank argument hmem⟩

theorem isInfix : argument <:+: o.rest := by
  obtain ⟨args, hsplit, hmem, -⟩ := h.exists_args
  obtain ⟨⟨hstart, -⟩, hothers⟩ := split?_spec hsplit
  rcases List.mem_cons.1 hmem with rfl | hmem
  · exact hstart.isInfix
  · exact (hothers argument hmem).1

theorem stringsClosed : StringsClosed argument := by
  obtain ⟨args, hsplit, hmem, -⟩ := h.exists_args
  obtain ⟨⟨-, hstrings⟩, hothers⟩ := split?_spec hsplit
  rcases List.mem_cons.1 hmem with rfl | hmem
  · exact hstrings
  · exact (hothers argument hmem).2

end Occurrence.HasPath

namespace Reference

/-- A literal path is named by the path argument of the call. -/
theorem exists_static_of_ofOccurrence {r : Reference} {path : String} (h : ofOccurrence o = .ok r)
    (hpath : r.path = .literal path) : ∃ argument, o.HasPath argument ∧ StaticPath (trim argument) path.toList := by
  obtain ⟨argument, hargument, hclassify⟩ := exists_ofOccurrence_iff.1 ⟨r, h, hpath⟩
  exact ⟨argument, hargument, (pathOf_classify_eq_literal_iff hargument.stringsClosed).1 hclassify⟩

/-- The dynamic calls are those whose reference is to no literal path. -/
theorem isDynamic_iff : o.IsDynamic ↔ ∃ r text, ofOccurrence o = .ok r ∧ r.path = .dynamic text := by
  constructor
  · rintro ⟨argument, hargument, hdynamic⟩
    obtain ⟨-, -, -, hblank⟩ := hargument.exists_args
    obtain ⟨path, hpath⟩ := exists_pathOf_classify hblank
    obtain ⟨r, hr, rfl⟩ := exists_ofOccurrence_iff.2 ⟨argument, hargument, hpath⟩
    cases hr' : r.path with
    | literal path =>
      rw [hr'] at hpath
      exact absurd ((pathOf_classify_eq_literal_iff hargument.stringsClosed).1 hpath) (hdynamic _)
    | dynamic text => exact ⟨r, text, hr, hr'⟩
  · rintro ⟨r, text, hr, hpath⟩
    obtain ⟨argument, hargument, hclassify⟩ := exists_ofOccurrence_iff.1 ⟨r, hr, hpath⟩
    refine ⟨argument, hargument, fun path hstatic => ?_⟩
    rw [pathOf_classify_of_static hstatic] at hclassify
    cases hclassify

end Reference

end StyleTrack.Source
