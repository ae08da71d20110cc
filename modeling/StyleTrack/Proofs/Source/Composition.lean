/-
A scan is compositional: behind a text that closes what it opens and whose calls are well formed, more text on a new
line is scanned as it is on its own, with its lines counted on, and does not change what is found before it.
-/
import StyleTrack.Proofs.Source.Code
import StyleTrack.Proofs.Source.Call
import Mathlib

namespace StyleTrack.Source

open StyleTrack.Text

/-! ## Lexemes of joined texts -/

/-- The lexemes of a text, with blanks in place of comments. -/
def codeOf (text : List Char) : List Lexeme := (segment commentStep none text).flatMap Lexeme.code

variable {before before' : Option Char} {c : Char} {s t rest : List Char} {k : Keyword} {line n : Nat}
  {lexemes : List Lexeme}

theorem segment_stripComments : segment opaqueStep none (stripComments s) = codeOf s := segment_stripAfter (.inl rfl)

theorem written_codeOf : written (codeOf s) = stripComments s := written_code none s

theorem Keyword.find_stripComments (hk : k.IsPlain) : k.find (stripComments s) = k.inCode 1 none (codeOf s) := by
  rw [← segment_stripComments]
  exact findAfter_eq_inCode hk

/-- A stripped text has the lines of the text. -/
theorem count_stripComments : (stripComments s).count '\n' = s.count '\n' := by
  change (stripAfter none s).count '\n' = _
  generalize none = before
  induction before, s using bounded_commentStep.induction with
  | nil before => simp [stripAfter, segment]
  | cons before c body rest kind hstep ih =>
    rw [stripAfter_lexeme hstep, List.count_append, count_stripped, ih, List.count_append]

theorem segment_commentStep_of_startsAlike (h : StartsAlike before before' s) :
    segment commentStep before s = segment commentStep before' s := by
  cases s with
  | nil => rw [segment, segment]
  | cons c s =>
    have hstep : commentStep before c s = commentStep before' c s := by
      unfold commentStep urlStep
      rw [opensUrl_eq h]
    rw [segment, segment, hstep]

theorem codeOf_append_newline (h : IsClosed s) (t : List Char) :
    codeOf (s ++ '\n' :: t) = codeOf s ++ .single '\n' :: codeOf t := by
  have hstep : commentStep (lastOf none s) '\n' ([] ++ t) = (.plain, ([] : List Char).length) := rfl
  have hbehind : segment commentStep (lastOf none s) ('\n' :: t) = .single '\n' :: segment commentStep none t := by
    have hfirst := segment_append_of_step hstep
    rw [List.singleton_append] at hfirst
    have halike : StartsAlike (lastOf (lastOf none s) ['\n']) none t := .inl (by rw [lastOf_cons]; rfl)
    rw [hfirst, segment_commentStep_of_startsAlike halike]
    rfl
  rw [codeOf, segment_append_newline h, hbehind, List.flatMap_append, List.flatMap_cons]
  rfl

/-! ## Keywords in joined texts -/

/-- An occurrence some lines further down. -/
def Occurrence.shift (n : Nat) (o : Occurrence) : Occurrence := { o with line := o.line + n }

/-- An occurrence in a text with some more behind it. -/
def Occurrence.extend (tail : List Char) (o : Occurrence) : Occurrence := { o with rest := o.rest ++ tail }

namespace Keyword

theorem inCode_shift : k.inCode (line + n) before lexemes = (k.inCode line before lexemes).map (.shift n) := by
  induction lexemes generalizing line before with
  | nil => rfl
  | cons l lexemes ih =>
    rw [inCode, inCode, Nat.add_right_comm, ih]
    split <;> rfl

/-- It does not matter to a keyword whether a text starts behind a character that it may follow or at all. -/
theorem inCode_of_follows (h : k.follows c = true) : k.inCode line (some c) lexemes = k.inCode line none lexemes := by
  induction lexemes generalizing line with
  | nil => rfl
  | cons l lexemes ih =>
    have hlater : ∀ line, k.inCode line (lastOf (some c) l.text) lexemes =
        k.inCode line (lastOf none l.text) lexemes := by
      intro line
      cases l.text with
      | nil => exact ih
      | cons d text => rw [lastOf_cons, lastOf_cons]
    rw [inCode, inCode, hlater, Option.all_some, h]
    rfl

variable (hk : k.IsPlain)
include hk

theorem inCode_append_newline (more : List Lexeme) : k.inCode line before (lexemes ++ .single '\n' :: more) =
    (k.inCode line before lexemes).map (.extend ('\n' :: written more)) ++
      k.inCode (line + (written lexemes).count '\n' + 1) (some '\n') more := by
  -- No keyword goes across the line feed.
  have hstarts : ∀ text, startsWord k.word (text ++ '\n' :: written more) = startsWord k.word text := fun text =>
    startsWord_append_cons hk.newline_notMem (by decide) text _
  induction lexemes generalizing line before with
  | nil =>
    have hnone : startsWord k.word ('\n' :: written more) = false := by
      obtain ⟨d, w, hword⟩ := List.exists_cons_of_ne_nil hk.word_ne
      rw [← List.nil_append ('\n' :: written more), hstarts, hword, startsWord]
    rw [List.nil_append, inCode_cons_of_not (Bool.and_eq_false_iff.2 (.inl hnone))]
    rfl
  | cons l lexemes ih =>
    have hwritten : l.text ++ written (lexemes ++ .single '\n' :: more) =
        l.text ++ written lexemes ++ '\n' :: written more := by simp [written, Lexeme.single]
    have hline : (written (l :: lexemes)).count '\n' = l.text.count '\n' + (written lexemes).count '\n' := by
      simp [written]
    rw [List.cons_append, inCode, inCode, hwritten, hstarts, ih, hline, Nat.add_assoc line]
    split
    · rename_i hfound
      have hlength : k.word.length ≤ (l.text ++ written lexemes).length :=
        length_le_of_startsWord (Bool.and_eq_true_iff.1 (Bool.and_eq_true_iff.1 hfound).1).2
      rw [List.drop_append_of_le_length hlength]
      rfl
    · rfl

theorem find_append_newline (hfollows : k.follows '\n' = true) (h : IsClosed s) (t : List Char) :
    k.find (stripComments (s ++ '\n' :: t)) = (k.find (stripComments s)).map (.extend ('\n' :: stripComments t)) ++
      (k.find (stripComments t)).map (.shift (1 + s.count '\n')) := by
  rw [find_stripComments hk, find_stripComments hk, find_stripComments hk, codeOf_append_newline h,
    inCode_append_newline hk, inCode_of_follows hfollows, written_codeOf, written_codeOf, count_stripComments,
    Nat.add_assoc, Nat.add_comm (s.count '\n'), inCode_shift]

end Keyword

/-! ## Calls in joined texts -/

/-- Arguments in a text with some more behind it. -/
def Arguments.extend (tail : List Char) (a : Arguments) : Arguments := { a with rest := a.rest ++ tail }

theorem Arguments.split?_cons (depth : Nat) (c : Char) (rest : List Char) : split? depth (c :: rest) =
    if isQuote c then
      (split? depth (rest.drop (quotedLength c rest))).map (prepend (c :: rest.take (quotedLength c rest)))
    else if c = '(' then (split? (depth + 1) rest).map (prepend [c])
    else if c = ')' then
      match depth with
      | 0 => some ⟨[], [], rest⟩
      | outer + 1 => (split? outer rest).map (prepend [c])
    else if c = ',' && depth = 0 then (split? 0 rest).map fun a => ⟨[], a.toList, a.rest⟩
    else (split? depth rest).map (prepend [c]) := split?.eq_def depth (c :: rest)

/-- Where the arguments go on behind a string, the string is closed. -/
theorem Arguments.closesQuote_of_split? {depth : Nat} {args : Arguments}
    (h : split? depth (rest.drop (quotedLength c rest)) = some args) :
    quotedLength c (rest.take (quotedLength c rest) ++ rest.drop (quotedLength c rest)) =
        (rest.take (quotedLength c rest)).length ∧
      closesQuote c (rest.take (quotedLength c rest)) = true := by
  have hlength : quotedLength c (rest.take (quotedLength c rest) ++ rest.drop (quotedLength c rest)) =
      (rest.take (quotedLength c rest)).length := by
    rw [List.take_append_drop, List.length_take_of_le (quotedLength_le c rest)]
  refine ⟨hlength, (closesQuote_or_eq_nil hlength).resolve_right fun hnil => ?_⟩
  rw [hnil, split?] at h
  cases h

/-- A call that is closed has its arguments, whatever follows the text. -/
theorem Arguments.split?_append {depth : Nat} {args : Arguments} (h : split? depth s = some args) (t : List Char) :
    split? depth (s ++ t) = some (args.extend t) := by
  fun_induction split? depth s generalizing args with
  | case1 depth => cases h
  | case2 depth c rest hquote n =>
    rename_i ih
    obtain ⟨inner, hinner, rfl⟩ := Option.map_eq_some_iff.1 h
    obtain ⟨hlength, hclosed⟩ := closesQuote_of_split? hinner
    have hstring := quotedLength_append_of_closesQuote hquote hclosed hlength (rest.drop n ++ t)
    have htext : rest ++ t = rest.take n ++ (rest.drop n ++ t) := by rw [← List.append_assoc, List.take_append_drop]
    rw [List.cons_append, htext, split?_cons, if_pos hquote, hstring, List.drop_left, List.take_left, ih hinner]
    rfl
  | case3 depth rest hquote ih =>
    obtain ⟨inner, hinner, rfl⟩ := Option.map_eq_some_iff.1 h
    rw [List.cons_append, split?_cons, if_neg hquote, if_pos rfl, ih hinner]
    rfl
  | case4 rest hquote hopen =>
    obtain rfl := Option.some.inj h
    rw [List.cons_append, split?_cons, if_neg hquote, if_neg hopen, if_pos rfl]
    rfl
  | case5 rest outer hquote hopen ih =>
    obtain ⟨inner, hinner, rfl⟩ := Option.map_eq_some_iff.1 h
    rw [List.cons_append, split?_cons, if_neg hquote, if_neg hopen, if_pos rfl]
    dsimp only
    rw [ih hinner]
    rfl
  | case6 depth c rest hquote hopen hclose hcomma ih =>
    obtain ⟨inner, hinner, rfl⟩ := Option.map_eq_some_iff.1 h
    rw [List.cons_append, split?_cons, if_neg hquote, if_neg hopen, if_neg hclose, if_pos hcomma, ih hinner]
    rfl
  | case7 depth c rest hquote hopen hclose hcomma ih =>
    obtain ⟨inner, hinner, rfl⟩ := Option.map_eq_some_iff.1 h
    rw [List.cons_append, split?_cons, if_neg hquote, if_neg hopen, if_neg hclose, if_neg hcomma, ih hinner]
    rfl

def Reference.shift (n : Nat) (r : Reference) : Reference := { r with line := r.line + n }

def MalformedCall.shift (n : Nat) (m : MalformedCall) : MalformedCall := { m with line := m.line + n }

namespace Reference

variable {o : Occurrence} {r : Reference}

theorem ofOccurrence_extend (h : ofOccurrence o = .ok r) (t : List Char) : ofOccurrence (o.extend t) = .ok r := by
  unfold ofOccurrence at h ⊢
  split at h
  · cases h
  · rename_i args hsplit
    rw [Occurrence.extend, Arguments.split?_append hsplit]
    exact h

theorem ofArguments_shift (line n : Nat) (args : List Argument) :
    ofArguments (line + n) args = (ofArguments line args).map (.shift n) := by
  unfold ofArguments
  split
  · rename_i path
    cases pathOf path <;> rfl
  · rename_i mime path
    cases mime.text? with
    | none => rfl
    | some m => cases pathOf path <;> rfl
  · rfl

theorem ofOccurrence_shift (n : Nat) (o : Occurrence) :
    ofOccurrence (o.shift n) = ((ofOccurrence o).map (.shift n)).mapError (.shift n) := by
  unfold ofOccurrence Occurrence.shift
  dsimp only
  cases Arguments.split? 0 o.rest with
  | none => rfl
  | some args =>
    simp only [ofArguments_shift]
    cases ofArguments o.line (shapes args.toList) <;> rfl

/-- Occurrences that all make references make the same ones in a longer text. -/
theorem mapM_extend {os : List Occurrence} {rs : List Reference} (h : os.mapM ofOccurrence = .ok rs) (t : List Char) :
    (os.map (.extend t)).mapM ofOccurrence = .ok rs := by
  induction os generalizing rs with
  | nil => exact h
  | cons o os ih =>
    rw [List.mapM_cons] at h
    rw [List.map_cons, List.mapM_cons]
    cases hfirst : ofOccurrence o with
    | error m =>
      rw [hfirst] at h
      cases h
    | ok r =>
      cases hlater : os.mapM ofOccurrence with
      | error m =>
        rw [hfirst, hlater] at h
        cases h
      | ok rs' =>
        rw [ofOccurrence_extend hfirst, ih hlater]
        rw [hfirst, hlater] at h
        exact h

theorem mapM_shift (n : Nat) (os : List Occurrence) : (os.map (.shift n)).mapM ofOccurrence =
    ((os.mapM ofOccurrence).map (List.map (.shift n))).mapError (.shift n) := by
  induction os with
  | nil => rfl
  | cons o os ih =>
    rw [List.map_cons, List.mapM_cons, List.mapM_cons, ih, ofOccurrence_shift]
    cases ofOccurrence o with
    | error m => rfl
    | ok r => cases os.mapM ofOccurrence <;> rfl

/-- Behind a text that is closed and scanned without a fault, a text on a new line is scanned as it is on its own. -/
theorem scan_append_newline {a b : List Char} {found : List Reference} (hclosed : IsClosed a)
    (hscan : scan a = .ok found) : scan (a ++ '\n' :: b) = match scan b with
      | .ok more => .ok (found ++ more.map (.shift (1 + a.count '\n')))
      | .error m => .error (m.shift (1 + a.count '\n')) := by
  have hfind := Keyword.find_append_newline isPlain_referenceKeyword (by decide) hclosed b
  unfold scan at hscan ⊢
  rw [hfind, List.mapM_append, mapM_extend hscan, mapM_shift]
  cases (keyword.find (stripComments b)).mapM ofOccurrence <;> rfl

theorem scan_append_newline_comment :
    IsClosed "data-uri(\"/*\"); /* ' */ url(//) // data-uri(".toList ∧
      scan "data-uri(\"/*\"); /* ' */ url(//) // data-uri(".toList = .ok [⟨.literal "/*", none, 1⟩] ∧
      scan ("data-uri(\"/*\"); /* ' */ url(//) // data-uri(".toList ++ '\n' :: "data-uri('b.png')".toList) =
        .ok [⟨.literal "/*", none, 1⟩, ⟨.literal "b.png", none, 2⟩] := by
  have hclosed : IsClosed "data-uri(\"/*\"); /* ' */ url(//) // data-uri(".toList := List.all_eq_true.1 (by cbv)
  have hscan : scan "data-uri(\"/*\"); /* ' */ url(//) // data-uri(".toList = .ok [⟨.literal "/*", none, 1⟩] := by cbv
  refine ⟨hclosed, hscan, ?_⟩
  rw [scan_append_newline hclosed hscan]
  cbv

end Reference

end StyleTrack.Source
