/-
What is written as a string reads back as the same text, in each of the forms, with whatever follows it. Over
several lines a text may end in quotes of its own: they stand in one row with the quotes that close it, and the
reader gives them back to the text.
-/
import StyleTrack.Toml.Line
import Mathlib.Tactic

namespace StyleTrack.Toml

/-- A character of a kind is none that is not of the kind. -/
theorem ne_of_kind {kind : Char → Bool} {c d : Char} (hc : kind c = true) (hd : kind d = false) : c ≠ d := by
  rintro rfl
  rw [hc] at hd
  cases hd

/-! ## Escapes -/

theorem newline_cons {c : Char} (hline : c ≠ '\n' ∧ c ≠ '\r') (rest : List Char) : newline (c :: rest) = none := by
  unfold newline
  split
  · rename_i heq
    exact absurd (List.cons.inj heq).1 hline.1
  · rename_i heq
    exact absurd (List.cons.inj heq).1 hline.2
  · rfl

theorem joinedLine?_cons {c : Char} (hblank : isLineBlank c = false) (hline : c ≠ '\n' ∧ c ≠ '\r') (rest : List Char) :
    joinedLine? (c :: rest) = none := by
  have hdrop : (c :: rest).dropWhile isLineBlank = c :: rest := List.dropWhile_cons_of_neg (by simp [hblank])
  rw [joinedLine?, hdrop, newline_cons hline]

theorem isControl_lt {c : Char} (h : isControl c = true) : c.toNat < 128 := by
  simp only [isControl, Bool.or_eq_true, Bool.and_eq_true, decide_eq_true_eq] at h
  rcases h with ⟨h, -⟩ | h
  · have hlt : c.toNat < ' '.toNat := h
    have hspace : ' '.toNat = 32 := rfl
    omega
  · rw [h]
    decide

/-- The digits of an escape name the character. -/
theorem unicodeEscape?_digits {c : Char} (h : isControl c = true) (rest : List Char) :
    unicodeEscape? 4 ('0' :: '0' :: upperHexDigit (c.toNat / 16) :: upperHexDigit c.toNat :: rest) = some c := by
  have hall : ∀ n < 128, (hexNumber? 0 ['0', '0', upperHexDigit (n / 16), upperHexDigit n]).bind charOf? =
      some (Char.ofNat n) := by decide
  have hc := hall c.toNat (isControl_lt h)
  rw [Char.ofNat_toNat] at hc
  exact hc

/-- Whether some characters, behind a backslash, stand for a character. -/
def Escapes (w : List Char) (c : Char) : Prop :=
  ∀ rest, escape? (w ++ rest) = some (c, w.length) ∧ joinedLine? (w ++ rest) = none

theorem escapes_of_first {x : Char} {w : List Char} {c : Char} (hblank : isLineBlank x = false)
    (hline : x ≠ '\n' ∧ x ≠ '\r') (h : ∀ rest, escape? (x :: w ++ rest) = some (c, w.length + 1)) : Escapes (x :: w) c :=
  fun rest => ⟨h rest, joinedLine?_cons hblank hline (w ++ rest)⟩

theorem escapes_quote : Escapes ['"'] '"' := escapes_of_first (by decide) (by decide) fun _ => rfl

/-- A character is written as itself or as an escape. -/
theorem escaped_cases (multiline : Bool) {c : Char} (hquote : c ≠ '"') :
    (∃ w, escaped multiline c = '\\' :: w ∧ Escapes w c) ∨ (escaped multiline c = [c] ∧ isBasic c = true) ∨
      (escaped multiline c = [c] ∧ multiline = true ∧ c = '\n') := by
  unfold escaped
  split_ifs with h1 h2 h3 h4 h5 h6 h7 h8
  · exact .inl ⟨_, rfl, escapes_of_first (by decide) (by decide) fun _ => by rw [h1]; rfl⟩
  · exact .inl ⟨_, rfl, escapes_of_first (by decide) (by decide) fun _ => by rw [h2]; rfl⟩
  · exact .inr (.inr ⟨by rw [h3], h4, h3⟩)
  · exact .inl ⟨_, rfl, escapes_of_first (by decide) (by decide) fun _ => by rw [h3]; rfl⟩
  · exact .inl ⟨_, rfl, escapes_of_first (by decide) (by decide) fun _ => by rw [h5]; rfl⟩
  · exact .inl ⟨_, rfl, escapes_of_first (by decide) (by decide) fun _ => by rw [h6]; rfl⟩
  · exact .inl ⟨_, rfl, escapes_of_first (by decide) (by decide) fun _ => by rw [h7]; rfl⟩
  · refine .inl ⟨_, rfl, escapes_of_first (by decide) (by decide) fun rest => ?_⟩
    have hdigits := unicodeEscape?_digits h8 rest
    show (unicodeEscape? 4 ('0' :: '0' :: upperHexDigit (c.toNat / 16) :: upperHexDigit c.toNat :: rest)).map
      (fun c => (c, 5)) = _
    rw [hdigits]
    rfl
  · exact .inr (.inl ⟨rfl, by simp [isBasic, h8, hquote, h7]⟩)

/-! ## Between double quotes -/

theorem basicBody_close (rest : List Char) : basicBody ('"' :: rest) = some ([], rest) := by
  rw [basicBody]
  rfl

theorem basicBody_escape {w : List Char} {c : Char} (h : Escapes w c) (rest : List Char) :
    basicBody ('\\' :: (w ++ rest)) = (basicBody rest).map (consRead c) := by
  rw [basicBody, if_neg (by decide), if_pos rfl, (h rest).1]
  dsimp only
  rw [List.drop_left]

theorem basicBody_plain {c : Char} (h : isBasic c = true) (rest : List Char) :
    basicBody (c :: rest) = (basicBody rest).map (consRead c) := by
  have hne : c ≠ '"' ∧ c ≠ '\\' := by
    simp only [isBasic, Bool.and_eq_true, decide_eq_true_eq] at h
    exact ⟨h.1.2, h.2⟩
  rw [basicBody, if_neg hne.1, if_neg hne.2, if_pos h]

theorem basicBody_escapedFrom (s : List Char) (run : Nat) (rest : List Char) :
    basicBody (escapedFrom false run s ++ '"' :: rest) = some (s, rest) := by
  induction s generalizing run with
  | nil => exact basicBody_close rest
  | cons c s ih =>
    rw [escapedFrom]
    by_cases hquote : c = '"'
    · subst hquote
      rw [if_pos rfl]
      show basicBody ('\\' :: (['"'] ++ (escapedFrom false 0 s ++ '"' :: rest))) = _
      rw [basicBody_escape escapes_quote, ih]
      rfl
    · rw [if_neg hquote, List.append_assoc]
      rcases escaped_cases false hquote with ⟨w, hw, hescapes⟩ | ⟨hself, hbasic⟩ | ⟨-, hfalse, -⟩
      · rw [hw, List.cons_append, basicBody_escape hescapes, ih]
        rfl
      · rw [hself, List.singleton_append, basicBody_plain hbasic, ih]
        rfl
      · cases hfalse

/-! ## Between single quotes -/

theorem literalBody_append {s : List Char} (h : ∀ c ∈ s, isLiteral c = true) (rest : List Char) :
    literalBody (s ++ '\'' :: rest) = some (s, rest) := by
  induction s with
  | nil => rfl
  | cons c s ih =>
    have hc := h c List.mem_cons_self
    have hne : c ≠ '\'' := ne_of_kind hc (by decide)
    rw [List.cons_append, literalBody, if_neg hne, if_pos hc, ih fun c' hc' => h c' (List.mem_cons_of_mem _ hc')]
    rfl

/-! ## Over several lines -/

/-- Quotes in a row, up to what comes after them. -/
theorem length_takeWhile_replicate {quote : Char} {rest : List Char} (h : rest.head? ≠ some quote) (run : Nat) :
    ((List.replicate run quote ++ rest).takeWhile (· = quote)).length = run := by
  induction run with
  | zero =>
    cases rest with
    | nil => rfl
    | cons c rest =>
      have hc : c ≠ quote := by simpa using h
      simp [hc]
  | succ run ih => simpa [List.replicate_succ] using ih

/-- The quotes that close a text, with those of its own in front. -/
theorem closing_replicate {quote : Char} {run : Nat} (hrun : run ≤ 2) (rest : List Char) :
    closing quote (run + 3) (List.replicate run quote ++ (List.replicate 3 quote ++ rest)) =
      (List.replicate run quote, rest) := by
  have hinside : min (run + 3 - 3) 2 = run := by omega
  unfold closing
  rw [hinside, ← List.append_assoc, List.replicate_append_replicate]
  simp

/-- Whether a reader of strings over several lines takes three or more quotes in a row as those that close the
string, and fewer as characters of it. -/
def TakesQuotes (quote : Char) (body : Text.Parser (List Char)) : Prop :=
  ∀ rest, body (quote :: rest) =
    if 3 ≤ ((quote :: rest).takeWhile (· = quote)).length then
      some (closing quote ((quote :: rest).takeWhile (· = quote)).length (quote :: rest))
    else (body rest).map (consRead quote)

theorem takesQuotes_multilineBasicBody : TakesQuotes '"' multilineBasicBody := by
  intro rest
  rw [multilineBasicBody, if_pos rfl]

theorem takesQuotes_multilineLiteralBody : TakesQuotes '\'' multilineLiteralBody := by
  intro rest
  rw [multilineLiteralBody, if_pos rfl]

theorem TakesQuotes.close {quote : Char} {body : Text.Parser (List Char)} (h : TakesQuotes quote body) {run : Nat}
    (hrun : run ≤ 2) {rest : List Char} (hrest : rest.head? ≠ some quote) :
    body (List.replicate run quote ++ (List.replicate 3 quote ++ rest)) = some (List.replicate run quote, rest) := by
  have hlength := length_takeWhile_replicate hrest (run + 3)
  rw [← List.replicate_append_replicate, List.append_assoc] at hlength
  obtain ⟨tail, htail⟩ : ∃ tail, List.replicate run quote ++ (List.replicate 3 quote ++ rest) = quote :: tail := by
    cases run <;> exact ⟨_, rfl⟩
  rw [htail] at hlength ⊢
  rw [h tail, hlength, if_pos (by omega), ← htail, closing_replicate hrun]

/-- A quote or two that something else comes after belong to the text. -/
theorem TakesQuotes.quotes {quote : Char} {body : Text.Parser (List Char)} (h : TakesQuotes quote body) {run : Nat}
    (hrun : run ≤ 2) {rest : List Char} (hrest : rest.head? ≠ some quote) :
    body (List.replicate run quote ++ rest) =
      (body rest).map fun read => (List.replicate run quote ++ read.1, read.2) := by
  induction run with
  | zero => simp
  | succ run ih =>
    have hlength := length_takeWhile_replicate hrest (run + 1)
    rw [List.replicate_succ, List.cons_append] at hlength ⊢
    rw [h, hlength, if_neg (by omega), ih (by omega), Option.map_map]
    rfl

theorem multilineBasicBody_escape {w : List Char} {c : Char} (h : Escapes w c) (rest : List Char) :
    multilineBasicBody ('\\' :: (w ++ rest)) = (multilineBasicBody rest).map (consRead c) := by
  rw [multilineBasicBody, if_neg (by decide), if_pos rfl]
  split
  · rename_i joined hjoined
    rw [(h rest).2] at hjoined
    cases hjoined
  · rw [(h rest).1]
    dsimp only
    rw [List.drop_left]

theorem multilineBasicBody_newline (rest : List Char) :
    multilineBasicBody ('\n' :: rest) = (multilineBasicBody rest).map (consRead '\n') := by
  rw [multilineBasicBody, if_neg (by decide), if_neg (by decide), if_pos rfl]

theorem isBasic_ne {c : Char} (h : isBasic c = true) : c ≠ '"' ∧ c ≠ '\\' ∧ c ≠ '\n' ∧ c ≠ '\r' :=
  ⟨ne_of_kind h (by decide), ne_of_kind h (by decide), ne_of_kind h (by decide), ne_of_kind h (by decide)⟩

theorem multilineBasicBody_plain {c : Char} (h : isBasic c = true) (rest : List Char) :
    multilineBasicBody (c :: rest) = (multilineBasicBody rest).map (consRead c) := by
  obtain ⟨h1, h2, h3, h4⟩ := isBasic_ne h
  rw [multilineBasicBody, if_neg h1, if_neg h2, if_neg h3, if_neg (by simp [h4]), if_pos h]

/-- One character, as it is written over several lines. -/
theorem multilineBasicBody_escaped {c : Char} (hquote : c ≠ '"') (rest : List Char) :
    multilineBasicBody (escaped true c ++ rest) = (multilineBasicBody rest).map (consRead c) ∧
      (escaped true c ++ rest).head? ≠ some '"' := by
  rcases escaped_cases true hquote with ⟨w, hw, hescapes⟩ | ⟨hself, hbasic⟩ | ⟨hself, -, rfl⟩
  · rw [hw]
    exact ⟨multilineBasicBody_escape hescapes rest, by simp⟩
  · rw [hself]
    exact ⟨multilineBasicBody_plain hbasic rest, by simpa using hquote⟩
  · rw [hself]
    exact ⟨multilineBasicBody_newline rest, by simp⟩

/-- The induction carries the quotes that stand in front unescaped: they are read together with the next ones. -/
theorem multilineBasicBody_escapedFrom {rest : List Char} (hrest : rest.head? ≠ some '"') (s : List Char) {run : Nat}
    (hrun : run ≤ 2) :
    multilineBasicBody (List.replicate run '"' ++ (escapedFrom true run s ++ (List.replicate 3 '"' ++ rest))) =
      some (List.replicate run '"' ++ s, rest) := by
  induction s generalizing run with
  | nil =>
    rw [escapedFrom, List.nil_append, List.append_nil]
    exact takesQuotes_multilineBasicBody.close hrun hrest
  | cons c s ih =>
    rw [escapedFrom]
    by_cases hquote : c = '"'
    · subst hquote
      rw [if_pos rfl]
      split_ifs with hmore
      · -- one more in the row
        have hlt : run < 2 := by simpa using hmore
        have hnext := @ih (run + 1) (by omega)
        rw [List.replicate_succ', List.append_assoc, List.append_assoc] at hnext
        exact hnext
      · have hescape := multilineBasicBody_escape escapes_quote (escapedFrom true 0 s ++ (List.replicate 3 '"' ++ rest))
        have hnext := @ih 0 (by omega)
        rw [List.replicate_zero, List.nil_append, List.nil_append] at hnext
        rw [List.cons_append, List.cons_append, takesQuotes_multilineBasicBody.quotes hrun (by simp)]
        exact (congrArg (Option.map _) hescape).trans (by rw [hnext]; rfl)
    · rw [if_neg hquote, List.append_assoc]
      obtain ⟨hread, hhead⟩ := multilineBasicBody_escaped hquote (escapedFrom true 0 s ++ (List.replicate 3 '"' ++ rest))
      have hnext := @ih 0 (by omega)
      rw [List.replicate_zero, List.nil_append, List.nil_append] at hnext
      rw [takesQuotes_multilineBasicBody.quotes hrun hhead, hread, hnext]
      rfl

theorem multilineLiteralBody_plain {c : Char} (h : isControl c = true → c = '\n') (hquote : c ≠ '\'') (rest : List Char) :
    multilineLiteralBody (c :: rest) = (multilineLiteralBody rest).map (consRead c) := by
  rw [multilineLiteralBody, if_neg hquote]
  by_cases hline : c = '\n'
  · rw [if_pos hline, hline]
  · have hreturn : c ≠ '\r' := by
      rintro rfl
      exact hline (h (by decide))
    have hliteral : isLiteral c = true := by
      have hcontrol : isControl c = false := by
        rw [← Bool.not_eq_true]
        exact fun hc => hline (h hc)
      simp [isLiteral, hcontrol, hquote]
    rw [if_neg hline, if_neg (by simp [hreturn]), if_pos hliteral]

theorem longestRun_cons_of_ne {quote c : Char} (hne : c ≠ quote) (run : Nat) (s : List Char) :
    longestRun quote run (c :: s) = max run (longestRun quote 0 s) := by
  rw [longestRun, if_neg hne]

theorem le_longestRun (quote : Char) (run : Nat) (s : List Char) : run ≤ longestRun quote run s := by
  induction s generalizing run with
  | nil => exact Nat.le_refl run
  | cons c s ih =>
    rw [longestRun]
    split_ifs
    · have hle := ih (run + 1)
      omega
    · exact Nat.le_max_left _ _

theorem multilineLiteralBody_append {rest : List Char} (hrest : rest.head? ≠ some '\'') (s : List Char) {run : Nat}
    (hplain : ∀ c ∈ s, isControl c = true → c = '\n') (hrun : longestRun '\'' run s ≤ 2) :
    multilineLiteralBody (List.replicate run '\'' ++ (s ++ (List.replicate 3 '\'' ++ rest))) =
      some (List.replicate run '\'' ++ s, rest) := by
  have hle := le_longestRun '\'' run s
  induction s generalizing run with
  | nil =>
    rw [List.nil_append, List.append_nil]
    exact takesQuotes_multilineLiteralBody.close (by omega) hrest
  | cons c s ih =>
    have hplain' : ∀ c ∈ s, isControl c = true → c = '\n' := fun c' hc' => hplain c' (List.mem_cons_of_mem _ hc')
    by_cases hquote : c = '\''
    · subst hquote
      rw [longestRun, if_pos rfl] at hrun
      have hnext := @ih (run + 1) hplain' hrun (le_longestRun _ _ _)
      rw [List.replicate_succ', List.append_assoc, List.append_assoc] at hnext
      exact hnext
    · rw [longestRun_cons_of_ne hquote] at hrun
      have hnext := @ih 0 hplain' (by omega) (Nat.zero_le _)
      rw [List.replicate_zero, List.nil_append, List.nil_append] at hnext
      rw [List.cons_append, takesQuotes_multilineLiteralBody.quotes (by omega) (by simpa using hquote),
        multilineLiteralBody_plain (hplain c List.mem_cons_self) hquote, hnext]
      rfl

/-! ## Every form -/

theorem string_basic {text : List Char} (h : ∀ rest, text ≠ '"' :: '"' :: rest) : string ('"' :: text) = basicBody text := by
  unfold string
  split
  · rename_i rest heq
    exact absurd (List.cons.inj heq).2 (h rest)
  · rename_i heq
    cases (List.cons.inj heq).1
  · rfl

theorem string_literal {text : List Char} (h : ∀ rest, text ≠ '\'' :: '\'' :: rest) :
    string ('\'' :: text) = literalBody text := by
  unfold string
  split
  · rename_i heq
    cases (List.cons.inj heq).1
  · rename_i rest heq
    exact absurd (List.cons.inj heq).2 (h rest)
  · rfl

theorem head?_escapedFrom {s : List Char} (hne : s ≠ []) (rest : List Char) :
    (escapedFrom false 0 s ++ rest).head? ≠ some '"' := by
  obtain ⟨c, s, rfl⟩ := List.exists_cons_of_ne_nil hne
  rw [escapedFrom]
  by_cases hquote : c = '"'
  · rw [if_pos hquote]
    simp
  · rw [if_neg hquote]
    rcases escaped_cases false hquote with ⟨w, hw, -⟩ | ⟨hself, -⟩ | ⟨-, hfalse, -⟩
    · simp [hw]
    · simpa [hself] using hquote
    · cases hfalse

theorem string_basicForm (s rest : List Char) : string (basicForm s ++ '\n' :: rest) = some (s, '\n' :: rest) := by
  have hform : basicForm s ++ '\n' :: rest = '"' :: (escapedFrom false 0 s ++ '"' :: '\n' :: rest) := by
    simp [basicForm]
  rw [hform, string_basic, basicBody_escapedFrom]
  intro tail heq
  by_cases hne : s = []
  · subst hne
    simp [escapedFrom] at heq
  · exact head?_escapedFrom hne _ (by rw [heq]; rfl)

theorem string_literalForm {s : List Char} (h : ∀ c ∈ s, isLiteral c = true) (rest : List Char) :
    string (literalForm s ++ '\n' :: rest) = some (s, '\n' :: rest) := by
  have hform : literalForm s ++ '\n' :: rest = '\'' :: (s ++ '\'' :: '\n' :: rest) := by
    simp [literalForm]
  rw [hform, string_literal, literalBody_append h]
  intro tail heq
  cases s with
  | nil => simp at heq
  | cons c s => exact ne_of_kind (h c List.mem_cons_self) (by decide) (List.cons.inj heq).1

/-- What stands behind three quotes is read without the line end in front of it. -/
theorem dropNewline_form {s body rest : List Char} (hbody : '\n' ∉ s → ∃ c tail, body ++ rest = c :: tail ∧ c ≠ '\n' ∧ c ≠ '\r') :
    dropNewline ((if s.contains '\n' then ['\n'] else []) ++ (body ++ rest)) = body ++ rest := by
  split_ifs with hline
  · rfl
  · obtain ⟨c, tail, heq, hc⟩ := hbody (by simpa using hline)
    rw [List.nil_append, heq, dropNewline, newline_cons hc]

theorem string_multilineBasic (s rest : List Char) :
    string (multilineForm '"' s (escapedFrom true 0 s) ++ '\n' :: rest) = some (s, '\n' :: rest) := by
  have hform : multilineForm '"' s (escapedFrom true 0 s) ++ '\n' :: rest = '"' :: '"' :: '"' ::
      ((if s.contains '\n' then ['\n'] else []) ++ (escapedFrom true 0 s ++ (List.replicate 3 '"' ++ '\n' :: rest))) := by
    simp [multilineForm, List.replicate]
  have hread := @multilineBasicBody_escapedFrom ('\n' :: rest) (by simp) s 0 (by omega)
  rw [List.replicate_zero, List.nil_append, List.nil_append] at hread
  rw [hform, string, dropNewline_form, hread]
  intro hline
  cases s with
  | nil => exact ⟨'"', _, rfl, by decide, by decide⟩
  | cons c s =>
    rw [escapedFrom]
    by_cases hquote : c = '"'
    · rw [if_pos hquote]
      exact ⟨'"', _, rfl, by decide, by decide⟩
    · rw [if_neg hquote]
      rcases escaped_cases true hquote with ⟨w, hw, -⟩ | ⟨hself, hbasic⟩ | ⟨-, -, rfl⟩
      · rw [hw]
        exact ⟨'\\', _, rfl, by decide, by decide⟩
      · rw [hself]
        exact ⟨c, _, rfl, (isBasic_ne hbasic).2.2⟩
      · exact absurd List.mem_cons_self hline

theorem string_multilineLiteral {s : List Char} (hplain : ∀ c ∈ s, isControl c = true → c = '\n')
    (hrun : longestRun '\'' 0 s ≤ 2) (rest : List Char) :
    string (multilineForm '\'' s s ++ '\n' :: rest) = some (s, '\n' :: rest) := by
  have hform : multilineForm '\'' s s ++ '\n' :: rest = '\'' :: '\'' :: '\'' ::
      ((if s.contains '\n' then ['\n'] else []) ++ (s ++ (List.replicate 3 '\'' ++ '\n' :: rest))) := by
    simp [multilineForm, List.replicate]
  have hread := @multilineLiteralBody_append ('\n' :: rest) (by simp) s 0 hplain hrun
  rw [List.replicate_zero, List.nil_append, List.nil_append] at hread
  rw [hform, string, dropNewline_form, hread]
  intro hline
  cases s with
  | nil => exact ⟨'\'', _, rfl, by decide, by decide⟩
  | cons c s =>
    refine ⟨c, _, rfl, fun h => hline (by rw [h]; exact List.mem_cons_self), fun h => ?_⟩
    have hcontrol := hplain c List.mem_cons_self (by rw [h]; decide)
    rw [h] at hcontrol
    cases hcontrol

theorem isControl_of_not_needsEscapes {s : List Char} (h : needsEscapes s = false) :
    ∀ c ∈ s, isControl c = true → c = '\n' := by
  intro c hc hcontrol
  rw [needsEscapes, List.any_eq_false] at h
  simpa [hcontrol] using h c hc

/-- A text that is written as a value reads back. -/
theorem string_quotedValue (s rest : List Char) : string (quotedValue s ++ '\n' :: rest) = some (s, '\n' :: rest) := by
  unfold quotedValue
  split_ifs with h1 h2 h3 h4 h5
  · exact string_basicForm s rest
  · refine string_literalForm (fun c hc => ?_) rest
    simp only [Bool.and_eq_true, Bool.not_eq_true', List.contains_eq_mem, decide_eq_false_iff_not] at h2
    obtain ⟨⟨hescapes, hquote⟩, hline⟩ := h2
    have hcontrol : isControl c = false := by
      rw [← Bool.not_eq_true]
      intro hcontrol
      exact hline (isControl_of_not_needsEscapes hescapes c hc hcontrol ▸ hc)
    have hne : c ≠ '\'' := by
      rintro rfl
      exact hquote hc
    simp [isLiteral, hcontrol, hne]
  · exact string_multilineBasic s rest
  · simp only [Bool.and_eq_true, Bool.not_eq_true', decide_eq_true_eq] at h4
    exact string_multilineLiteral (isControl_of_not_needsEscapes h4.1) h4.2 rest
  · exact string_multilineBasic s rest
  · exact string_basicForm s rest

theorem takeWhile_dropWhile_append {accept : Char → Bool} {s : List Char} (hs : ∀ c ∈ s, accept c = true) {c : Char}
    (hc : accept c = false) (rest : List Char) : (s ++ c :: rest).takeWhile accept = s ∧
      (s ++ c :: rest).dropWhile accept = c :: rest := by
  induction s with
  | nil => simp [hc]
  | cons c' s ih =>
    obtain ⟨htake, hdrop⟩ := ih fun x hx => hs x (List.mem_cons_of_mem _ hx)
    simp [hs c' List.mem_cons_self, htake, hdrop]

theorem keyPart_bare {s : List Char} (hne : s ≠ []) (hs : ∀ c ∈ s, isBareKeyChar c = true) {c : Char}
    (hc : isBareKeyChar c = false) (rest : List Char) :
    keyPart (s ++ c :: rest) = some (String.ofList s, c :: rest) := by
  obtain ⟨first, others, rfl⟩ := List.exists_cons_of_ne_nil hne
  have hfirst := hs first List.mem_cons_self
  have hline : lineString (first :: (others ++ c :: rest)) = none := by
    unfold lineString
    split
    · rename_i heq
      exact absurd (List.cons.inj heq).1 (ne_of_kind hfirst (by decide))
    · rename_i heq
      exact absurd (List.cons.inj heq).1 (ne_of_kind hfirst (by decide))
    · rfl
  obtain ⟨htake, hdrop⟩ := takeWhile_dropWhile_append (fun x hx => hs x (List.mem_cons_of_mem _ hx)) hc rest
  simp only [keyPart, Text.Parser.or, bind, List.cons_append, hline, Text.Parser.satisfy, hfirst, if_true,
    Text.Parser.takeWhile, htake, hdrop]
  rfl

/-- A text that is written as a key reads back, if no more of a key follows. -/
theorem keyPart_quotedKey (s : List Char) {c : Char} (hc : isBareKeyChar c = false) (rest : List Char) :
    keyPart (quotedKey s ++ c :: rest) = some (String.ofList s, c :: rest) := by
  have hquoted : ∀ form, lineString (form ++ c :: rest) = some (s, c :: rest) →
      keyPart (form ++ c :: rest) = some (String.ofList s, c :: rest) := by
    intro form hform
    simp only [keyPart, Text.Parser.or, bind, hform]
    rfl
  have hbasic : lineString (basicForm s ++ c :: rest) = some (s, c :: rest) := by
    have hread := basicBody_escapedFrom s 0 (c :: rest)
    simpa [basicForm, lineString] using hread
  unfold quotedKey
  split_ifs with h1 h2 h3
  · simp only [Bool.and_eq_true, decide_eq_true_eq, List.all_eq_true] at h1
    exact keyPart_bare h1.1 h1.2 hc rest
  · exact hquoted _ hbasic
  · simp only [Bool.and_eq_true, Bool.not_eq_true', List.contains_eq_mem, decide_eq_false_iff_not, List.any_eq_false] at h3
    have hread := literalBody_append (s := s) (fun x hx => by
      have hne : x ≠ '\'' := by
        rintro rfl
        exact h3.2 hx
      have hcontrol : isControl x = false := by simpa using h3.1 x hx
      simp [isLiteral, hcontrol, hne]) (c :: rest)
    exact hquoted _ (by simpa [literalForm, lineString] using hread)
  · exact hquoted _ hbasic

end StyleTrack.Toml
