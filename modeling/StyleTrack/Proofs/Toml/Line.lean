/-
What is written as a line reads back as the line: a key with a string or a number, the header of a table, and
a blank line, each with whatever follows it.
-/
import StyleTrack.Proofs.Text.Parser
import StyleTrack.Proofs.Toml.Quoted

namespace StyleTrack.Toml

open Text (Parser numberOf)
open Text.Parser (bind_of_some bind_of_none or_of_none optional_of_none satisfy_cons char_self char_of_ne
  many_of_none many_of_one)

/-! ## Numbers -/

/-- The digits of a number. -/
def digitsOf (n : Nat) : List Char := (toString n).toList

theorem digitsOf_eq (n : Nat) : digitsOf n = Nat.toDigits 10 n := by
  rw [digitsOf, Nat.toString_eq_ofList_toDigits, String.toList_ofList]

theorem isDigit_of_mem_digitsOf {n : Nat} {c : Char} (h : c ∈ digitsOf n) : c.isDigit = true := by
  rw [digitsOf_eq] at h
  exact Nat.isDigit_of_mem_toDigits (by decide) (by decide) h

theorem digitsOf_ne_nil (n : Nat) : digitsOf n ≠ [] := by
  rw [digitsOf_eq]
  exact Nat.toDigits_ne_nil

theorem exists_digitsOf_eq (n : Nat) : ∃ first others, digitsOf n = first :: others ∧ first.isDigit = true := by
  obtain ⟨first, others, heq⟩ := List.exists_cons_of_ne_nil (digitsOf_ne_nil n)
  exact ⟨first, others, heq, isDigit_of_mem_digitsOf (heq ▸ List.mem_cons_self)⟩

/-- Only the number zero starts with a zero. -/
theorem head?_digitsOf {n : Nat} (h : (digitsOf n).head? = some '0') : n = 0 := by
  rw [digitsOf_eq] at h
  induction n using Nat.strongRecOn with
  | ind n ih =>
    rw [Nat.toDigits_eq_if (by decide)] at h
    split_ifs at h with hlt
    · have hall : ∀ m < 10, Nat.digitChar m = '0' → m = 0 := by decide
      exact hall n hlt (by simpa using h)
    · have hne : Nat.toDigits 10 (n / 10) ≠ [] := Nat.toDigits_ne_nil
      rw [List.head?_append_of_ne_nil _ hne] at h
      have hzero := ih (n / 10) (by omega) h
      omega

theorem numberOf_digits {s : List Char} (h : ∀ c ∈ s, c.isDigit = true) (value : Nat) :
    numberOf 10 value s = Nat.ofDigitChars 10 s value := by
  induction s generalizing value with
  | nil => rfl
  | cons c s ih =>
    rw [numberOf, if_pos (h c List.mem_cons_self), ih fun c' hc' => h c' (List.mem_cons_of_mem _ hc'), Nat.mul_comm]
    rfl

theorem numberOf_digitsOf (n : Nat) : numberOf 10 0 (digitsOf n) = n := by
  rw [numberOf_digits fun c hc => isDigit_of_mem_digitsOf hc, digitsOf_eq]
  exact Nat.ofDigitChars_toDigits (by decide) (by decide)

theorem moreDigits_append {s : List Char} (hs : ∀ c ∈ s, c.isDigit = true) (rest : List Char) :
    moreDigits Char.isDigit (s ++ '\n' :: rest) = (s, '\n' :: rest) := by
  induction s with
  | nil => rfl
  | cons c s ih =>
    have hc := hs c List.mem_cons_self
    have hne : c ≠ '_' := ne_of_kind hc (by decide)
    rw [List.cons_append, moreDigits.eq_def]
    split
    · rename_i heq
      cases heq
    · rename_i heq
      exact absurd (List.cons.inj heq).1 hne
    · rename_i heq
      cases heq
      rw [if_pos hc, ih fun c' hc' => hs c' (List.mem_cons_of_mem _ hc')]

theorem wholeDigits_digitsOf (n : Nat) (rest : List Char) :
    wholeDigits (digitsOf n ++ '\n' :: rest) = some (digitsOf n, '\n' :: rest) := by
  obtain ⟨first, others, heq⟩ := List.exists_cons_of_ne_nil (digitsOf_ne_nil n)
  by_cases hzero : first = '0'
  · have hn : n = 0 := head?_digitsOf (by rw [heq, hzero]; rfl)
    subst hn
    rfl
  · have hall : ∀ c ∈ first :: others, c.isDigit = true := fun c hc => isDigit_of_mem_digitsOf (heq ▸ hc)
    rw [heq]
    have hwhole : wholeDigits (first :: others ++ '\n' :: rest) = digits Char.isDigit (first :: others ++ '\n' :: rest) := by
      rw [wholeDigits.eq_def]
      split
      · rename_i hcons
        exact absurd (List.cons.inj hcons).1 hzero
      · rfl
    have hfirst := satisfy_cons (hall first List.mem_cons_self) (others ++ '\n' :: rest)
    rw [hwhole, digits, List.cons_append, bind_of_some hfirst]
    refine (bind_of_some ?_).trans rfl
    exact congrArg some (moreDigits_append (fun c hc => hall c (List.mem_cons_of_mem _ hc)) rest)

theorem sign_digitsOf (n : Nat) (rest : List Char) :
    sign (digitsOf n ++ '\n' :: rest) = some (false, digitsOf n ++ '\n' :: rest) := by
  obtain ⟨first, others, heq, hfirst⟩ := exists_digitsOf_eq n
  rw [heq, sign.eq_def]
  split
  · rename_i hcons
    exact absurd (List.cons.inj hcons).1 (ne_of_kind hfirst (by decide))
  · rename_i hcons
    exact absurd (List.cons.inj hcons).1 (ne_of_kind hfirst (by decide))
  · rfl

/-- Nothing but a line end follows a zero in front. -/
theorem eq_newline_of_zero {n : Nat} {rest tail : List Char} {x : Char}
    (h : digitsOf n ++ '\n' :: rest = '0' :: x :: tail) : x = '\n' := by
  obtain ⟨first, others, heq⟩ := List.exists_cons_of_ne_nil (digitsOf_ne_nil n)
  rw [heq] at h
  have hn : n = 0 := head?_digitsOf (by rw [heq, (List.cons.inj h).1]; rfl)
  subst hn
  cases heq
  exact (List.cons.inj (List.cons.inj h).2).1.symm

theorem integer_digitsOf {n : Nat} (hn : n < integerLimit) (rest : List Char) :
    integer (digitsOf n ++ '\n' :: rest) = some (.integer n, '\n' :: rest) := by
  have hplain : integer (digitsOf n ++ '\n' :: rest) = (sign >>= fun negative => wholeDigits >>= fun s =>
      inRange (if negative then -(numberOf 10 0 s : Int) else numberOf 10 0 s)) (digitsOf n ++ '\n' :: rest) := by
    rw [integer.eq_def]
    split
    · rename_i hcons
      cases eq_newline_of_zero hcons
    · rename_i hcons
      cases eq_newline_of_zero hcons
    · rename_i hcons
      cases eq_newline_of_zero hcons
    · rfl
  rw [hplain, bind_of_some (sign_digitsOf n rest), bind_of_some (wholeDigits_digitsOf n rest), numberOf_digitsOf,
    if_neg Bool.false_ne_true, inRange, if_pos ⟨by omega, by omega⟩]
  rfl

/-- A number in digits is no fraction. -/
theorem float_digitsOf (n : Nat) (rest : List Char) : float (digitsOf n ++ '\n' :: rest) = none := by
  have hdecimal : decimal (digitsOf n ++ '\n' :: rest) = none := by
    rw [decimal, bind_of_some (sign_digitsOf n rest), bind_of_some (wholeDigits_digitsOf n rest)]
    exact bind_of_none rfl
  obtain ⟨first, others, heq, hfirst⟩ := exists_digitsOf_eq n
  have hword : ∀ c w, c.isDigit = false → Parser.word (c :: w) (digitsOf n ++ '\n' :: rest) = none := by
    intro c w hc
    rw [heq]
    simp [Parser.word, (ne_of_kind hfirst hc).symm]
  have hspecial : special (digitsOf n ++ '\n' :: rest) = none := by
    rw [special, bind_of_some (sign_digitsOf n rest)]
    refine bind_of_none ?_
    rw [or_of_none (bind_of_none (hword 'i' _ (by decide)))]
    exact bind_of_none (hword 'n' _ (by decide))
  rw [float, or_of_none hdecimal, hspecial]

/-- Exactly so many digits, if there are as many. -/
theorem times_digits {s : List Char} (hs : ∀ c ∈ s, c.isDigit = true) (rest : List Char) (k : Nat) :
    Parser.times (Parser.satisfy Char.isDigit) k (s ++ '\n' :: rest) =
      if k ≤ s.length then some (s.take k, s.drop k ++ '\n' :: rest) else none := by
  induction k generalizing s with
  | zero => rfl
  | succ k ih =>
    cases s with
    | nil => rfl
    | cons c s =>
      have hfirst := satisfy_cons (hs c List.mem_cons_self) (s ++ '\n' :: rest)
      have hrest := ih fun c' hc' => hs c' (List.mem_cons_of_mem _ hc')
      rw [Parser.times, List.cons_append, bind_of_some hfirst]
      by_cases hle : k ≤ s.length
      · rw [if_pos hle] at hrest
        rw [bind_of_some hrest, if_pos (by simpa using hle)]
        rfl
      · rw [if_neg hle] at hrest
        rw [bind_of_none hrest, if_neg (by simpa using hle)]

/-- No mark other than a line end comes after digits. -/
theorem fixed_then_char {α : Type} {s : List Char} (hs : ∀ c ∈ s, c.isDigit = true) {mark : Char}
    (hmark : mark.isDigit = false ∧ mark ≠ '\n') (count least greatest : Nat) (f : Nat → Char → Parser α)
    (rest : List Char) :
    (Parser.fixed count least greatest >>= fun n => Parser.char mark >>= f n) (s ++ '\n' :: rest) = none := by
  cases hfixed : Parser.fixed count least greatest (s ++ '\n' :: rest) with
  | none => exact bind_of_none hfixed
  | some found =>
    obtain ⟨n, after⟩ := found
    have hafter : after = s.drop count ++ '\n' :: rest := by
      rw [Parser.fixed] at hfixed
      by_cases hle : count ≤ s.length
      · have htimes := times_digits hs rest count
        rw [if_pos hle] at htimes
        rw [bind_of_some htimes] at hfixed
        split_ifs at hfixed
        · cases hfixed
          rfl
        · cases hfixed
      · have htimes := times_digits hs rest count
        rw [if_neg hle] at htimes
        rw [bind_of_none htimes] at hfixed
        cases hfixed
    rw [bind_of_some hfixed, hafter]
    refine bind_of_none ?_
    cases hdrop : s.drop count with
    | nil => simp [Parser.char, Parser.satisfy, hmark.2.symm]
    | cons c tail =>
      have hc : c.isDigit = true := hs c (List.mem_of_mem_drop (hdrop ▸ List.mem_cons_self))
      simp [Parser.char, Parser.satisfy, ne_of_kind hc hmark.1]

/-- A number in digits is no date or time. -/
theorem datetime_digitsOf (n : Nat) (rest : List Char) : datetime (digitsOf n ++ '\n' :: rest) = none := by
  have hs : ∀ c ∈ digitsOf n, c.isDigit = true := fun c hc => isDigit_of_mem_digitsOf hc
  have hdate : date (digitsOf n ++ '\n' :: rest) = none := fixed_then_char hs (by decide) 4 0 9999 _ rest
  have htime : time (digitsOf n ++ '\n' :: rest) = none := fixed_then_char hs (by decide) 2 0 23 _ rest
  rw [datetime, or_of_none (bind_of_none hdate)]
  exact bind_of_none htime

/-! ## Values -/

theorem scalar_digitsOf {n : Nat} (hn : n < integerLimit) (rest : List Char) :
    scalar (digitsOf n ++ '\n' :: rest) = some (.integer n, '\n' :: rest) := by
  obtain ⟨first, others, heq, hfirst⟩ := exists_digitsOf_eq n
  have hquote : (first = '"' || first = '\'') = false := by
    rw [Bool.or_eq_false_iff, decide_eq_false_iff_not, decide_eq_false_iff_not]
    exact ⟨ne_of_kind hfirst (by decide), ne_of_kind hfirst (by decide)⟩
  have hread : Parser.or (datetime >>= fun d => pure (Value.datetime d)) (Parser.or float integer)
      (digitsOf n ++ '\n' :: rest) = some (.integer n, '\n' :: rest) := by
    rw [or_of_none (bind_of_none (datetime_digitsOf n rest)), or_of_none (float_digitsOf n rest),
      integer_digitsOf hn rest]
  rw [heq] at hread ⊢
  rw [List.cons_append, scalar, hquote, if_neg Bool.false_ne_true, hfirst, Bool.or_true, if_pos rfl]
  exact hread

/-- A string is written with a quote in front. -/
theorem exists_quotedValue (s : List Char) : ∃ quote tail, quotedValue s = quote :: tail ∧ (quote = '"' ∨ quote = '\'') := by
  unfold quotedValue basicForm literalForm multilineForm
  split_ifs
  all_goals first
    | exact ⟨'"', _, rfl, .inl rfl⟩
    | exact ⟨'\'', _, rfl, .inr rfl⟩

theorem scalar_quotedValue (s rest : List Char) :
    scalar (quotedValue s ++ '\n' :: rest) = some (.string (String.ofList s), '\n' :: rest) := by
  obtain ⟨quote, tail, heq, hquote⟩ := exists_quotedValue s
  have hstring := string_quotedValue s rest
  have hif : (quote = '"' || quote = '\'') = true := by
    rcases hquote with rfl | rfl <;> rfl
  rw [heq, List.cons_append] at hstring ⊢
  rw [scalar, hif, if_pos rfl, bind_of_some hstring]
  rfl

theorem isLineBlank_of_kind {kind : Char → Bool} {c : Char} (hc : kind c = true)
    (hkind : kind ' ' = false ∧ kind '\t' = false) : isLineBlank c = false := by
  rw [isLineBlank, Bool.or_eq_false_iff, decide_eq_false_iff_not, decide_eq_false_iff_not]
  exact ⟨ne_of_kind hc hkind.1, ne_of_kind hc hkind.2⟩

/-- Whether some characters at the end of a line read as a value. -/
structure Written (w : List Char) (v : Value) : Prop where
  head : ∃ c tail, w = c :: tail ∧ isLineBlank c = false
  value : ∀ rest, value (depthLimit - 1) (w ++ '\n' :: rest) = some (v, '\n' :: rest)

theorem value_cons {c : Char} (h : c ≠ '[' ∧ c ≠ '{') (depth : Nat) (text : List Char) :
    value (depth + 1) (c :: text) = scalar (c :: text) := by
  rw [value.eq_def]
  dsimp only
  split
  · rename_i heq
    exact absurd (List.cons.inj heq).1 h.1
  · rename_i heq
    exact absurd (List.cons.inj heq).1 h.2
  · rfl

theorem written_string (s : String) : Written (quotedValue s.toList) (.string s) := by
  obtain ⟨quote, tail, heq, hquote⟩ := exists_quotedValue s.toList
  have hplain : isLineBlank quote = false ∧ quote ≠ '[' ∧ quote ≠ '{' := by
    rcases hquote with rfl | rfl <;> decide
  refine ⟨⟨quote, tail, heq, hplain.1⟩, fun rest => ?_⟩
  have hscalar := scalar_quotedValue s.toList rest
  rw [heq, List.cons_append] at hscalar ⊢
  rw [String.ofList_toList] at hscalar
  exact (value_cons hplain.2 _ _).trans hscalar

theorem written_number {n : Nat} (hn : n < integerLimit) : Written (digitsOf n) (.integer n) := by
  obtain ⟨first, others, heq, hfirst⟩ := exists_digitsOf_eq n
  have hblank : isLineBlank first = false := isLineBlank_of_kind hfirst (by decide)
  have hopen : first ≠ '[' ∧ first ≠ '{' := ⟨ne_of_kind hfirst (by decide), ne_of_kind hfirst (by decide)⟩
  refine ⟨⟨first, others, heq, hblank⟩, fun rest => ?_⟩
  have hscalar := scalar_digitsOf hn rest
  rw [heq, List.cons_append] at hscalar ⊢
  exact (value_cons hopen _ _).trans hscalar

/-! ## Keys -/

theorem blanks_cons {c : Char} (h : isLineBlank c = false) (rest : List Char) : blanks (c :: rest) = some ((), c :: rest) := by
  rw [blanks, List.dropWhile_cons_of_neg (by simp [h])]

theorem blanks_space {c : Char} (h : isLineBlank c = false) (rest : List Char) :
    blanks (' ' :: c :: rest) = some ((), c :: rest) := by
  rw [blanks, List.dropWhile_cons_of_pos (by decide), List.dropWhile_cons_of_neg (by simp [h])]

/-- Whether some characters read as a part of a key where certain others come after them. -/
def Part (w : List Char) (name : String) (after rest : List Char) : Prop :=
  spacedKeyPart (w ++ after) = some (name, rest)

theorem part_of_keyPart {w rest : List Char} {c d : Char} {name : String} (hw : ∃ x tail, w = x :: tail ∧ isLineBlank x = false)
    (hread : keyPart (w ++ d :: rest) = some (name, d :: rest)) (hc : isLineBlank c = false) {after : List Char}
    (hd : d :: rest = c :: after ∨ d :: rest = ' ' :: c :: after) : Part w name (d :: rest) (c :: after) := by
  obtain ⟨x, tail, rfl, hx⟩ := hw
  have hafter : blanks (d :: rest) = some ((), c :: after) := by
    rcases hd with hd | hd
    · rw [hd, blanks_cons hc]
    · rw [hd, blanks_space hc]
  rw [List.cons_append] at hread
  rw [Part, List.cons_append, spacedKeyPart, bind_of_some (blanks_cons hx (tail ++ d :: rest))]
  refine (bind_of_some hread).trans ?_
  rw [bind_of_some hafter]
  rfl

theorem isLineBlank_of_bare {c : Char} (h : isBareKeyChar c = true) : isLineBlank c = false :=
  isLineBlank_of_kind h (by decide)

/-- Whether a text is a key without quotes. -/
def IsBare (s : String) : Prop := s.toList ≠ [] ∧ ∀ c ∈ s.toList, isBareKeyChar c = true

theorem isBare_of_all {s : String} (h : s.toList ≠ [] ∧ s.toList.all isBareKeyChar = true) : IsBare s :=
  ⟨h.1, List.all_eq_true.1 h.2⟩

theorem IsBare.append_ne {s : String} (h : IsBare s) {c : Char} (hc : isBareKeyChar c = false) (rest tail : List Char) :
    s.toList ++ rest ≠ c :: tail := by
  obtain ⟨x, others, heq⟩ := List.exists_cons_of_ne_nil h.1
  have hx := h.2 x (heq ▸ List.mem_cons_self)
  intro hcons
  rw [heq, List.cons_append] at hcons
  exact ne_of_kind hx hc (List.cons.inj hcons).1

theorem IsBare.part {s : String} (h : IsBare s) {c d : Char} {rest after : List Char} (hc : isLineBlank c = false)
    (hbare : isBareKeyChar d = false) (hd : d :: rest = c :: after ∨ d :: rest = ' ' :: c :: after) :
    Part s.toList s (d :: rest) (c :: after) := by
  obtain ⟨x, tail, heq⟩ := List.exists_cons_of_ne_nil h.1
  have hx := h.2 x (heq ▸ List.mem_cons_self)
  refine part_of_keyPart ⟨x, tail, heq, isLineBlank_of_bare hx⟩ ?_ hc hd
  rw [keyPart_bare h.1 h.2 hbare, String.ofList_toList]

theorem part_quotedKey (s : String) (rest : List Char) : Part (quotedKey s.toList) s (']' :: rest) (']' :: rest) := by
  have hhead : ∃ x tail, quotedKey s.toList = x :: tail ∧ isLineBlank x = false := by
    unfold quotedKey basicForm literalForm
    split_ifs with h1
    · simp only [Bool.and_eq_true, decide_eq_true_eq, List.all_eq_true] at h1
      obtain ⟨x, tail, heq⟩ := List.exists_cons_of_ne_nil h1.1
      exact ⟨x, tail, heq, isLineBlank_of_bare (h1.2 x (heq ▸ List.mem_cons_self))⟩
    all_goals exact ⟨_, _, rfl, by decide⟩
  refine part_of_keyPart hhead ?_ (by decide) (.inl rfl)
  rw [keyPart_quotedKey s.toList (by decide), String.ofList_toList]

/-- A key of one part. -/
theorem key_one {w after rest : List Char} {name : String} {c : Char} (hpart : Part w name after (c :: rest))
    (hc : c ≠ '.') : key (w ++ after) = some (([], name), c :: rest) := by
  have hnone : (Parser.char '.' >>= fun _ => spacedKeyPart) (c :: rest) = none := bind_of_none (char_of_ne hc rest)
  have hparts : Parser.separated spacedKeyPart (Parser.char '.') (w ++ after) = some ([name], c :: rest) := by
    rw [Parser.separated, bind_of_some hpart, bind_of_some (many_of_none hnone)]
    rfl
  rw [key, bind_of_some hparts]
  rfl

/-- A key of two parts. -/
theorem key_two {w w' after rest : List Char} {parent name : String} {c : Char}
    (hparent : Part w parent ('.' :: (w' ++ after)) ('.' :: (w' ++ after))) (hpart : Part w' name after (c :: rest))
    (hc : c ≠ '.') : key (w ++ '.' :: (w' ++ after)) = some (([parent], name), c :: rest) := by
  have hnone : (Parser.char '.' >>= fun _ => spacedKeyPart) (c :: rest) = none := bind_of_none (char_of_ne hc rest)
  have hone : (Parser.char '.' >>= fun _ => spacedKeyPart) ('.' :: (w' ++ after)) = some (name, c :: rest) := by
    rw [bind_of_some (char_self '.' _)]
    exact hpart
  have hparts : Parser.separated spacedKeyPart (Parser.char '.') (w ++ '.' :: (w' ++ after)) =
      some ([parent, name], c :: rest) := by
    rw [Parser.separated, bind_of_some hparent, bind_of_some (many_of_one hone (by simp) hnone)]
    rfl
  rw [key, bind_of_some hparts]
  rfl

/-! ## Lines -/

theorem lineTrailing_newline (rest : List Char) : lineTrailing ('\n' :: rest) = some ((), rest) := by
  have hcomment : comment ('\n' :: rest) = none := bind_of_none (char_of_ne (by decide) rest)
  rw [lineTrailing, bind_of_some (blanks_cons (by decide) rest), bind_of_some (optional_of_none hcomment)]
  rfl

theorem line_empty (rest : List Char) : line ('\n' :: rest) = some (.empty, rest) := rfl

/-- A line that starts with a key. -/
theorem line_of_bare {c : Char} (h : isBareKeyChar c = true) (text : List Char) : line (c :: text) = entryLine (c :: text) := by
  have hne : c ≠ '#' ∧ c ≠ '[' ∧ c ≠ '\n' ∧ c ≠ '\r' :=
    ⟨ne_of_kind h (by decide), ne_of_kind h (by decide), ne_of_kind h (by decide), ne_of_kind h (by decide)⟩
  rw [line.eq_def]
  split
  all_goals first
    | rfl
    | (rename_i heq; have hhead := (List.cons.inj heq).1; simp_all)

theorem line_entry {k : String} (hk : IsBare k) {w : List Char} {v : Value} (hw : Written w v) (rest : List Char) :
    line (k.toList ++ ' ' :: '=' :: ' ' :: (w ++ '\n' :: rest)) = some (.entry [] k v, rest) := by
  obtain ⟨c, tail, heq, hblank⟩ := hw.head
  have hkey : key (k.toList ++ ' ' :: '=' :: ' ' :: (w ++ '\n' :: rest)) =
      some (([], k), '=' :: ' ' :: (w ++ '\n' :: rest)) :=
    key_one (hk.part (by decide) (by decide) (.inr rfl)) (by decide)
  have hspace : blanks (' ' :: (w ++ '\n' :: rest)) = some ((), w ++ '\n' :: rest) := by
    rw [heq]
    exact blanks_space hblank _
  have hentry : entry (value (depthLimit - 1)) (k.toList ++ ' ' :: '=' :: ' ' :: (w ++ '\n' :: rest)) =
      some ((([], k), v), '\n' :: rest) := by
    rw [entry, bind_of_some hkey, bind_of_some (char_self '=' _), bind_of_some hspace, bind_of_some (hw.value rest)]
    rfl
  obtain ⟨x, others, hx⟩ := List.exists_cons_of_ne_nil hk.1
  have hbare := hk.2 x (hx ▸ List.mem_cons_self)
  have hline : entryLine (k.toList ++ ' ' :: '=' :: ' ' :: (w ++ '\n' :: rest)) = some (.entry [] k v, rest) := by
    rw [entryLine, bind_of_some hentry]
    exact (bind_of_some (lineTrailing_newline rest)).trans rfl
  rw [hx, List.cons_append] at hline ⊢
  rw [line_of_bare hbare, hline]

theorem line_header {text rest : List Char} {path : List String} {name : String}
    (hkey : key text = some ((path, name), ']' :: '\n' :: rest)) (htext : ∀ tail, text ≠ '[' :: tail) :
    line ('[' :: text) = some (.table path name, rest) := by
  have hbody : headerBody text = some (.table path name, rest) := by
    rw [headerBody, bind_of_some hkey]
    refine (bind_of_some (char_self ']' _)).trans ?_
    exact (bind_of_some (lineTrailing_newline rest)).trans rfl
  have hline : line ('[' :: text) = headerBody text := by
    rw [line.eq_def]
    split
    all_goals first
      | rfl
      | (rename_i heq; simp_all)
  rw [hline, hbody]

end StyleTrack.Toml
