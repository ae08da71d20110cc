/-
Strings and objects that are written as JSON are read back, whatever characters they hold.
-/
import StyleTrack.Json.Document
import StyleTrack.Json.Quoted
import StyleTrack.Proofs.Text.Parser

namespace StyleTrack.Json

open Text (Parser numberOf)
open Text.Parser (bind_of_some bind_of_none or_of_some or_of_none satisfy_cons char_self char_of_ne many_flatMap
  separated_intercalate)

/-! ## Characters -/

theorem le_hexDigit (n : Nat) : ' ' ≤ hexDigit n := by
  have hdigits : ∀ n < 16, ' ' ≤ Nat.digitChar n := by decide
  exact hdigits (n % 16) (Nat.mod_lt n (by decide))

/-- No control character is written as itself. -/
theorem le_of_mem_escape {c d : Char} (h : d ∈ escape c) : ' ' ≤ d := by
  unfold escape at h
  split_ifs at h with _ _ _ _ _ _ _ hcontrol
  case neg => rw [List.mem_singleton.1 h]; exact Char.not_lt.1 hcontrol
  all_goals
    simp only [List.mem_cons, List.not_mem_nil, or_false] at h
    rcases h with rfl | rfl | rfl | rfl | rfl | rfl <;> first | decide | exact le_hexDigit _

theorem le_of_mem_quoted {text : List Char} {d : Char} (h : d ∈ quoted text) : ' ' ≤ d := by
  rcases List.mem_cons.1 h with rfl | h
  · decide
  · rcases List.mem_append.1 h with h | h
    · obtain ⟨c, -, hc⟩ := List.mem_flatMap.1 h
      exact le_of_mem_escape hc
    · rw [List.mem_singleton.1 h]
      decide

namespace Reader

theorem unit_of_isHexDigit {a b c d : Char} (h : ∀ x ∈ [a, b, c, d], isHexDigit x = true) (rest : List Char) :
    unit (a :: b :: c :: d :: rest) = some (numberOf 16 0 [a, b, c, d], rest) := by
  simp only [List.forall_mem_cons] at h
  obtain ⟨ha, hb, hc, hd, -⟩ := h
  simp only [unit, Parser.times, bind, satisfy_cons ha, satisfy_cons hb, satisfy_cons hc, satisfy_cons hd]
  rfl

theorem isHexDigit_hexDigit (n : Nat) : isHexDigit (hexDigit n) = true := by
  have hdigits : ∀ n < 16, isHexDigit (Nat.digitChar n) = true := by decide
  exact hdigits (n % 16) (Nat.mod_lt n (by decide))

/-- A character below the blank is written as two hexadecimal digits behind two zeros. -/
theorem coded_hexDigit {n : Nat} (h : n < 32) (rest : List Char) :
    coded ('0' :: '0' :: hexDigit (n / 16) :: hexDigit n :: rest) = some (Char.ofNat n, rest) := by
  have hzero : isHexDigit '0' = true := by decide
  have hhex : ∀ x ∈ ['0', '0', hexDigit (n / 16), hexDigit n], isHexDigit x = true := by
    simp [hzero, isHexDigit_hexDigit]
  have hnumber : ∀ n < 32, numberOf 16 0 ['0', '0', hexDigit (n / 16), hexDigit n] = n := by decide
  rw [coded, bind_of_some (unit_of_isHexDigit hhex rest), hnumber n h, if_neg (by omega), if_neg (by omega)]
  rfl

/-- What stands for a character is read as that character. -/
theorem character_escape (c : Char) (rest : List Char) : character (escape c ++ rest) = some (c, rest) := by
  unfold escape
  split_ifs with hquote hslash hb ht hn hf hr hcontrol
  · rw [hquote]; rfl
  · rw [hslash]; rfl
  · rw [hb]; rfl
  · rw [ht]; rfl
  · rw [hn]; rfl
  · rw [hf]; rfl
  · rw [hr]; rfl
  · have hlt : c.toNat < 32 := hcontrol
    have hcoded := coded_hexDigit hlt rest
    rw [Char.ofNat_toNat] at hcoded
    exact hcoded
  · have hplain : isPlain c = true := by
      have hle : ' ' ≤ c := Char.not_lt.1 hcontrol
      simp [isPlain, hle, hquote, hslash]
    rw [List.singleton_append, character.eq_def]
    split
    · rename_i heq
      exact absurd (List.cons.inj heq).1 hslash
    · rename_i heq
      exact absurd (List.cons.inj heq).1 hslash
    · exact satisfy_cons hplain rest

theorem escape_ne_nil (c : Char) : escape c ≠ [] := by
  unfold escape
  split_ifs <;> simp

/-- A quotation mark ends a string. -/
theorem character_quote (rest : List Char) : character ('"' :: rest) = none := rfl

/-- A text that is written as a string is read back. -/
theorem string_quoted (text rest : List Char) : string (quoted text ++ rest) = some (String.ofList text, rest) := by
  have hmany : Parser.many character (text.flatMap escape ++ '"' :: rest) = some (text, '"' :: rest) := by
    have hread : ∀ c rest, character (escape c ++ rest) = some (id c, rest) := character_escape
    rw [many_flatMap (fun c back _ => hread c _) (fun c _ => escape_ne_nil c) (character_quote rest), List.map_id]
  rw [quoted, List.cons_append, List.append_assoc, List.singleton_append, string, bind_of_some (char_self '"' _),
    bind_of_some hmany, bind_of_some (char_self '"' _)]
  rfl

/-! ## Values -/

theorem blanks_cons {c : Char} (h : isBlank c = false) (rest : List Char) :
    blanks (c :: rest) = some ((), c :: rest) := by
  simp only [blanks, Parser.takeWhile, bind, List.takeWhile_cons, List.dropWhile_cons, h]
  rfl

theorem blanks_quoted (text rest : List Char) : blanks (quoted text ++ rest) = some ((), quoted text ++ rest) :=
  blanks_cons rfl _

theorem mark_self {c : Char} (h : isBlank c = false) (rest : List Char) : mark c (c :: rest) = some ((), rest) := by
  rw [mark, bind_of_some (blanks_cons h rest), bind_of_some (char_self c rest)]
  rfl

theorem mark_of_ne {c d : Char} (h : isBlank d = false) (hne : d ≠ c) (rest : List Char) :
    mark c (d :: rest) = none := by
  rw [mark, bind_of_some (blanks_cons h rest), bind_of_none (char_of_ne hne rest)]

variable {α β : Type} {l : List β} {w : β → List Char}

/-- Items that are joined with commas are read one after the other, if none of them looks like the closing mark. -/
theorem enclosed_intercalate {item : Parser α} {read : β → α} {opening closing : Char} {rest : List Char} (hne : l ≠ [])
    (hread : ∀ x ∈ l, ∀ rest, item (w x ++ rest) = some (read x, rest)) (hopening : isBlank opening = false)
    (hclosing : isBlank closing = false) (hcomma : closing ≠ ',')
    (hitem : ∀ x ∈ l, ∀ rest, mark closing (w x ++ rest) = none) :
    enclosed opening closing item (opening :: ([','].intercalate (l.map w) ++ closing :: rest)) =
      some (l.map read, rest) := by
  have hitems : Parser.separated item (mark ',') ([','].intercalate (l.map w) ++ closing :: rest) =
      some (l.map read, closing :: rest) :=
    separated_intercalate hne hread (List.cons_ne_nil ',' []) (fun rest => mark_self rfl rest)
      (mark_of_ne hclosing hcomma rest)
  have hnone : mark closing ([','].intercalate (l.map w) ++ closing :: rest) = none := by
    obtain ⟨x, others, rfl⟩ := List.exists_cons_of_ne_nil hne
    rw [List.map_cons, Text.intercalate_cons_eq_append_flatMap, List.append_assoc]
    exact hitem x List.mem_cons_self _
  rw [enclosed, bind_of_some (mark_self hopening _), or_of_none (bind_of_none hnone), bind_of_some hitems,
    bind_of_some (mark_self hclosing rest)]
  rfl

theorem string_of_ne {c : Char} (h : c ≠ '"') (rest : List Char) : string (c :: rest) = none :=
  bind_of_none (char_of_ne h rest)

theorem enclosed_of_ne {item : Parser α} {opening c : Char} (hc : isBlank c = false) (hne : c ≠ opening)
    (closing : Char) (rest : List Char) : enclosed opening closing item (c :: rest) = none :=
  bind_of_none (mark_of_ne hc hne rest)

theorem value_quoted (depth : Nat) (text rest : List Char) :
    value (depth + 1) (quoted text ++ rest) = some (.string (String.ofList text), rest) := by
  rw [value, bind_of_some (blanks_quoted text rest)]
  exact or_of_some (bind_of_some (string_quoted text rest))

theorem value_null (depth : Nat) (rest : List Char) :
    value (depth + 1) ('n' :: 'u' :: 'l' :: 'l' :: rest) = some (.null, rest) := by
  rw [value, bind_of_some (blanks_cons rfl _), or_of_none (bind_of_none (string_of_ne (by decide) _)),
    or_of_none (bind_of_none (enclosed_of_ne rfl (by decide) _ _)),
    or_of_none (bind_of_none (enclosed_of_ne rfl (by decide) _ _))]
  rfl

variable {name : β → String} {d : β → Document}

/-- An object is read back, if its values are. -/
theorem value_object (hne : l ≠ []) (hw : ∀ x ∈ l, ∀ depth rest, value (depth + 1) (w x ++ rest) = some (d x, rest))
    (depth : Nat) (rest : List Char) :
    value (depth + 2)
        ('{' :: ([','].intercalate (l.map fun x => quoted (name x).toList ++ ':' :: w x) ++ '}' :: rest)) =
      some (.object (l.map fun x => (name x, d x)), rest) := by
  have hmember : ∀ x ∈ l, ∀ rest, member (value (depth + 1)) ((quoted (name x).toList ++ ':' :: w x) ++ rest) =
      some ((name x, d x), rest) := fun x hx rest => by
    rw [List.append_assoc, List.cons_append, member, bind_of_some (blanks_quoted _ _), bind_of_some (string_quoted _ _),
      bind_of_some (mark_self rfl _), bind_of_some (hw x hx depth rest), String.ofList_toList]
    rfl
  rw [value, bind_of_some (blanks_cons rfl _), or_of_none (bind_of_none (string_of_ne (by decide) _))]
  exact or_of_some (bind_of_some (enclosed_intercalate hne hmember rfl rfl (by decide) fun x _ rest =>
    mark_of_ne rfl (by decide) _))

end Reader

/-- Whatever is read to the end of a text is the document that the text is. -/
theorem Document.read?_of_value {text : List Char} {d : Document}
    (h : Reader.value (text.length + 1) text = some (d, [])) : read? text = some d := by
  rw [read?, Reader.document, bind_of_some h]
  rfl

example : Document.read? "\x7b\"a\":\"\\\"\\n\\u0007\",\"b\":null\x7d".toList =
    some (.object [("a", .string "\"\n\x07"), ("b", .null)]) := by cbv

/-- A newline within a string is refused. -/
example : Document.read? "\"a\nb\"".toList = none := by cbv

end StyleTrack.Json
