/-
Directives by position. A closing parenthesis is searched for in what is left of the text, so the options and an unquoted
target end in front of it; and a quoted target is cut out only if its string is closed, so between its quotes.
-/
import StyleTrack.Proofs.Indexed.Reference
import StyleTrack.Source.Directive

namespace StyleTrack.Source.Indexed

open StyleTrack.Text

/-! ## Directives -/

/-- What stands between the quotes of the string at a position, if it is closed. -/
def quotedAt (text : List Char) (start : Nat) : Checked (Option (List Char)) := do
  let stop ← skipString text start
  if (← minus stop start) < 2 then return none
  else if (← byteAt text (← minus stop 1)) = (← byteAt text start) then
    return some (← slice text (start + 1) (← minus stop 1))
  else return none

/-- The body of `url(…)` at a position: a quoted string, or what stands in front of the closing parenthesis. -/
def bodyAt (text : List Char) (start : Nat) : Checked (Option (List Char)) := do
  match peek text start with
  | none => return none
  | some b =>
    if isQuote b then quotedAt text start
    else
      match find? [')'] (← slice text start (size text)) with
      | none => return none
      | some n =>
        let raw := trim (← slice text start (start + n))
        if raw = [] then return none else return some raw

/-- The target at a position: a quoted string, or `url(` with a quoted or a raw body. -/
def targetAt (text : List Char) (i : Nat) : Checked (Option (List Char)) := do
  match peek text i with
  | none => return none
  | some b =>
    if isQuote b then quotedAt text i
    else if ← hasWord text ['u', 'r', 'l', '('] i then bodyAt text (← skipWhile text isAsciiBlank (i + 4))
    else return none

/-- The options behind the keyword and the position of the target. -/
def optionsAt (text : List Char) (start : Nat) : Checked (Except DirectiveFault (ImportOptions × Nat)) := do
  let i ← skipWhile text isAsciiBlank start
  if peek text i = some '(' then
    match find? [')'] (← slice text i (size text)) with
    | none => return .error .unterminatedOptions
    | some n =>
      match ImportOptions.ofText (← slice text (i + 1) (i + n)) with
      | .error fault => return .error fault
      | .ok options => return .ok (options, ← skipWhile text isAsciiBlank (i + n + 1))
  else return .ok ({}, i)

/-- The directive at an offset of the keyword, unless that is the beginning of a longer word. -/
def directiveAt (text : List Char) (offset : Nat) : Checked (Except (Nat × DirectiveFault) (Option Directive)) := do
  let start := offset + Directive.keyword.word.length
  if ← holdsAt text isIdent start then return .ok none
  else
    let line ← lineOf text offset
    match ← optionsAt text start with
    | .error fault => return .error (line, fault)
    | .ok (options, i) =>
      match ← targetAt text i with
      | none => return .error (line, .malformed)
      | some target => return .ok (some ⟨String.ofList target, options, line⟩)

/-- The directives of a text. -/
def parse (text : List Char) : Checked (Except (Nat × DirectiveFault) (List Directive)) := do
  let found ← collect (directiveAt text) (← findKeyword Directive.keyword text)
  return found.map List.reduceOption

variable {u w : List Char} {quote : Char} {o : Occurrence}

/-! ## Targets -/

theorem quotedAt_size (hquote : isQuote quote = true) (u v : List Char) :
    quotedAt (u ++ quote :: v) (size u) = .ok (quotedTarget? quote v) := by
  have hascii := toNat_of_isQuote hquote
  obtain ⟨taken, rest, hv, htaken⟩ : ∃ taken rest, v = taken ++ rest ∧ v.take (quotedLength quote v) = taken :=
    ⟨_, _, (List.take_append_drop _ v).symm, rfl⟩
  have hwidth : size (u ++ quote :: taken) - size u = 1 + size taken := by
    rw [size_append, Nat.add_sub_cancel_left, size_cons, size_singleton hascii]
  have hone : 1 ≤ size (u ++ quote :: taken) := size_pos (by simp)
  have hle : size u ≤ size (u ++ quote :: taken) := (size_lt_size_append u quote taken).le
  rw [quotedAt, skipString_size hquote, quotedTarget?, htaken, ok_bind, minus_of_le hle, ok_bind, hwidth]
  by_cases hempty : taken = []
  · -- Nothing is behind the quote, and the last byte is not looked at.
    rw [hempty, if_pos (by decide)]
    rfl
  · have hpos := size_pos hempty
    obtain ⟨b, hbyte, hb⟩ := exists_byteAt_sub_one (u := u ++ quote :: taken) (by simp) rest
    rw [List.append_assoc, List.cons_append, ← hv] at hbyte
    have hlast : b = quote ↔ taken.getLast? = some quote := by
      rw [hb quote hascii, List.getLast?_append_of_ne_nil _ (by simp), List.getLast?_cons_of_ne_nil hempty]
    rw [if_neg (by omega), minus_of_le hone, ok_bind, hbyte, ok_bind, byteAt_size hascii, ok_bind, ok_bind]
    by_cases hends : taken.getLast? = some quote
    · obtain ⟨inner, rfl⟩ := List.getLast?_eq_some_iff.1 hends
      have hslice : slice (u ++ quote :: v) (size u + 1) (size (u ++ quote :: (inner ++ [quote])) - 1) = .ok inner := by
        have hcut := slice_size (u ++ [quote]) inner (quote :: rest)
        have htext : u ++ quote :: v = u ++ [quote] ++ inner ++ quote :: rest := by simp [hv]
        have hstart : size u + 1 = size (u ++ [quote]) := by rw [size_append, size_singleton hascii]
        have hstop : size (u ++ quote :: (inner ++ [quote])) - 1 = size (u ++ [quote] ++ inner) := by
          rw [List.append_cons, ← List.append_assoc, size_append _ [quote], size_singleton hascii, Nat.add_sub_cancel]
        rw [htext, hstart, hstop, hcut]
      rw [if_pos (hlast.2 hends), if_pos hends, hslice, List.dropLast_concat]
      rfl
    · rw [if_neg (mt hlast.1 hends), if_neg hends]
      rfl

/-- A closing parenthesis is found where the text splits. -/
theorem find?_close (s : List Char) :
    find? [')'] s = none ∧ splitAtClose? s = none ∨
      ∃ raw rest, s = raw ++ ')' :: rest ∧ find? [')'] s = some (size raw) ∧ splitAtClose? s = some (raw, rest) := by
  by_cases hmem : ')' ∈ s
  · obtain ⟨raw, rest, rfl, hraw⟩ := List.eq_append_cons_of_mem hmem
    exact .inr ⟨raw, rest, rfl, find?_append hraw rest, splitAtClose?_append hraw rest⟩
  · rw [splitAtClose?, List.dropWhile_eq_nil_iff.2 (forall_ne_of_notMem hmem)]
    exact .inl ⟨find?_of_notMem hmem, rfl⟩

/-- The body that a text behind `url(` and blanks begins with. -/
def body? (v : List Char) : Option (List Char) :=
  match v with
  | [] => none
  | d :: body =>
    if isQuote d then quotedTarget? d body
    else match splitAtClose? (d :: body) with
      | none => none
      | some (raw, _) => if trim raw = [] then none else some (trim raw)

theorem bodyAt_size (u v : List Char) : bodyAt (u ++ v) (size u) = .ok (body? v) := by
  cases v with
  | nil =>
    rw [bodyAt, peek_size]
    rfl
  | cons d body =>
    obtain ⟨b, hb, hpeek⟩ := exists_peek u d body
    rw [bodyAt, hpeek, body?]
    dsimp only
    rw [eq_of_mem_bytewise (fun _ => isQuote_of_beyond) hb]
    split_ifs with hquote
    · exact quotedAt_size hquote u body
    · rw [slice_to_end, ok_bind]
      rcases find?_close (d :: body) with ⟨hfind, hclose⟩ | ⟨raw, rest, htext, hfind, hclose⟩
      · rw [hfind, hclose]
        rfl
      · rw [hfind, hclose]
        dsimp only
        rw [htext, ← size_append, ← List.append_assoc, slice_size, ok_bind]
        split_ifs <;> rfl

/-- What decides about a target are the first characters of the text at its position. -/
theorem targetAt_size (u v : List Char) : targetAt (u ++ v) (size u) = .ok (target? v) := by
  cases v with
  | nil =>
    rw [targetAt, peek_size]
    rfl
  | cons c rest =>
    obtain ⟨b, hb, hpeek⟩ := exists_peek u c rest
    rw [targetAt, hpeek, target?]
    dsimp only
    rw [eq_of_mem_bytewise (fun _ => isQuote_of_beyond) hb, hasWord_eq_startsWord (by simp), drop_size,
      startsWord_bytewise (List.forall_iff_forall_mem.1 (by decide)), ok_bind]
    split_ifs with hquote hurl
    · exact quotedAt_size hquote u rest
    · obtain ⟨word, hword, hsize⟩ := exists_word (List.forall_iff_forall_mem.1 (by decide)) hurl
      have htext : u ++ c :: rest = u ++ word ++ (c :: rest).drop 4 := by
        rw [List.append_assoc]
        exact congrArg (u ++ ·) hword
      have hfour : size u + 4 = size (u ++ word) := by
        rw [size_append, hsize]
        rfl
      obtain ⟨w, hw, hskip⟩ := exists_blanks (u ++ word) ((c :: rest).drop 4)
      rw [htext, hfour, hskip, ok_bind, hw, bodyAt_size]
      rfl
    · rfl

/-! ## Options -/

/-- Behind the options the target begins where the text is left. -/
theorem optionsAt_size (u v : List Char) :
    (∃ fault, optionsAt (u ++ v) (size u) = .ok (.error fault) ∧ Directive.optionsOf v = .error fault) ∨
      ∃ options w rest, u ++ v = w ++ rest ∧ optionsAt (u ++ v) (size u) = .ok (.ok (options, size w)) ∧
        Directive.optionsOf v = .ok (options, rest) := by
  obtain ⟨w, hw, hskip⟩ := exists_blanks u v
  have hopen : (bytewise (skipBlanks v)).head? = some '(' ↔ (skipBlanks v).head? = some '(' :=
    head?_bytewise_eq_iff (by decide)
  rw [optionsAt, hskip, ok_bind, hw, peek_size, slice_to_end, ok_bind]
  by_cases hhead : (skipBlanks v).head? = some '('
  · obtain ⟨inner, hinner⟩ := List.head?_eq_some_iff.1 hhead
    have hof : Directive.optionsOf v = match splitAtClose? inner with
        | none => .error .unterminatedOptions
        | some (listed, rest) => (ImportOptions.ofText listed).map fun o => (o, skipBlanks rest) := by
      rw [Directive.optionsOf, hinner]
      rfl
    rw [if_pos (hopen.2 hhead), hinner, hof, find?_cons_of_not (by simp), size_singleton (by decide)]
    rcases find?_close inner with ⟨hnone, hclose⟩ | ⟨raw, rest, rfl, hsome, hclose⟩
    · rw [hnone, hclose]
      exact .inl ⟨_, rfl, rfl⟩
    · have hstart : size w + 1 = size (w ++ ['(']) := by rw [size_append, size_singleton (by decide)]
      have hstop : size w + (1 + size raw) = size (w ++ ['('] ++ raw) := by rw [← Nat.add_assoc, hstart, ← size_append]
      have hbehind : size (w ++ ['('] ++ raw) + 1 = size (w ++ ['('] ++ raw ++ [')']) := by
        rw [size_append _ [')'], size_singleton (by decide)]
      have htext : w ++ '(' :: (raw ++ ')' :: rest) = w ++ ['('] ++ raw ++ ')' :: rest := by simp
      obtain ⟨front, hfront, hnext⟩ := exists_blanks (w ++ ['('] ++ raw ++ [')']) rest
      rw [← List.append_cons] at hfront hnext
      rw [hsome, hclose, Option.map_some]
      dsimp only
      rw [hstart, hstop, hbehind, htext, slice_size, ok_bind, hnext, hfront]
      cases ImportOptions.ofText raw with
      | error fault => exact .inl ⟨fault, rfl, rfl⟩
      | ok options => exact .inr ⟨options, front, _, rfl, rfl, rfl⟩
  · refine .inr ⟨{}, w, skipBlanks v, rfl, if_neg (mt hopen.1 hhead), ?_⟩
    unfold Directive.optionsOf
    split
    · rename_i inner hinner
      exact absurd (congrArg List.head? hinner) hhead
    · rfl

/-! ## Directives -/

/-- The directive at an offset is that of the occurrence there. -/
theorem directiveAt_eq (hw : size w = Directive.keyword.word.length) (hline : o.line = u.count '\n' + 1) :
    directiveAt (u ++ (w ++ o.rest)) (size u) = .ok (if Directive.isLongerWord o then .ok none else
      ((Directive.ofText o.line o.rest).mapError fun fault => (o.line, fault)).map some) := by
  have hstart : size u + Directive.keyword.word.length = size (u ++ w) := by rw [← hw, ← size_append]
  have hlineOf := lineOf_size u (w ++ o.rest)
  rw [← List.append_assoc, ← hline] at hlineOf
  rw [directiveAt, hstart, ← List.append_assoc, holdsAt_eq_any, drop_size, any_head?_bytewise fun _ => isIdent_of_beyond,
    ok_bind, Directive.isLongerWord]
  split_ifs
  · rfl
  · rw [hlineOf, ok_bind, Directive.ofText]
    rcases optionsAt_size (u ++ w) o.rest with ⟨fault, hoptions, hof⟩ | ⟨options, front, rest, htext, hoptions, hof⟩
    · rw [hoptions, hof]
      rfl
    · rw [hoptions, hof, htext, ok_bind]
      dsimp only
      rw [targetAt_size, ok_bind]
      change _ = Except.ok (((match target? rest with
        | none => Except.error DirectiveFault.malformed
        | some target => Except.ok (Directive.mk (String.ofList target) options o.line)).mapError _).map some)
      cases target? rest <;> rfl

theorem mapM_reduceOption {ε α β : Type} (p : α → Bool) (f : α → Except ε β) (items : List α) :
    (items.mapM fun a => if p a then .ok none else (f a).map some).map List.reduceOption =
      (items.filter fun a => !p a).mapM f := by
  induction items with
  | nil => rfl
  | cons a items ih =>
    rw [List.mapM_cons, List.filter_cons]
    generalize (items.mapM fun a => if p a then .ok none else (f a).map some) = later at ih
    by_cases hp : p a = true
    · rw [hp, if_pos rfl, Bool.not_true, if_neg Bool.false_ne_true, ← ih]
      cases later <;> rfl
    · rw [if_neg hp, Bool.eq_false_iff.2 hp, Bool.not_false, if_pos rfl, List.mapM_cons, ← ih]
      cases f a with
      | error e => rfl
      | ok b => cases later <;> rfl

theorem parse_eq (text : List Char) : parse text = .ok (Directive.parse text) := by
  have hcollect : (findKeyword Directive.keyword text >>= collect (directiveAt text)) = .ok ((Directive.keyword.find text).mapM
      fun o => if Directive.isLongerWord o then .ok none else
        ((Directive.ofText o.line o.rest).mapError fun fault => (o.line, fault)).map some) :=
    collect_findKeyword isBytewise_directiveKeyword fun u w o htext hw hline => htext ▸ directiveAt_eq hw hline
  have hfilter := mapM_reduceOption Directive.isLongerWord (fun o => (Directive.ofText o.line o.rest).mapError fun fault =>
    (o.line, fault)) (Directive.keyword.find text)
  rw [Directive.parse, ← hfilter]
  rw [findKeyword_eq_offsets isBytewise_directiveKeyword, ok_bind] at hcollect
  rw [parse, findKeyword_eq_offsets isBytewise_directiveKeyword, ok_bind, hcollect]
  rfl

end StyleTrack.Source.Indexed
