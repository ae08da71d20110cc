/-
Calls by position. An argument is cut out between two separators, so between characters; the depth of parentheses is taken
down only where it is not zero; and what stands between quotes is cut out only of a text that has room for both.
-/
import StyleTrack.Proofs.Indexed.Keyword

namespace StyleTrack.Source.Indexed

open StyleTrack.Text

/-! ## Arguments -/

/-- How far the arguments of a call are split: the depth of parentheses, the start of the current argument and the
arguments before it. -/
structure Splitting where
  depth : Nat
  start : Nat
  args : List (List Char)

/-- Takes one string or one byte. -/
def splitTurn (text : List Char) (i : Nat) (s : Splitting) :
    Checked (Turn Splitting (Option (List (List Char) × Nat))) := do
  let b ← byteAt text i
  if isQuote b then return .next (← skipString text i) s
  else if b = '(' then return .next (i + 1) { s with depth := s.depth + 1 }
  else if b = ')' then
    if s.depth = 0 then return .done (some (s.args ++ [← slice text s.start i], i + 1))
    else return .next (i + 1) { s with depth := ← minus s.depth 1 }
  else if b = ',' ∧ s.depth = 0 then
    return .next (i + 1) { s with start := i + 1, args := s.args ++ [← slice text s.start i] }
  else return .next (i + 1) s

/-- The arguments of the call whose parenthesis is in front of `start` and the position behind the call. -/
def splitArguments (text : List Char) (start : Nat) : Checked (Option (List (List Char) × Nat)) :=
  loop (size text) (splitTurn text) (fun _ _ => none) start ⟨0, start, []⟩

/-- What stands between a quote in front and the last byte of a text, if that is the same quote. -/
def enclosed? (quote : Char) (s : List Char) : Checked (Option (List Char)) := do
  if (← byteAt s (← minus (size s) 1)) = quote then return some (← slice s 1 (← minus (size s) 1))
  else return none

/-- What stands between the quotes of a text that is one string from start to end. -/
def unquoted? (s : List Char) : Checked (Option (List Char)) := do
  match peek s 0 with
  | none => return none
  | some quote =>
    if isQuote quote then
      let stop ← skipString s 0
      if stop = size s ∧ 2 ≤ size s then enclosed? quote s
      else return none
    else return none

/-- The shape of an argument. -/
def classify (raw : List Char) : Checked Argument := do
  let arg := trim raw
  if arg = [] then return .empty
  else
    match ← unquoted? (dropTilde arg) with
    | some inner =>
      if hasInterpolation inner then return .interpolated (String.ofList inner)
      else return .literal (String.ofList inner)
    | none =>
      if arg.head?.any isSigil && (bytewise (arg.dropWhile isSigil)).all isIdent then return .variable (String.ofList arg)
      else if (bytewise arg).all isBare && arg.head? ≠ some '+' then return .bare (String.ofList arg)
      else return .expression (String.ofList arg)

/-! ## References -/

/-- The shapes of the arguments of a call. -/
def shapes (raw : List (List Char)) : Checked (List Argument) :=
  match raw with
  | [only] => if trim only = [] then return [] else [only].mapM classify
  | _ => raw.mapM classify

/-- The reference at an offset of the keyword. -/
def referenceAt (text : List Char) (offset : Nat) : Checked (Except MalformedCall Reference) := do
  let line ← lineOf text offset
  match ← splitArguments text (offset + Reference.keyword.word.length) with
  | none => return .error ⟨line, .unterminated⟩
  | some (raw, _) => return (Reference.ofArguments line (← shapes raw)).mapError fun fault => ⟨line, fault⟩

/-- The references in a text. -/
def scan (text : List Char) : Checked (Except MalformedCall (List Reference)) := do
  let text ← stripComments text
  collect (referenceAt text) (← findKeyword Reference.keyword text)

variable {s u w body : List Char} {c d quote : Char} {p : Char → Bool}

/-! ## Splitting -/

/-- What the arguments of a text are when the text behind `current` has been split. -/
def Splitting.finish (args : List (List Char)) (current text : List Char) (a : Arguments) : List (List Char) × Nat :=
  (args ++ (current ++ a.first) :: a.others, size text - size a.rest)

theorem map_finish_prepend (args : List (List Char)) (current taken text : List Char) (a : Option Arguments) :
    (a.map (Arguments.prepend taken)).map (Splitting.finish args current text) =
      a.map (Splitting.finish args (current ++ taken) text) := by
  rw [Option.map_map]
  congr 1
  funext a
  simp [Splitting.finish, Arguments.prepend]

/-- The current argument is the text from its start to the position, so it can be cut out at any time. -/
theorem loop_splitTurn (depth : Nat) (w v : List Char) (args : List (List Char)) (current : List Char)
    (hw : w = u ++ current) :
    loop (size (w ++ v)) (splitTurn (w ++ v)) (fun _ _ => none) (size w) ⟨depth, size u, args⟩ =
      .ok ((Arguments.split? depth v).map (Splitting.finish args current (w ++ v))) := by
  fun_induction Arguments.split? depth v generalizing u current w args with
  | case1 depth =>
    rw [List.append_nil, loop_of_le (Nat.le_refl _)]
    rfl
  | case2 depth c rest hquote n =>
    rename_i ih
    have hturn : splitTurn (w ++ c :: rest) (size w) ⟨depth, size u, args⟩ =
        .ok (.next (size (w ++ c :: rest.take n)) ⟨depth, size u, args⟩) := by
      rw [splitTurn, byteAt_size (toNat_of_isQuote hquote), ok_bind, if_pos hquote, skipString_size hquote]
      rfl
    have hnext := ih (w ++ c :: rest.take n) args (current ++ c :: rest.take n) (by rw [hw, List.append_assoc])
    rw [List.append_assoc, List.cons_append, List.take_append_drop] at hnext
    rw [loop_of_next (size_lt_size_append w c _) hturn (size_lt_size_append w c _), hnext, map_finish_prepend]
  | case3 depth rest hquote ih =>
    have hturn : splitTurn (w ++ '(' :: rest) (size w) ⟨depth, size u, args⟩ =
        .ok (.next (size w + 1) ⟨depth + 1, size u, args⟩) := by
      simp [splitTurn, byteAt_size, hquote]
    have hnext := ih (w ++ ['(']) args (current ++ ['(']) (by rw [hw, List.append_assoc])
    rw [← List.append_cons] at hnext
    rw [loop_of_ascii (by decide) hturn, hnext, map_finish_prepend]
  | case4 rest hquote hopen =>
    have hturn : splitTurn (w ++ ')' :: rest) (size w) ⟨0, size u, args⟩ =
        .ok (.done (some (args ++ [current], size w + 1))) := by
      have hslice : slice (w ++ ')' :: rest) (size u) (size w) = .ok current := by rw [hw, slice_size]
      simp [splitTurn, byteAt_size, hquote, hslice]
    rw [loop_of_done (size_lt_size_append w ')' rest) hturn, Option.map_some, Splitting.finish, List.append_nil,
      List.append_cons w, size_append _ rest, Nat.add_sub_cancel, size_append w]
    rfl
  | case5 rest outer hquote hopen ih =>
    have hturn : splitTurn (w ++ ')' :: rest) (size w) ⟨outer + 1, size u, args⟩ =
        .ok (.next (size w + 1) ⟨outer, size u, args⟩) := by
      simp [splitTurn, byteAt_size, hquote, minus]
    have hnext := ih (w ++ [')']) args (current ++ [')']) (by rw [hw, List.append_assoc])
    rw [← List.append_cons] at hnext
    rw [loop_of_ascii (by decide) hturn, hnext, map_finish_prepend]
  | case6 depth c rest hquote hopen hclose hcomma ih =>
    simp only [Bool.and_eq_true, decide_eq_true_eq] at hcomma
    obtain ⟨rfl, rfl⟩ := hcomma
    have hturn : splitTurn (w ++ ',' :: rest) (size w) ⟨0, size u, args⟩ =
        .ok (.next (size w + 1) ⟨0, size (w ++ [',']), args ++ [current]⟩) := by
      have hslice : slice (w ++ ',' :: rest) (size u) (size w) = .ok current := by rw [hw, slice_size]
      simp [splitTurn, byteAt_size, hquote, hslice, size_append w [',']]
      rfl
    have hnext := ih (w ++ [',']) (args ++ [current]) [] (List.append_nil _).symm
    rw [← List.append_cons] at hnext
    rw [loop_of_ascii (by decide) hturn, hnext, Option.map_map]
    congr 2
    funext a
    simp [Splitting.finish, Arguments.toList]
  | case7 depth c rest hquote hopen hclose hcomma ih =>
    -- What marks nothing may be longer than a byte, and none of its bytes marks anything.
    have hturn : ∀ i d s, d ∈ bytewise [c] → (bytewise (w ++ c :: rest)).drop i = d :: s →
        splitTurn (w ++ c :: rest) i ⟨depth, size u, args⟩ = .ok (.next (i + 1) ⟨depth, size u, args⟩) := by
      intro i d s hd hdrop
      have hquote' : isQuote d = false := by
        rw [eq_of_mem_bytewise (fun _ => isQuote_of_beyond) hd, Bool.eq_false_iff.2 hquote]
      have hcomma' : ¬ (d = ',' ∧ depth = 0) := by
        rintro ⟨rfl, hdepth⟩
        obtain rfl := eq_of_ascii_mem_bytewise (by decide) hd
        exact hcomma (by simp [hdepth])
      simp [splitTurn, byteAt_of_drop hdrop, hquote', ne_of_mem_bytewise (by decide) hopen hd,
        ne_of_mem_bytewise (by decide) hclose hd, hcomma']
    have hnext := ih (w ++ [c]) args (current ++ [c]) (by rw [hw, List.append_assoc])
    rw [← List.append_cons] at hnext
    rw [loop_of_plain hturn, hnext, map_finish_prepend]

theorem splitArguments_size (u v : List Char) :
    splitArguments (u ++ v) (size u) =
      .ok ((Arguments.split? 0 v).map fun a => (a.toList, size (u ++ v) - size a.rest)) := by
  rw [splitArguments, loop_splitTurn 0 u v [] [] (List.append_nil u).symm]
  rfl

/-! ## Shapes -/

theorem all_bytewise (hp : ∀ c, 128 ≤ c.toNat → p c = false) (s : List Char) : (bytewise s).all p = s.all p := by
  induction s using bytewise_induction with
  | nil => rfl
  | ascii c s hc ih => rw [bytewise_cons_of_ascii hc, List.all_cons, List.all_cons, ih]
  | beyond c s hc ih =>
    obtain ⟨d, more, hbytes, hd⟩ := exists_bytewise_cons hc s
    rw [hbytes, List.all_cons, List.all_cons, hp d hd, hp c hc, Bool.false_and, Bool.false_and]

theorem isBare_of_beyond (hc : 128 ≤ c.toNat) : isBare c = false := by
  simp [isBare, isIdent_of_beyond hc, ne_of_beyond hc (d := '.') (by decide), ne_of_beyond hc (d := '/') (by decide),
    ne_of_beyond hc (d := '+') (by decide)]

theorem getLast?_bytewise_eq_iff (hd : d.toNat < 128) : (bytewise s).getLast? = some d ↔ s.getLast? = some d := by
  obtain rfl | ⟨s, c, rfl⟩ := List.eq_nil_or_concat s
  · exact Iff.rfl
  · have hbytes := bytewise_ne_nil (s := [c]) (by simp)
    rw [List.concat_eq_append, bytewise_append, List.getLast?_append_of_ne_nil _ hbytes, List.getLast?_concat]
    by_cases hc : c.toNat < 128
    · rw [bytewise_singleton hc, List.getLast?_singleton]
    · have hbeyond : 128 ≤ c.toNat := Nat.le_of_not_lt hc
      have hlast := beyond_of_mem_bytewise hbeyond _ (List.getLast_mem hbytes)
      rw [List.getLast?_eq_some_getLast hbytes, Option.some.injEq, Option.some.injEq]
      exact iff_of_false (ne_of_beyond hlast hd) (ne_of_beyond hbeyond hd)

/-- The byte in front of a position tells whether the text in front of it ends in an ASCII character. -/
theorem exists_byteAt_sub_one (hne : u ≠ []) (v : List Char) :
    ∃ b, byteAt (u ++ v) (size u - 1) = .ok b ∧ ∀ d : Char, d.toNat < 128 → (b = d ↔ u.getLast? = some d) := by
  refine ⟨_, byteAt_size_sub_one hne v, fun d hd => ?_⟩
  rw [← getLast?_bytewise_eq_iff hd, List.getLast?_eq_some_getLast (bytewise_ne_nil hne), Option.some.injEq]

/-- What ends in a quote behind another one has room for both; a quote alone is not asked about. -/
theorem enclosed?_eq (hquote : isQuote quote = true) (hbody : body ≠ []) :
    enclosed? quote (quote :: body) = .ok (if body.getLast? = some quote then some body.dropLast else none) := by
  have hascii := toNat_of_isQuote hquote
  have hone : 1 ≤ size (quote :: body) := size_pos (by simp)
  obtain ⟨b, hbyte, hb⟩ := exists_byteAt_sub_one (u := quote :: body) (by simp) []
  rw [List.append_nil] at hbyte
  have hlast : b = quote ↔ body.getLast? = some quote := by
    rw [hb quote hascii, List.getLast?_cons_of_ne_nil hbody]
  rw [enclosed?, minus_of_le hone, ok_bind, hbyte, ok_bind, ok_bind]
  by_cases hends : body.getLast? = some quote
  · obtain ⟨inner, rfl⟩ := List.getLast?_eq_some_iff.1 hends
    have hsize : size (quote :: (inner ++ [quote])) - 1 = size ([quote] ++ inner) := by
      rw [← List.cons_append, size_append, size_singleton hascii, Nat.add_sub_cancel]
      rfl
    have hslice : slice (quote :: (inner ++ [quote])) 1 (size ([quote] ++ inner)) = .ok inner := by
      have hcut := slice_size [quote] inner [quote]
      rwa [size_singleton hascii, List.append_assoc] at hcut
    rw [if_pos (hlast.2 hends), if_pos hends, hsize, hslice, List.dropLast_concat]
    rfl
  · rw [if_neg (mt hlast.1 hends), if_neg hends]
    rfl

theorem unquoted?_eq (s : List Char) : unquoted? s = .ok (Source.unquoted? s) := by
  cases s with
  | nil => rfl
  | cons quote body =>
    obtain ⟨d, hd, hpeek⟩ := exists_peek [] quote body
    rw [List.nil_append, size_nil] at hpeek
    rw [unquoted?, hpeek, Source.unquoted?]
    dsimp only
    rw [eq_of_mem_bytewise (fun _ => isQuote_of_beyond) hd]
    by_cases hquote : isQuote quote = true
    · have hascii := toNat_of_isQuote hquote
      rw [bytewise_singleton hascii] at hd
      obtain rfl := (List.mem_singleton.1 hd).symm
      have hstop : skipString (quote :: body) 0 = .ok (size (quote :: body.take (quotedLength quote body))) :=
        skipString_size hquote [] body
      rw [if_pos hquote, hstop, ok_bind, hquote, Bool.true_and]
      by_cases hall : quotedLength quote body = body.length
      · have hsize : size (quote :: body) = 1 + size body := by rw [size_cons, size_singleton hascii]
        rw [hall, List.take_length]
        by_cases hbody : body = []
        · rw [hbody, if_neg (by rw [size_singleton hascii]; decide)]
          rfl
        · have hpos := size_pos hbody
          rw [if_pos ⟨rfl, by omega⟩, enclosed?_eq hquote hbody]
          simp
      · -- What is left behind the string makes the text longer.
        have hle := quotedLength_le quote body
        obtain ⟨c, tail, htail⟩ := List.exists_cons_of_ne_nil (l := body.drop (quotedLength quote body)) fun hnil => by
          rw [List.drop_eq_nil_iff] at hnil
          exact hall (Nat.le_antisymm hle hnil)
        have hlt := size_lt_size_append (quote :: body.take (quotedLength quote body)) c tail
        rw [← htail, List.cons_append, List.take_append_drop] at hlt
        rw [if_neg fun h => hlt.ne h.1, decide_eq_false hall, Bool.false_and]
        rfl
    · rw [if_neg hquote, Bool.eq_false_iff.2 hquote]
      rfl

theorem classify_eq (raw : List Char) : classify raw = .ok (Argument.classify raw) := by
  rw [classify, Argument.classify, unquoted?_eq, ok_bind, all_bytewise fun _ => isIdent_of_beyond,
    all_bytewise fun _ => isBare_of_beyond]
  by_cases hempty : trim raw = []
  · rw [if_pos hempty, if_pos hempty]
    rfl
  · rw [if_neg hempty, if_neg hempty]
    cases Source.unquoted? (dropTilde (trim raw)) with
    | some inner =>
      dsimp only
      split_ifs <;> rfl
    | none =>
      dsimp only
      split_ifs <;> rfl

/-! ## Calls -/

theorem shapes_eq (raw : List (List Char)) : shapes raw = .ok (Reference.shapes raw) := by
  have hmap : ∀ raw : List (List Char), raw.mapM classify = .ok (raw.map Argument.classify) := by
    intro raw
    rw [funext classify_eq]
    exact List.mapM_pure
  rcases raw with _ | ⟨only, _ | ⟨second, others⟩⟩
  · exact hmap []
  · rw [shapes, hmap, Reference.shapes]
    split <;> rfl
  · exact hmap (only :: second :: others)

theorem referenceAt_eq {o : Occurrence} (hw : size w = Reference.keyword.word.length) (hline : o.line = u.count '\n' + 1) :
    referenceAt (u ++ (w ++ o.rest)) (size u) = .ok (Reference.ofOccurrence o) := by
  rw [referenceAt, lineOf_size, ok_bind, ← hw, ← size_append, ← List.append_assoc, splitArguments_size, ok_bind, ← hline,
    Reference.ofOccurrence]
  cases Arguments.split? 0 o.rest with
  | none => rfl
  | some args =>
    rw [Option.map_some]
    dsimp only
    rw [shapes_eq]
    rfl

theorem scan_eq (text : List Char) : scan text = .ok (Reference.scan text) := by
  rw [scan, stripComments_eq, ok_bind, Reference.scan]
  refine collect_findKeyword isBytewise_referenceKeyword fun u w o htext hw hline => ?_
  rw [htext, referenceAt_eq hw hline]

end StyleTrack.Source.Indexed
