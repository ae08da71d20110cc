/-
The pass that blanks comments out, over bytes. Every character that decides anything is ASCII, and no byte of another
character is. So a scanner that looks at one byte at a time, and knows nothing of characters, finds the lexemes of the
text: they begin and end where characters do, and what it overwrites leaves valid UTF-8.
-/
import StyleTrack.Proofs.Source.Code
import StyleTrack.Proofs.Text.Utf8

namespace StyleTrack.Source

open StyleTrack.Text

/-! ## Bytes as characters -/

/-- A byte as the character of the same number. -/
def charOf (b : UInt8) : Char := Char.ofNat b.toNat

/-- The bytes of a text as characters. -/
def bytewise (text : List Char) : List Char := (Utf8.encode text).map charOf

/-- What each character of a lexeme is. Of `url(…)` with an unquoted body the body alone is opaque. -/
def Lexeme.kinds (l : Lexeme) : List Kind :=
  if l.kind = .url then List.replicate 4 .plain ++ List.replicate (l.text.length - 4) .url
  else List.replicate l.text.length l.kind

/-- What the pass takes each byte for. -/
def byteKinds (bytes : List UInt8) : List Kind :=
  (segment commentStep none (bytes.map charOf)).flatMap Lexeme.kinds

/-- What the pass puts in place of a byte. -/
def blankedByte (kind : Kind) (b : UInt8) : UInt8 := if kind = .comment ∧ b ≠ 0x0A then 0x20 else b

/-- The bytes with those of comments overwritten in place. -/
def stripBytes (bytes : List UInt8) : List UInt8 := List.zipWith blankedByte (byteKinds bytes) bytes

/-! ## Characters beyond ASCII -/

section Beyond

variable {c d : Char} (hc : 128 ≤ c.toNat)
include hc

theorem ne_of_beyond (hd : d.toNat < 128) : c ≠ d := by
  rintro rfl
  omega

theorem isQuote_of_beyond : isQuote c = false := by
  simp [isQuote, ne_of_beyond hc (d := '"') (by decide), ne_of_beyond hc (d := '\'') (by decide)]

theorem not_le_of_beyond {high : UInt32} (hhigh : high.toNat < 128) : ¬ c.val ≤ high := by
  intro hle
  have hval : c.val.toNat ≤ high.toNat := UInt32.le_iff_toNat_le.1 hle
  have hbeyond : 128 ≤ c.val.toNat := hc
  omega

theorem isUpper_of_beyond : c.isUpper = false := Bool.eq_false_iff.2 fun h =>
  have hrange : 'A'.val ≤ c.val ∧ c.val ≤ 'Z'.val := of_decide_eq_true h
  not_le_of_beyond hc (by decide) hrange.2

theorem isLower_of_beyond : c.isLower = false := Bool.eq_false_iff.2 fun h =>
  have hhigh : c.val ≤ 'z'.val := of_decide_eq_true (Bool.and_eq_true_iff.1 h).2
  not_le_of_beyond hc (by decide) hhigh

theorem isDigit_of_beyond : c.isDigit = false := Bool.eq_false_iff.2 fun h =>
  have hhigh : c.val ≤ '9'.val := of_decide_eq_true (Bool.and_eq_true_iff.1 h).2
  not_le_of_beyond hc (by decide) hhigh

theorem isIdent_of_beyond : isIdent c = false := by
  have halpha : c.isAlpha = false := Bool.or_eq_false_iff.2 ⟨isUpper_of_beyond hc, isLower_of_beyond hc⟩
  simp [isIdent, Char.isAlphanum, halpha, isDigit_of_beyond hc, ne_of_beyond hc (d := '-') (by decide),
    ne_of_beyond hc (d := '_') (by decide)]

theorem toLower_of_beyond : c.toLower = c := by
  refine (toLower_cases c).resolve_right fun h => ?_
  rw [isUpper_of_beyond hc] at h
  cases h.1

theorem isAsciiBlank_of_beyond : isAsciiBlank c = false := by
  rw [Bool.eq_false_iff]
  intro h
  simp only [isAsciiBlank, Bool.or_eq_true, decide_eq_true_eq] at h
  rcases h with (((rfl | rfl) | rfl) | rfl) | rfl <;> revert hc <;> decide

theorem startsWord_of_beyond {w s : List Char} (hw : ∀ d ∈ w, d.toNat < 128) (hne : w ≠ []) :
    startsWord w (c :: s) = false := by
  obtain ⟨d, w, rfl⟩ := List.exists_cons_of_ne_nil hne
  rw [startsWord, toLower_of_beyond hc, decide_eq_false (ne_of_beyond hc (hw d List.mem_cons_self)), Bool.false_and]

theorem commentStep_of_beyond (before : Option Char) (s : List Char) : commentStep before c s = (.plain, 0) := by
  have hurl : startsWord ['u', 'r', 'l', '('] (c :: s) = false :=
    startsWord_of_beyond hc (List.forall_iff_forall_mem.1 (by decide)) (by decide)
  simp [commentStep, urlStep, opensUrl, isQuote_of_beyond hc, ne_of_beyond hc (d := '/') (by decide), hurl]

end Beyond

/-! ## The bytes of a character -/

variable {before before' : Option Char} {c quote : Char} {body rest s t : List Char} {kind : Kind}

theorem toNat_charOf (b : UInt8) : (charOf b).toNat = b.toNat :=
  Utf8.val_toNat_ofNat (.inl (Nat.lt_of_lt_of_le b.toNat_lt (by decide)))

@[simp]
theorem bytewise_nil : bytewise [] = [] := rfl

theorem bytewise_append (s t : List Char) : bytewise (s ++ t) = bytewise s ++ bytewise t := by
  simp [bytewise, Utf8.encode]

theorem length_bytewise (s : List Char) : (bytewise s).length = (Utf8.encode s).length := List.length_map _

theorem bytewise_singleton (h : c.toNat < 128) : bytewise [c] = [c] := by
  have hval : c.val.toNat < 128 := h
  simp only [bytewise, Utf8.encode, List.flatMap_singleton, String.utf8EncodeChar, if_pos (Nat.le_of_lt_succ hval),
    List.map_cons, List.map_nil, charOf, Utf8.toNat_ofNat (Nat.lt_trans hval (by decide))]
  exact congrArg (fun c => [c]) (Char.ofNat_toNat c)

theorem bytewise_cons_of_ascii (h : c.toNat < 128) (s : List Char) : bytewise (c :: s) = c :: bytewise s := by
  rw [← List.singleton_append, bytewise_append, bytewise_singleton h]
  rfl

theorem bytewise_cons (c : Char) (s : List Char) : bytewise (c :: s) = bytewise [c] ++ bytewise s := bytewise_append [c] s

theorem bytewise_ne_nil (h : s ≠ []) : bytewise s ≠ [] := by
  obtain ⟨c, s, rfl⟩ := List.exists_cons_of_ne_nil h
  obtain ⟨b, more, hbytes, -⟩ := Utf8.step_utf8EncodeChar c []
  simp [bytewise, Utf8.encode, hbytes]

/-- No byte of a character beyond ASCII is ASCII. -/
theorem beyond_of_mem_bytewise (h : 128 ≤ c.toNat) : ∀ d ∈ bytewise [c], 128 ≤ d.toNat := by
  intro d hd
  simp only [bytewise, Utf8.encode, List.flatMap_singleton, List.mem_map] at hd
  obtain ⟨b, hb, rfl⟩ := hd
  rw [toNat_charOf]
  exact Utf8.le_of_mem_utf8EncodeChar h hb

theorem exists_bytewise_cons (h : 128 ≤ c.toNat) (s : List Char) :
    ∃ d more, bytewise (c :: s) = d :: more ∧ 128 ≤ d.toNat := by
  obtain ⟨d, more, hbytes⟩ := List.exists_cons_of_ne_nil (bytewise_ne_nil (s := [c]) (by simp))
  refine ⟨d, more ++ bytewise s, ?_, beyond_of_mem_bytewise h d (hbytes ▸ List.mem_cons_self)⟩
  rw [bytewise_cons, hbytes, List.cons_append]

/-- The bytes of a text one character at a time: a character is a byte of its own, or none of its bytes is ASCII. -/
theorem bytewise_induction {P : List Char → Prop} (nil : P [])
    (ascii : ∀ c s, c.toNat < 128 → P s → P (c :: s)) (beyond : ∀ c s, 128 ≤ c.toNat → P s → P (c :: s))
    (s : List Char) : P s := by
  induction s with
  | nil => exact nil
  | cons c s ih =>
    by_cases hc : c.toNat < 128
    · exact ascii c s hc ih
    · exact beyond c s (Nat.le_of_not_lt hc) ih

theorem mem_bytewise_iff {d : Char} (hd : d.toNat < 128) : d ∈ bytewise s ↔ d ∈ s := by
  induction s using bytewise_induction with
  | nil => exact Iff.rfl
  | ascii c s hc ih => rw [bytewise_cons_of_ascii hc, List.mem_cons, List.mem_cons, ih]
  | beyond c s hc ih =>
    have hbytes : d ∉ bytewise [c] := fun hmem => ne_of_beyond (beyond_of_mem_bytewise hc d hmem) hd rfl
    rw [← List.singleton_append, bytewise_append, List.mem_append, List.mem_append, ih]
    simp [hbytes, (ne_of_beyond hc hd).symm]

/-- What a text starts with is seen in its first byte. -/
theorem head?_bytewise (s : List Char) : (bytewise s).head? = s.head? ∨
    ∃ c ∈ s.head?, ∃ d ∈ (bytewise s).head?, 128 ≤ c.toNat ∧ 128 ≤ d.toNat := by
  cases s with
  | nil => exact .inl rfl
  | cons c s =>
    by_cases hc : c.toNat < 128
    · rw [bytewise_cons_of_ascii hc]
      exact .inl rfl
    · obtain ⟨d, more, hbytes, hd⟩ := exists_bytewise_cons (Nat.le_of_not_lt hc) s
      rw [hbytes]
      exact .inr ⟨c, rfl, d, rfl, Nat.le_of_not_lt hc, hd⟩

theorem head?_bytewise_eq_iff {d : Char} (hd : d.toNat < 128) : (bytewise s).head? = some d ↔ s.head? = some d := by
  rcases head?_bytewise s with heq | ⟨c, hc, b, hb, hbeyond, hbeyond'⟩
  · rw [heq]
  · rw [Option.mem_def.1 hc, Option.mem_def.1 hb, Option.some.injEq, Option.some.injEq]
    exact iff_of_false (ne_of_beyond hbeyond' hd) (ne_of_beyond hbeyond hd)

theorem any_head?_bytewise {p : Char → Bool} (hp : ∀ c, 128 ≤ c.toNat → p c = false) (s : List Char) :
    (bytewise s).head?.any p = s.head?.any p := by
  rcases head?_bytewise s with heq | ⟨c, hc, b, hb, hbeyond, hbeyond'⟩
  · rw [heq]
  · rw [Option.mem_def.1 hc, Option.mem_def.1 hb, Option.any_some, Option.any_some, hp c hbeyond, hp b hbeyond']

/-- What only ASCII characters have is seen of the character in front of a text in the last byte of it. -/
theorem any_lastOf_bytewise {p : Char → Bool} (hp : ∀ c, 128 ≤ c.toNat → p c = false)
    (h : before'.any p = before.any p) (s : List Char) : (lastOf before' (bytewise s)).any p = (lastOf before s).any p := by
  induction s using List.reverseRecOn with
  | nil => exact h
  | append_singleton s c ih =>
    rw [bytewise_append, lastOf_append, lastOf_append, lastOf_cons, lastOf_nil]
    by_cases hc : c.toNat < 128
    · rw [bytewise_singleton hc, lastOf_cons, lastOf_nil]
    · have hbeyond : 128 ≤ c.toNat := Nat.le_of_not_lt hc
      rw [any_lastOf (bytewise_ne_nil (by simp)) fun d hd =>
        hp d (beyond_of_mem_bytewise hbeyond d (List.mem_of_getLast? hd)), Option.any_some, hp c hbeyond]

/-! ## Lengths in bytes -/

theorem length_bytewise_cons_of_ascii (h : c.toNat < 128) (s : List Char) :
    (bytewise (c :: s)).length = (bytewise s).length + 1 := by rw [bytewise_cons_of_ascii h, List.length_cons]

/-- Whether a character beyond ASCII counts as one character, whatever follows it. -/
def CountsBeyond (length : List Char → Nat) : Prop := ∀ c s, 128 ≤ c.toNat → length (c :: s) = length s + 1

namespace CountsBeyond

variable {length : List Char → Nat} (h : CountsBeyond length)
include h

theorem append (hs : ∀ d ∈ s, 128 ≤ d.toNat) (rest : List Char) : length (s ++ rest) = s.length + length rest := by
  induction s with
  | nil => simp
  | cons c s ih =>
    rw [List.cons_append, h _ _ (hs c List.mem_cons_self), ih fun d hd => hs d (List.mem_cons_of_mem _ hd),
      List.length_cons, Nat.add_right_comm]

/-- So it counts with all of its bytes. -/
theorem bytewise_cons (hc : 128 ≤ c.toNat) (hs : length (bytewise s) = (bytewise (s.take (length s))).length) :
    length (bytewise (c :: s)) = (bytewise ((c :: s).take (length (c :: s)))).length := by
  rw [h c s hc, List.take_succ_cons, Source.bytewise_cons, Source.bytewise_cons c (s.take _),
    h.append (beyond_of_mem_bytewise hc), hs, List.length_append]

end CountsBeyond

theorem toNat_of_isQuote (h : isQuote quote = true) : quote.toNat < 128 := by
  simp only [isQuote, Bool.or_eq_true, decide_eq_true_eq] at h
  rcases h with rfl | rfl <;> decide

theorem countsBeyond_quotedLength (hquote : isQuote quote = true) : CountsBeyond (quotedLength quote) := by
  intro c s hc
  have hescape : c ≠ '\\' := ne_of_beyond hc (by decide)
  exact quotedLength_cons_of_ne (ne_of_beyond hc (toNat_of_isQuote hquote)) fun heq => absurd heq hescape

theorem countsBeyond_closeLength : CountsBeyond closeLength := by
  intro c s hc
  rw [closeLength, if_neg (ne_of_beyond hc (by decide))]

theorem countsBeyond_blockLength : CountsBeyond blockLength := by
  intro c s hc
  rw [blockLength]
  rintro rest rfl
  exact absurd rfl (ne_of_beyond hc (d := '*') (by decide))

theorem quotedLength_bytewise (hquote : isQuote quote = true) (s : List Char) :
    quotedLength quote (bytewise s) = (bytewise (s.take (quotedLength quote s))).length := by
  have hescape : ('\\' : Char).toNat < 128 := by decide
  have hcounts := countsBeyond_quotedLength hquote
  fun_induction quotedLength quote s with
  | case1 => rfl
  | case2 d rest ih =>
    -- The backslash takes the first byte of the character, and the others are not ASCII.
    rw [bytewise_cons_of_ascii hescape, List.take_succ_cons, List.take_succ_cons,
      length_bytewise_cons_of_ascii hescape, bytewise_cons, bytewise_cons d (rest.take _), List.length_append, ← ih]
    obtain ⟨x, xs, hd⟩ := List.exists_cons_of_ne_nil (bytewise_ne_nil (s := [d]) (by simp))
    have hbeyond : ∀ y ∈ xs, 128 ≤ y.toNat := by
      intro y hy
      by_cases hlow : d.toNat < 128
      · rw [bytewise_singleton hlow] at hd
        rw [← (List.cons.inj hd).2] at hy
        cases hy
      · exact beyond_of_mem_bytewise (Nat.le_of_not_lt hlow) y (hd ▸ List.mem_cons_of_mem _ hy)
    rw [hd, List.cons_append, quotedLength, hcounts.append hbeyond, List.length_cons]
    omega
  | case3 rest hend =>
    rw [bytewise_cons_of_ascii (toNat_of_isQuote hquote), quotedLength_self hquote, List.take_succ_cons,
      length_bytewise_cons_of_ascii (toNat_of_isQuote hquote)]
    rfl
  | case4 c rest hend hne ih =>
    have hlone : c = '\\' → rest = [] := by
      intro heq
      cases rest with
      | nil => rfl
      | cons d rest => exact absurd rfl (hend d rest heq)
    rw [← quotedLength_cons_of_ne hne hlone]
    by_cases hc : c.toNat < 128
    · rw [quotedLength_cons_of_ne hne hlone, bytewise_cons_of_ascii hc, List.take_succ_cons,
        length_bytewise_cons_of_ascii hc, ← ih]
      exact quotedLength_cons_of_ne hne fun heq => by rw [hlone heq, bytewise_nil]
    · exact hcounts.bytewise_cons (Nat.le_of_not_lt hc) ih

theorem closeLength_bytewise (s : List Char) : closeLength (bytewise s) = (bytewise (s.take (closeLength s))).length := by
  induction s using bytewise_induction with
  | nil => rfl
  | ascii c s hc ih =>
    rw [bytewise_cons_of_ascii hc, closeLength, closeLength]
    split
    · rw [List.take_succ_cons, length_bytewise_cons_of_ascii hc]
      rfl
    · rw [List.take_succ_cons, length_bytewise_cons_of_ascii hc, ih]
  | beyond c s hc ih => exact countsBeyond_closeLength.bytewise_cons hc ih

theorem blockLength_bytewise (s : List Char) : blockLength (bytewise s) = (bytewise (s.take (blockLength s))).length := by
  have hstar : ('*' : Char).toNat < 128 := by decide
  have hslash : ('/' : Char).toNat < 128 := by decide
  fun_induction blockLength s with
  | case1 => rfl
  | case2 rest =>
    rw [bytewise_cons_of_ascii hstar, bytewise_cons_of_ascii hslash, blockLength]
    rfl
  | case3 c rest hend ih =>
    have hlength : blockLength (c :: rest) = blockLength rest + 1 := by rw [blockLength]; exact hend
    by_cases hc : c.toNat < 128
    · rw [List.take_succ_cons, length_bytewise_cons_of_ascii hc, ← ih, bytewise_cons_of_ascii hc, blockLength]
      -- A slash is the first byte of the rest only if it is the first character.
      rintro tail rfl hrest
      obtain ⟨tail', hrest'⟩ := List.head?_eq_some_iff.1 ((head?_bytewise_eq_iff hslash).1 (by rw [hrest]; rfl))
      exact hend tail' rfl hrest'
    · rw [← hlength]
      exact countsBeyond_blockLength.bytewise_cons (Nat.le_of_not_lt hc) ih

theorem startsWord_bytewise {w : List Char} (hw : ∀ d ∈ w, d.toNat < 128) (s : List Char) :
    startsWord w (bytewise s) = startsWord w s := by
  induction s using bytewise_induction generalizing w with
  | nil => rfl
  | ascii c s hc ih =>
    rw [bytewise_cons_of_ascii hc]
    cases w with
    | nil => simp [startsWord]
    | cons d w => rw [startsWord, startsWord, ih fun x hx => hw x (List.mem_cons_of_mem _ hx)]
  | beyond c s hc ih =>
    cases w with
    | nil => simp [startsWord]
    | cons d w =>
      obtain ⟨x, xs, hbytes, hx⟩ := exists_bytewise_cons hc s
      rw [hbytes, startsWord_of_beyond hx hw (by simp), startsWord_of_beyond hc hw (by simp)]

theorem takeWhile_bytewise {p : Char → Bool} (hp : ∀ c, 128 ≤ c.toNat → p c = false) (s : List Char) :
    (bytewise s).takeWhile p = bytewise (s.takeWhile p) := by
  induction s using bytewise_induction with
  | nil => rfl
  | ascii c s hc ih =>
    rw [bytewise_cons_of_ascii hc]
    by_cases hpc : p c = true
    · rw [List.takeWhile_cons_of_pos hpc, List.takeWhile_cons_of_pos hpc, ih, bytewise_cons_of_ascii hc]
    · rw [List.takeWhile_cons_of_neg hpc, List.takeWhile_cons_of_neg hpc, bytewise_nil]
  | beyond c s hc ih =>
    obtain ⟨d, more, hbytes, hd⟩ := exists_bytewise_cons hc s
    rw [hbytes, List.takeWhile_cons_of_neg (by simp [hp d hd]), List.takeWhile_cons_of_neg (by simp [hp c hc]),
      bytewise_nil]

theorem skipBlanks_bytewise (s : List Char) : skipBlanks (bytewise s) = bytewise (skipBlanks s) := by
  have hwhole := List.takeWhile_append_dropWhile (p := isAsciiBlank) (l := bytewise s)
  have hparts : bytewise (s.takeWhile isAsciiBlank) ++ bytewise (s.dropWhile isAsciiBlank) = bytewise s := by
    rw [← bytewise_append, List.takeWhile_append_dropWhile]
  rw [takeWhile_bytewise fun _ => isAsciiBlank_of_beyond] at hwhole
  exact List.append_cancel_left (hwhole.trans hparts.symm)

theorem rawUrlLength?_bytewise (s : List Char) :
    rawUrlLength? (bytewise s) = (rawUrlLength? s).map fun n => (bytewise (s.take n)).length := by
  rw [rawUrlLength?, rawUrlLength?, skipBlanks_bytewise, any_head?_bytewise fun _ => isQuote_of_beyond,
    closeLength_bytewise]
  split <;> rfl

/-! ## Lexemes in bytes -/

theorem opensUrl_bytewise (h : before'.any isIdent = before.any isIdent) (s : List Char) :
    opensUrl before' (bytewise s) = opensUrl before s := by
  rw [opensUrl, opensUrl, startsWord_bytewise (List.forall_iff_forall_mem.1 (by decide)), h]

theorem ascii_of_startsWord {w : List Char} (hw : ∀ d ∈ w, d.toNat < 128) (hlength : s.length ≤ w.length)
    (h : startsWord w s = true) : ∀ d ∈ s, d.toNat < 128 := by
  induction s generalizing w with
  | nil => simp
  | cons c s ih =>
    obtain ⟨x, w, rfl⟩ := List.exists_cons_of_length_pos (Nat.lt_of_lt_of_le (Nat.succ_pos _) hlength)
    have hc : c.toNat < 128 := by
      by_contra hnot
      rw [startsWord_of_beyond (Nat.le_of_not_lt hnot) hw (by simp)] at h
      cases h
    rw [startsWord, Bool.and_eq_true] at h
    exact List.forall_mem_cons.2
      ⟨hc, ih (fun d hd => hw d (List.mem_cons_of_mem _ hd)) (Nat.le_of_succ_le_succ hlength) h.2⟩

theorem bytewise_of_ascii (h : ∀ d ∈ s, d.toNat < 128) : bytewise s = s := by
  induction s with
  | nil => rfl
  | cons c s ih =>
    rw [bytewise_cons_of_ascii (h c List.mem_cons_self), ih fun d hd => h d (List.mem_cons_of_mem _ hd)]

theorem CodeLexeme.bytewise (hc : c.toNat < 128) (hbefore : before'.any isIdent = before.any isIdent)
    (h : CodeLexeme before c body rest kind) : CodeLexeme before' c (bytewise body) (bytewise rest) kind := by
  -- The word in front of a body is ASCII, so it is its own bytes.
  have hword : ∀ word : List Char, word.length = 3 → opensUrl before (c :: word) = true →
      Source.bytewise word = word ∧ opensUrl before' (c :: word) = true := by
    intro word hlength hopens
    have hascii := ascii_of_startsWord (s := c :: word) (List.forall_iff_forall_mem.1 (by decide)) (by simp [hlength])
      (Bool.and_eq_true_iff.1 hopens).1
    rw [← opensUrl_bytewise hbefore, bytewise_of_ascii hascii] at hopens
    exact ⟨bytewise_of_ascii fun d hd => hascii d (List.mem_cons_of_mem _ hd), hopens⟩
  cases h with
  | url word inner rest length opens raw =>
    obtain ⟨hbytes, hopens⟩ := hword word length opens
    rw [bytewise_append, hbytes]
    refine .url word _ _ length hopens ?_
    rw [← bytewise_append, rawUrlLength?_bytewise, raw, Option.map_some, List.take_left]
  | opening body rest length opens quoted =>
    obtain ⟨hbytes, hopens⟩ := hword body length opens
    rw [hbytes]
    exact .opening body _ length hopens (by rw [rawUrlLength?_bytewise, quoted]; rfl)
  | single rest opens =>
    refine .single _ ?_
    rw [← bytewise_cons_of_ascii hc, opensUrl_bytewise hbefore]
    exact opens

theorem SourceLexeme.bytewise (hc : c.toNat < 128) (hbefore : before'.any isIdent = before.any isIdent)
    (h : SourceLexeme before c body rest kind) : SourceLexeme before' c (bytewise body) (bytewise rest) kind := by
  cases h with
  | quoted body rest opens length =>
    refine .quoted _ _ opens ?_
    rw [← bytewise_append, quotedLength_bytewise opens, length, List.take_left]
  | block inner rest opens length =>
    rw [bytewise_cons_of_ascii (by decide)]
    refine .block _ _ opens ?_
    rw [← bytewise_append, blockLength_bytewise, length, List.take_left]
  | line inner rest opens free ends =>
    rw [bytewise_cons_of_ascii (by decide)]
    refine .line _ _ opens (fun hmem => free ((mem_bytewise_iff (by decide)).1 hmem)) fun d hd => ?_
    cases rest with
    | nil => cases hd
    | cons x rest =>
      obtain rfl : x = '\n' := ends x rfl
      rw [bytewise_cons_of_ascii (by decide)] at hd
      exact (Option.some.inj hd).symm
  | code body rest kind unquoted uncommented code =>
    refine .code _ _ kind unquoted (fun heq d hd => ?_) (code.bytewise hc hbefore)
    have hnot : ∀ x : Char, x.toNat < 128 → (∀ d ∈ (body ++ rest).head?, d ≠ x) → d ≠ x := by
      rintro x hx hne rfl
      rw [← bytewise_append] at hd
      exact hne d ((head?_bytewise_eq_iff hx).1 hd) rfl
    exact ⟨hnot '*' (by decide) fun d hd => (uncommented heq d hd).1,
      hnot '/' (by decide) fun d hd => (uncommented heq d hd).2⟩

/-- The kind of each byte of a text that follows the character `before`, from the lexemes of its characters. -/
def kindsAfter (before : Option Char) (text : List Char) : List Kind :=
  (segment commentStep before text).flatMap fun l => (Lexeme.mk l.kind (bytewise l.text)).kinds

theorem kindsAfter_of_step (h : commentStep before c (body ++ rest) = (kind, body.length)) :
    kindsAfter before (c :: body ++ rest) =
      (Lexeme.mk kind (bytewise (c :: body))).kinds ++ kindsAfter (lastOf before (c :: body)) rest := by
  rw [kindsAfter, segment_append_of_step h, List.flatMap_cons]
  rfl

theorem kinds_of_ne_url (h : kind ≠ .url) : (Lexeme.mk kind s).kinds = List.replicate s.length kind := if_neg h

theorem flatMap_kinds_map_single (s : List Char) :
    (s.map Lexeme.single).flatMap Lexeme.kinds = List.replicate s.length .plain := by
  induction s with
  | nil => rfl
  | cons c s ih => rw [List.map_cons, List.flatMap_cons, ih]; rfl

/-- The pass over the bytes of a text takes each for a part of what the pass over the characters finds there. -/
theorem kinds_segment_bytewise (hbefore : before'.any isIdent = before.any isIdent) (s : List Char) :
    (segment commentStep before' (bytewise s)).flatMap Lexeme.kinds = kindsAfter before s := by
  induction before, s using bounded_commentStep.induction generalizing before' with
  | nil before => simp [kindsAfter, segment]
  | cons before c body rest kind hstep ih =>
    have hlast := any_lastOf_bytewise (fun _ => isIdent_of_beyond) hbefore (c :: body)
    rw [kindsAfter_of_step hstep, ← ih hlast, bytewise_append]
    by_cases hc : c.toNat < 128
    · have hfound := commentStep_iff.2 ((commentStep_iff.1 hstep).bytewise hc hbefore)
      rw [bytewise_cons_of_ascii hc, segment_append_of_step hfound, List.flatMap_cons]
    · -- A character beyond ASCII is a lexeme, and so is each of its bytes.
      have hbeyond : 128 ≤ c.toNat := Nat.le_of_not_lt hc
      rw [commentStep_of_beyond hbeyond] at hstep
      obtain ⟨rfl, hlength⟩ := Prod.mk.inj hstep
      obtain rfl := List.length_eq_zero_iff.1 hlength.symm
      rw [segment_append_of_plain fun before d t ht =>
        commentStep_of_beyond (beyond_of_mem_bytewise hbeyond d (ht.subset List.mem_cons_self)) before _,
        List.flatMap_append, flatMap_kinds_map_single, kinds_of_ne_url (by decide)]

theorem byteKinds_encode (s : List Char) : byteKinds (Utf8.encode s) = kindsAfter none s := kinds_segment_bytewise rfl s

end StyleTrack.Source
