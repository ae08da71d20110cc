/-
Where a keyword is found, in bytes. A search through a stripped text finds a keyword exactly at the offsets at which the
keyword stands in bytes that the pass over the text itself takes for code, behind a byte that the keyword may follow.
-/
import StyleTrack.Proofs.Source.Stripping
import StyleTrack.Proofs.Source.Statement
import StyleTrack.Proofs.Source.Call
import Mathlib

namespace StyleTrack.Source

open StyleTrack.Text

/-! ## Offsets -/

namespace Keyword

/-- The offsets of the occurrences in a text, in bytes. -/
def offsets (k : Keyword) (text : List Char) : List Nat :=
  (k.find text).map fun o => (Utf8.encode text).length - (Utf8.encode o.rest).length - k.word.length

/-- Whether the keyword stands at an offset, in letters of either case and wholly in code, at the start of the text or
behind a byte of the stripped text that it may follow. -/
def standsAt (k : Keyword) (bytes : List UInt8) (i : Nat) : Bool :=
  k.word.isPrefixOf ((bytes.drop i).map fun b => (charOf b).toLower) &&
    (((byteKinds bytes).drop i).take k.word.length).all (· = .plain) &&
    (i = 0 || (stripBytes bytes)[i - 1]?.any fun b => k.follows (charOf b))

/-- Whether a keyword of a stripped text can be told byte by byte: it is ASCII, it does not begin inside `url(`, and it
may follow any character beyond ASCII. -/
structure IsBytewise (k : Keyword) : Prop extends k.IsPlain where
  ascii : ∀ c ∈ k.word, c.toNat < 128
  apart : ∀ c ∈ ['r', 'l', '('], some c ≠ k.word.head?
  follows_beyond : ∀ c, 128 ≤ c.toNat → k.follows c = true

end Keyword

variable {k : Keyword} {before before' front : Option Char} {c : Char} {body rest s : List Char} {kind : Kind} {i : Nat}

/-- Whether the keyword stands at an offset of a text that follows the character `before`, where `front` stands in front
of what the text becomes when it is stripped. -/
def Keyword.standsAfter (k : Keyword) (before front : Option Char) (s : List Char) (i : Nat) : Bool :=
  startsWord k.word ((bytewise s).drop i) && (((kindsAfter before s).drop i).take k.word.length).all (· = .plain) &&
    (lastOf front ((bytewise (stripAfter before s)).take i)).all k.follows

/-! ## Where a keyword starts -/

theorem stripped_ne_nil : (Lexeme.mk kind (c :: body)).stripped ≠ [] := by
  unfold Lexeme.stripped
  split
  · rw [List.flatMap_cons]
    refine List.append_ne_nil_of_left_ne_nil ?_ _
    unfold blanked
    split
    · simp
    · rw [ne_eq, List.replicate_eq_nil_iff]
      exact (Char.utf8Size_pos c).ne'
  · exact List.cons_ne_nil c body

namespace Keyword.IsBytewise

variable (hk : k.IsBytewise) {w : List Char} (hw : w <:+ k.word) (hne : w ≠ [])
include hk hw hne

theorem startsWord_of_isQuote (hquote : isQuote c = true) : startsWord w (c :: s) = false := by
  obtain ⟨d, w, rfl⟩ := List.exists_cons_of_ne_nil hne
  rw [startsWord, Bool.and_eq_false_iff]
  refine .inl (decide_eq_false fun heq => ?_)
  have hlower := isQuote_of_toLower hquote
  rw [heq, (hk.opensNothing d (hw.subset List.mem_cons_self)).1] at hlower
  cases hlower

theorem startsWord_of_isAsciiBlank (hblank : isAsciiBlank c = true) : startsWord w (c :: s) = false := by
  obtain ⟨d, w, rfl⟩ := List.exists_cons_of_ne_nil hne
  rw [startsWord, Bool.and_eq_false_iff]
  refine .inl (decide_eq_false fun heq => ?_)
  have hlower : c.toLower = c := by
    simp only [isAsciiBlank, Bool.or_eq_true, decide_eq_true_eq] at hblank
    rcases hblank with (((rfl | rfl) | rfl) | rfl) | rfl <;> rfl
  rw [← heq, hlower] at hw
  rw [(hk.opensNothing c (hw.subset List.mem_cons_self)).2.2] at hblank
  cases hblank

/-- A keyword or the rest of one starts at a character of code that is a lexeme of its own. -/
theorem single_of_startsWord (h : commentStep before c (body ++ rest) = (kind, body.length))
    (hstarts : startsWord w (stripAfter before (c :: body ++ rest)) = true ∨
      kind ≠ .comment ∧ startsWord w (c :: body ++ rest) = true) : kind = .plain ∧ body = [] := by
  have hnotUrl : ∀ word : List Char, word.length = 3 → opensUrl before (c :: word) = true →
      ∀ rest', startsWord w (c :: word ++ rest') = false := by
    intro word hlength hopens rest'
    rw [Bool.eq_false_iff]
    intro hword
    have hurl := hk.not_startsUrl hw hne hword
    rw [startsWord_append_of_length_le (by simp [hlength]), (Bool.and_eq_true_iff.1 hopens).1] at hurl
    cases hurl
  have hkind : kind ≠ .comment := by
    intro hkind
    have hstripped : (Lexeme.mk kind (c :: body)).stripped ≠ [] := stripped_ne_nil
    obtain ⟨x, t, hx⟩ := List.exists_cons_of_ne_nil hstripped
    have hfirst := isAsciiBlank_of_mem_stripped hkind x (hx ▸ List.mem_cons_self)
    rcases hstarts with hstarts | ⟨hnot, -⟩
    · rw [stripAfter_lexeme h, hx, List.cons_append, hk.startsWord_of_isAsciiBlank hw hne hfirst] at hstarts
      cases hstarts
    · exact hnot hkind
  -- What is no comment is kept, so in both texts the same lexeme stands first.
  obtain ⟨rest', hfound⟩ : ∃ rest', startsWord w (c :: body ++ rest') = true := by
    rw [stripAfter_of_step h hkind] at hstarts
    rcases hstarts with hstarts | ⟨-, hstarts⟩
    · exact ⟨_, hstarts⟩
    · exact ⟨_, hstarts⟩
  cases commentStep_iff.1 h with
  | quoted body rest opens length =>
    rw [List.cons_append, hk.startsWord_of_isQuote hw hne opens] at hfound
    cases hfound
  | block inner rest opens length => exact absurd rfl hkind
  | line inner rest opens free ends => exact absurd rfl hkind
  | code body rest kind unquoted uncommented code =>
    cases code with
    | url word inner rest length opens raw =>
      rw [← List.cons_append, List.append_assoc, hnotUrl word length opens] at hfound
      cases hfound
    | opening body rest length opens quoted =>
      rw [hnotUrl body length opens] at hfound
      cases hfound
    | single rest opens => exact ⟨rfl, rfl⟩

end Keyword.IsBytewise

/-- A keyword or the rest of one starts a stripped text if it starts the text and its bytes are code. -/
theorem Keyword.IsBytewise.startsWord_stripAfter (hk : k.IsBytewise) {w : List Char} (hw : w <:+ k.word)
    (before : Option Char) (s : List Char) : startsWord w (stripAfter before s) =
      (startsWord w (bytewise s) && ((kindsAfter before s).take w.length).all (· = .plain)) := by
  rw [startsWord_bytewise fun d hd => hk.ascii d (hw.subset hd)]
  induction w generalizing before s with
  | nil => simp [startsWord]
  | cons d w ih =>
    cases s with
    | nil => simp [stripAfter, segment, startsWord]
    | cons c s =>
      obtain ⟨body, rest, kind, rfl, h⟩ := bounded_commentStep.exists_lexeme before c s
      rw [← List.cons_append]
      by_cases hsingle : kind = .plain ∧ body = []
      · obtain ⟨rfl, rfl⟩ := hsingle
        rw [stripAfter_of_step h (by decide), kindsAfter_of_step h]
        simp only [List.singleton_append, startsWord]
        by_cases hc : c.toLower = d
        · -- The character is as long as its one byte.
          have hascii : c.toNat < 128 := by
            by_contra hnot
            rw [toLower_of_beyond (Nat.le_of_not_lt hnot)] at hc
            exact hnot (hc ▸ hk.ascii d (hw.subset List.mem_cons_self))
          rw [ih ((List.suffix_cons d w).trans hw), bytewise_singleton hascii]
          simp [hc, kinds_of_ne_url]
        · simp [hc]
      · have hnot : ¬ (startsWord (d :: w) (stripAfter before (c :: body ++ rest)) = true ∨
            kind ≠ .comment ∧ startsWord (d :: w) (c :: body ++ rest) = true) :=
          fun hstarts => hsingle (hk.single_of_startsWord hw (by simp) h hstarts)
        rw [not_or, Bool.not_eq_true] at hnot
        rw [hnot.1]
        by_cases hkind : kind = .comment
        · subst hkind
          obtain ⟨x, t, hx⟩ := List.exists_cons_of_ne_nil (bytewise_ne_nil (s := c :: body) (by simp))
          rw [kindsAfter_of_step h, kinds_of_ne_url (by decide), hx]
          simp [List.replicate_succ]
        · have hfalse : startsWord (d :: w) (c :: body ++ rest) = false := Bool.eq_false_iff.2 fun heq => hnot.2 ⟨hkind, heq⟩
          rw [hfalse, Bool.false_and]

/-! ## Inside a lexeme -/

theorem word_of_opensUrl {word : List Char} (hlength : word.length = 3) (hopens : opensUrl before (c :: word) = true) :
    bytewise (c :: word) = c :: word ∧ ∀ x ∈ word, x.toLower ∈ ['r', 'l', '('] := by
  have hstarts := (Bool.and_eq_true_iff.1 hopens).1
  have hascii := ascii_of_startsWord (s := c :: word) (List.forall_iff_forall_mem.1 (by decide)) (by simp [hlength]) hstarts
  have hword : ['u', 'r', 'l', '('] = (c :: word).map Char.toLower :=
    (startsWord_iff.1 hstarts).eq_of_length (by simp [hlength])
  refine ⟨bytewise_of_ascii hascii, fun x hx => ?_⟩
  rw [(List.cons.inj hword).2]
  exact List.mem_map_of_mem hx

/-- Behind the first byte of a lexeme there is no code, or none that a keyword begins with. -/
theorem kinds_inside (h : commentStep before c (body ++ rest) = (kind, body.length)) {x : Char} {k : Kind}
    (hx : (bytewise (c :: body))[i + 1]? = some x) (hk : (Lexeme.mk kind (bytewise (c :: body))).kinds[i + 1]? = some k) :
    k ≠ .plain ∨ x.toLower ∈ ['r', 'l', '('] ∨ 128 ≤ x.toNat := by
  have hsealed : kind ≠ .url → kind ≠ .plain → k ≠ .plain := by
    intro hurl hplain
    rw [kinds_of_ne_url hurl] at hk
    rw [List.eq_of_mem_replicate (List.mem_of_getElem? hk)]
    exact hplain
  have hopening : ∀ word inner : List Char, word.length = 3 → opensUrl before (c :: word) = true → body = word ++ inner →
      i < 3 → x.toLower ∈ ['r', 'l', '('] := by
    rintro word inner hlength hopens rfl hi
    obtain ⟨hbytes, hletters⟩ := word_of_opensUrl hlength hopens
    rw [← List.cons_append, bytewise_append, hbytes, List.cons_append, List.getElem?_cons_succ,
      List.getElem?_append_left (by omega)] at hx
    exact hletters x (List.mem_of_getElem? hx)
  cases commentStep_iff.1 h with
  | quoted body rest opens length => exact .inl (hsealed (by decide) (by decide))
  | block inner rest opens length => exact .inl (hsealed (by decide) (by decide))
  | line inner rest opens free ends => exact .inl (hsealed (by decide) (by decide))
  | code body rest kind unquoted uncommented code =>
    cases code with
    | url word inner rest length opens raw =>
      by_cases hi : i < 3
      · exact .inr (.inl (hopening word inner length opens rfl hi))
      · -- Behind `url(` the body begins.
        left
        rw [Lexeme.kinds, if_pos rfl, List.getElem?_append_right (by simp; omega)] at hk
        rw [List.eq_of_mem_replicate (List.mem_of_getElem? hk)]
        decide
    | opening body rest length opens quoted =>
      refine .inr (.inl (hopening body [] length opens (List.append_nil body).symm ?_))
      have hbound := (List.getElem?_eq_some_iff.1 hx).1
      rw [(word_of_opensUrl length opens).1, List.length_cons, length] at hbound
      omega
    | single rest opens =>
      refine .inr (.inr (beyond_of_mem_bytewise ?_ x (List.mem_of_getElem? hx)))
      by_contra hnot
      rw [bytewise_singleton (Nat.lt_of_not_le hnot)] at hx
      simp at hx

/-- So no keyword stands in code there. -/
theorem Keyword.IsBytewise.standsAfter_inside (hk : k.IsBytewise)
    (h : commentStep before c (body ++ rest) = (kind, body.length)) (hi : i + 1 < (Utf8.encode (c :: body)).length) :
    k.standsAfter before front (c :: body ++ rest) (i + 1) = false := by
  obtain ⟨d, w, hword⟩ := List.exists_cons_of_ne_nil hk.word_ne
  have hlength := length_kinds_bytewise h
  rw [← length_bytewise] at hlength hi
  have hbyte : (bytewise (c :: body ++ rest)).drop (i + 1) =
      (bytewise (c :: body))[i + 1] :: (bytewise (c :: body ++ rest)).drop (i + 2) := by
    rw [bytewise_append, List.drop_eq_getElem_cons (by rw [List.length_append]; omega), List.getElem_append_left hi]
  have hkind : (kindsAfter before (c :: body ++ rest)).drop (i + 1) =
      (Lexeme.mk kind (bytewise (c :: body))).kinds[i + 1] :: (kindsAfter before (c :: body ++ rest)).drop (i + 2) := by
    rw [kindsAfter_of_step h, List.drop_eq_getElem_cons (by rw [List.length_append]; omega),
      List.getElem_append_left (by omega)]
  rw [standsAfter, hbyte, hkind, hword, List.length_cons, List.take_succ_cons, List.all_cons, startsWord]
  rcases kinds_inside h (List.getElem?_eq_getElem hi) (List.getElem?_eq_getElem (by omega)) with hsealed | hletter | hbeyond
  · simp [hsealed]
  · have hne := hk.apart _ hletter
    rw [hword, List.head?_cons, ne_eq, Option.some.injEq] at hne
    simp [hne]
  · have hne := ne_of_beyond hbeyond (hk.ascii d (hword ▸ List.mem_cons_self))
    rw [toLower_of_beyond hbeyond]
    simp [hne]

/-! ## From one lexeme to the next -/

theorem length_stripped (h : commentStep before c (body ++ rest) = (kind, body.length)) :
    (Utf8.encode (Lexeme.mk kind (c :: body)).stripped).length = (Utf8.encode (c :: body)).length := by
  rw [← zipWith_kinds_encode h, List.length_zipWith, length_kinds_bytewise h, Nat.min_self]

theorem Keyword.standsAfter_behind (k : Keyword) (h : commentStep before c (body ++ rest) = (kind, body.length)) :
    k.standsAfter before front (c :: body ++ rest) ((Utf8.encode (c :: body)).length + i) =
      k.standsAfter (lastOf before (c :: body)) (lastOf front (bytewise (Lexeme.mk kind (c :: body)).stripped)) rest i := by
  have hbytes := length_bytewise (c :: body)
  have hkinds := length_kinds_bytewise h
  have hstripped := (length_bytewise _).trans (length_stripped h)
  rw [standsAfter, bytewise_append, kindsAfter_of_step h, stripAfter_lexeme h, bytewise_append]
  nth_rewrite 1 [← hbytes]
  nth_rewrite 1 [← hkinds]
  rw [List.drop_length_add_append, List.drop_length_add_append, ← hstripped, List.take_length_add_append, lastOf_append]
  rfl

theorem Keyword.IsBytewise.standsAfter_zero (hk : k.IsBytewise) :
    k.standsAfter before front s 0 = (startsWord k.word (stripAfter before s) && front.all k.follows) := by
  rw [standsAfter, hk.startsWord_stripAfter List.suffix_rfl]
  rfl

/-- The offsets of a lexeme at which the keyword stands: its first, or none. -/
theorem Keyword.IsBytewise.filter_standsAfter (hk : k.IsBytewise)
    (h : commentStep before c (body ++ rest) = (kind, body.length)) :
    (List.range (Utf8.encode (c :: body)).length).filter (k.standsAfter before front (c :: body ++ rest)) =
      if startsWord k.word (stripAfter before (c :: body ++ rest)) && front.all k.follows then [0] else [] := by
  obtain ⟨n, hn⟩ : ∃ n, (Utf8.encode (c :: body)).length = n + 1 := by
    rw [← length_bytewise]
    exact Nat.exists_eq_add_one.2 (List.length_pos_of_ne_nil (bytewise_ne_nil (by simp)))
  have hinside : ((List.range n).map Nat.succ).filter (k.standsAfter before front (c :: body ++ rest)) = [] := by
    refine List.filter_eq_nil_iff.2 fun j hj => ?_
    obtain ⟨i, hi, rfl⟩ := List.mem_map.1 hj
    rw [List.mem_range] at hi
    rw [Nat.succ_eq_add_one, hk.standsAfter_inside h (by omega)]
    decide
  rw [hn, List.range_succ_eq_map, List.filter_cons, hinside, hk.standsAfter_zero]

/-- The keyword is found at the first character of a lexeme, or behind it. -/
theorem Keyword.IsBytewise.inCode_append_code (hk : k.IsBytewise) {line : Nat} {lexemes : List Lexeme}
    (h : commentStep before c (body ++ rest) = (kind, body.length))
    (hlexemes : written lexemes = stripAfter (lastOf before (c :: body)) rest) :
    k.inCode line front ((Lexeme.mk kind (c :: body)).code ++ lexemes) =
      (if startsWord k.word (stripAfter before (c :: body ++ rest)) && front.all k.follows
        then [⟨line, (stripAfter before (c :: body ++ rest)).drop k.word.length⟩] else []) ++
      k.inCode (line + (c :: body).count '\n') (lastOf front (Lexeme.mk kind (c :: body)).stripped) lexemes := by
  have hsingle := hk.single_of_startsWord List.suffix_rfl hk.word_ne h
  have hcount : (Lexeme.mk kind (c :: body)).stripped.count '\n' = (c :: body).count '\n' := count_stripped _
  rw [stripAfter_lexeme h, ← hlexemes] at hsingle ⊢
  by_cases hstarts : startsWord k.word ((Lexeme.mk kind (c :: body)).stripped ++ written lexemes) = true
  · obtain ⟨rfl, rfl⟩ := hsingle (.inl hstarts)
    rw [stripped_of_ne_comment (by decide)] at hstarts ⊢
    by_cases hfront : front.all k.follows = true
    · rw [hstarts, hfront]
      exact inCode_cons_of_starts (Bool.and_eq_true_iff.2 ⟨hstarts, hfront⟩)
    · rw [Bool.not_eq_true] at hfront
      rw [hstarts, hfront]
      exact inCode_cons_of_not (Bool.and_eq_false_iff.2 (.inr hfront))
  · rw [Bool.not_eq_true] at hstarts
    rw [hstarts, Bool.false_and]
    by_cases hkind : kind = .comment
    · rw [Lexeme.code, if_pos hkind, inCode_append_of_not_startsWord, hcount]
      · rfl
      · intro t ht hne
        obtain ⟨x, t, rfl⟩ := List.exists_cons_of_ne_nil hne
        exact hk.startsWord_of_isAsciiBlank List.suffix_rfl hk.word_ne
          (isAsciiBlank_of_mem_stripped hkind x (ht.subset List.mem_cons_self))
    · rw [stripped_of_ne_comment hkind] at hstarts ⊢
      rw [Lexeme.code, if_neg hkind]
      exact inCode_cons_of_not (Bool.and_eq_false_iff.2 (.inl hstarts))

/-! ## Occurrences of a stripped text -/

theorem count_encode (s : List Char) : (Utf8.encode s).count 0x0A = s.count '\n' := by
  induction s with
  | nil => rfl
  | cons c s ih =>
    have hsplit : Utf8.encode (c :: s) = String.utf8EncodeChar c ++ Utf8.encode s := List.flatMap_cons
    rw [hsplit, List.count_append, ih, List.count_cons, Nat.add_comm]
    congr 1
    by_cases hc : c = '\n'
    · subst hc
      rw [utf8EncodeChar_newline]
      rfl
    · rw [List.count_eq_zero.2 (newline_notMem_utf8EncodeChar hc), if_neg (by simpa using hc)]

/-- The letters of a keyword are as many bytes. -/
theorem encode_drop_of_startsWord {w : List Char} (hw : ∀ d ∈ w, d.toNat < 128) (h : startsWord w s = true) :
    Utf8.encode (s.drop w.length) = (Utf8.encode s).drop w.length := by
  have hlength : (s.take w.length).length = w.length := List.length_take_of_le (length_le_of_startsWord h)
  have hword : startsWord w (s.take w.length) = true := by
    rw [← startsWord_append_of_length_le hlength.ge (s.drop w.length), List.take_append_drop, h]
  have hascii := bytewise_of_ascii (ascii_of_startsWord hw hlength.le hword)
  have hbytes : (Utf8.encode (s.take w.length)).length = w.length := by rw [← length_bytewise, hascii, hlength]
  nth_rewrite 2 [← List.take_append_drop w.length s]
  rw [Utf8.encode_append, List.drop_left' hbytes]

theorem Keyword.IsBytewise.all_lastOf_bytewise (hk : k.IsBytewise) (h : before'.all k.follows = before.all k.follows)
    (s : List Char) : (lastOf before' s).all k.follows = (lastOf before (bytewise s)).all k.follows := by
  have hnot : ∀ o : Option Char, o.all k.follows = !o.any fun d => !k.follows d := by
    rintro (_ | d) <;> simp
  rw [hnot, hnot, any_lastOf_bytewise (fun d hd => by rw [hk.follows_beyond d hd]; rfl)]
  rw [hnot, hnot] at h
  exact Bool.not_inj h.symm

/-- What is found in the code of a text stands at the offsets at which the keyword stands in the text. -/
theorem Keyword.IsBytewise.inCode_code (hk : k.IsBytewise) {front' : Option Char} {line : Nat} (before : Option Char)
    (s : List Char) (hfront : front'.all k.follows = front.all k.follows) :
    (k.inCode line front' ((segment commentStep before s).flatMap Lexeme.code)).map
        (fun o => (o.line, Utf8.encode o.rest)) =
      ((List.range (Utf8.encode s).length).filter (k.standsAfter before front s)).map fun i =>
        (line + ((Utf8.encode s).take i).count 0x0A, (Utf8.encode (stripAfter before s)).drop (i + k.word.length)) := by
  induction before, s using bounded_commentStep.induction generalizing front front' line with
  | nil before => simp [segment, Keyword.inCode, Utf8.encode]
  | cons before c body rest kind hstep ih =>
    have hlast := hk.all_lastOf_bytewise hfront (Lexeme.mk kind (c :: body)).stripped
    rw [segment_append_of_step hstep, List.flatMap_cons, hk.inCode_append_code hstep (written_code _ rest),
      List.map_append, ih hlast, Utf8.encode_append, List.length_append, List.range_add, List.filter_append, List.map_append,
      hk.filter_standsAfter hstep, hfront, List.filter_map, List.map_map]
    congr 1
    · split
      · rename_i hstarts
        rw [List.map_singleton, List.map_singleton,
          encode_drop_of_startsWord hk.ascii (Bool.and_eq_true_iff.1 hstarts).1]
        simp
      · rfl
    · rw [← length_stripped hstep, stripAfter_lexeme hstep, Utf8.encode_append]
      have hshift : (k.standsAfter before front (c :: body ++ rest)) ∘
          ((Utf8.encode (Lexeme.mk kind (c :: body)).stripped).length + ·) =
          k.standsAfter (lastOf before (c :: body)) (lastOf front (bytewise (Lexeme.mk kind (c :: body)).stripped)) rest := by
        funext i
        rw [Function.comp_apply, length_stripped hstep, k.standsAfter_behind hstep]
      rw [hshift]
      refine List.map_congr_left fun i _ => ?_
      rw [Function.comp_apply, Nat.add_assoc line, ← count_encode (c :: body), ← List.count_append,
        ← List.take_length_add_append, length_stripped hstep, Nat.add_assoc, ← length_stripped hstep,
        List.drop_length_add_append]

/-! ## The keywords -/

theorem Keyword.standsAt_encode (k : Keyword) {text : List Char} (hi : i < (Utf8.encode text).length) :
    k.standsAt (Utf8.encode text) i = k.standsAfter none none text i := by
  have hword : k.word.isPrefixOf (((Utf8.encode text).drop i).map fun b => (charOf b).toLower) =
      startsWord k.word ((bytewise text).drop i) := by
    rw [Bool.eq_iff_iff, List.isPrefixOf_iff_prefix, startsWord_iff, bytewise, ← List.map_drop, List.map_map]
    rfl
  have hfollows : (i = 0 || (stripBytes (Utf8.encode text))[i - 1]?.any fun b => k.follows (charOf b)) =
      (lastOf none ((bytewise (stripAfter none text)).take i)).all k.follows := by
    cases i with
    | zero => rfl
    | succ i =>
      have hlength : i < (Utf8.encode (stripComments text)).length := by
        rw [length_encode_stripComments]
        exact Nat.lt_of_succ_lt hi
      have hbytes : bytewise (stripAfter none text) = (Utf8.encode (stripComments text)).map charOf := rfl
      rw [stripBytes_encode, Nat.add_sub_cancel, List.getElem?_eq_getElem hlength, Option.any_some, hbytes, ← List.map_take,
        List.take_succ_eq_append_getElem hlength, List.map_append, lastOf_append, List.map_singleton, lastOf_cons, lastOf_nil,
        Option.all_some, decide_eq_false (Nat.succ_ne_zero i), Bool.false_or]
  rw [standsAt, standsAfter, hword, hfollows, byteKinds_encode]

theorem isBytewise_directiveKeyword : Directive.keyword.IsBytewise where
  toIsPlain := isPlain_directiveKeyword
  ascii := List.forall_iff_forall_mem.1 (by decide)
  apart := List.forall_iff_forall_mem.1 (by decide)
  follows_beyond c hc := by
    simp [Directive.keyword, isIdent_of_beyond hc, ne_of_beyond hc (d := '@') (by decide)]

theorem isBytewise_referenceKeyword : Reference.keyword.IsBytewise where
  toIsPlain := isPlain_referenceKeyword
  ascii := List.forall_iff_forall_mem.1 (by decide)
  apart := List.forall_iff_forall_mem.1 (by decide)
  follows_beyond c hc := by
    have hne : ∀ d : Char, d.toNat < 128 → c ≠ d := fun d => ne_of_beyond hc
    simp [Reference.keyword, isIdent_of_beyond hc, hne '.' (by decide), hne '#' (by decide), hne '@' (by decide),
      hne '$' (by decide)]

/-- A keyword that stands at an offset has its bytes there. -/
theorem Keyword.IsBytewise.add_length_le (hk : k.IsBytewise) (h : k.standsAfter before front s i = true) :
    i + k.word.length ≤ (Utf8.encode s).length := by
  simp only [standsAfter, Bool.and_eq_true] at h
  have hle := length_le_of_startsWord h.1.1
  have hpos := List.length_pos_of_ne_nil hk.word_ne
  rw [List.length_drop, length_bytewise] at hle
  omega

/-- A keyword is found in a stripped text where it stands in the text. -/
theorem Keyword.IsBytewise.find_stripComments (hk : k.IsBytewise) (text : List Char) :
    (k.find (stripComments text)).map (fun o => (o.line, Utf8.encode o.rest)) =
      ((List.range (Utf8.encode text).length).filter (k.standsAt (Utf8.encode text))).map fun i =>
        (1 + ((Utf8.encode text).take i).count 0x0A, (Utf8.encode (stripComments text)).drop (i + k.word.length)) := by
  have hstands : (List.range (Utf8.encode text).length).filter (k.standsAt (Utf8.encode text)) =
      (List.range (Utf8.encode text).length).filter (k.standsAfter none none text) :=
    List.filter_congr fun i hi => k.standsAt_encode (List.mem_range.1 hi)
  have hfind : k.find (stripComments text) =
      k.inCode 1 none ((segment commentStep none text).flatMap Lexeme.code) := by
    rw [← segment_stripAfter (.inl rfl)]
    exact findAfter_eq_inCode hk.toIsPlain
  have hnone : (none : Option Char).all k.follows = (none : Option Char).all k.follows := rfl
  rw [hstands, hfind, hk.inCode_code none text hnone]
  rfl

theorem Keyword.IsBytewise.offsets_stripComments (hk : k.IsBytewise) (text : List Char) :
    k.offsets (stripComments text) = (List.range (Utf8.encode text).length).filter (k.standsAt (Utf8.encode text)) := by
  have hoffsets : k.offsets (stripComments text) =
      ((k.find (stripComments text)).map fun o => (o.line, Utf8.encode o.rest)).map fun found =>
        (Utf8.encode (stripComments text)).length - found.2.length - k.word.length := by
    rw [List.map_map]
    rfl
  rw [hoffsets, hk.find_stripComments, List.map_map]
  refine (List.map_congr_left fun i hi => ?_).trans (List.map_id _)
  obtain ⟨hrange, hstands⟩ := List.mem_filter.1 hi
  rw [k.standsAt_encode (List.mem_range.1 hrange)] at hstands
  have hle := hk.add_length_le hstands
  rw [Function.comp_apply, List.length_drop, length_encode_stripComments, id_eq]
  omega

/-- The search for `@import` or for `data-uri(` in a stripped text finds exactly the offsets at which the keyword stands
in code, in increasing order, and for each of them the line that it is on and the text behind it. -/
theorem Keyword.offsets_eq_filter_standsAt (hk : k = Directive.keyword ∨ k = Reference.keyword) (text : List Char) :
    k.offsets (stripComments text) =
        (List.range (Utf8.encode text).length).filter (k.standsAt (Utf8.encode text)) ∧
      (k.find (stripComments text)).map (fun o => (o.line, Utf8.encode o.rest)) =
        (k.offsets (stripComments text)).map fun i =>
          (1 + ((Utf8.encode text).take i).count 0x0A, (Utf8.encode (stripComments text)).drop (i + k.word.length)) := by
  have hbytewise : k.IsBytewise := by
    rcases hk with rfl | rfl
    · exact isBytewise_directiveKeyword
    · exact isBytewise_referenceKeyword
  rw [hbytewise.offsets_stripComments]
  exact ⟨rfl, hbytewise.find_stripComments text⟩

/-- Neither the quote nor the `@import` of the comment counts, and `é` takes two bytes. -/
theorem offsets_behind_comment : Directive.keyword.offsets
    (stripComments "/*\" @import é*/@IMPORT '@import'; a: url(@import) x@import;".toList) = [16] ∧
    (Directive.keyword.find (stripComments "/*\" @import é*/@IMPORT '@import'; a: url(@import) x@import;".toList)).map
      (·.line) = [1] := by
  obtain ⟨hoffsets, hfind⟩ := Keyword.offsets_eq_filter_standsAt (.inl rfl)
    "/*\" @import é*/@IMPORT '@import'; a: url(@import) x@import;".toList
  have hstands : Directive.keyword.offsets
      (stripComments "/*\" @import é*/@IMPORT '@import'; a: url(@import) x@import;".toList) = [16] := by
    rw [hoffsets]
    cbv
  refine ⟨hstands, ?_⟩
  have hlines := congrArg (List.map Prod.fst) hfind
  rw [hstands, List.map_map, List.map_map] at hlines
  exact hlines.trans (by cbv)

end StyleTrack.Source
