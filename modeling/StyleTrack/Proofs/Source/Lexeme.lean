/-
How a text is cut into lexemes where two texts meet. Cutting looks ahead, for a word or for the end of a string,
and back by one character; so a text keeps its lexemes in front of another one if no word begins in it and ends
in the other, and if what it opens it closes.
-/
import StyleTrack.Source.Lexeme
import StyleTrack.Source.Argument
import StyleTrack.Proofs.Text.Blank
import Mathlib.Data.List.Basic
import Mathlib.Data.List.Infix
import Mathlib.Tactic.Common

namespace StyleTrack.Source

open StyleTrack.Text

/-! ## Letters of either case -/

theorem toLower_cases (c : Char) : c.toLower = c ∨ c.isUpper = true ∧ c.toLower.isLower = true := by
  unfold Char.toLower
  split
  · rename_i h
    refine .inr ⟨decide_eq_true h, Bool.and_eq_true_iff.2 ?_⟩
    obtain ⟨hlow, hhigh⟩ := h
    simp only [UInt32.le_iff_toNat_le, ge_iff_le, UInt32.toNat_add, decide_eq_true_eq] at hlow hhigh ⊢
    simp at hlow hhigh ⊢
    omega
  · exact .inl rfl

/-- A character that is no letter is the lower case of itself alone. -/
theorem toLower_eq_iff {c d : Char} (hd : d.isAlpha = false) : c.toLower = d ↔ c = d := by
  obtain ⟨hupper, hlower⟩ : d.isUpper = false ∧ d.isLower = false := Bool.or_eq_false_iff.1 hd
  constructor
  · rintro rfl
    rcases toLower_cases c with heq | ⟨-, hc⟩
    · exact heq.symm
    · rw [hc] at hlower
      cases hlower
  · rintro rfl
    rcases toLower_cases c with heq | ⟨hc, -⟩
    · exact heq
    · rw [hc] at hupper
      cases hupper

theorem isIdent_of_toLower {c : Char} (h : isIdent c.toLower = true) : isIdent c = true := by
  rcases toLower_cases c with heq | ⟨hc, -⟩
  · rwa [heq] at h
  · have halpha : c.isAlpha = true := Bool.or_eq_true_iff.2 (.inl hc)
    simp [isIdent, Char.isAlphanum, halpha]

/-! ## Characters that are no blanks -/

theorem isBlank_of_mem_range {c : Char} {low high : UInt32} (hlow : 33 ≤ low.toNat) (hhigh : high.toNat < 128)
    (h : low ≤ c.val ∧ c.val ≤ high) : isBlank c = false :=
  isBlank_of_toNat (hlow.trans (UInt32.le_iff_toNat_le.1 h.1))
    (Nat.lt_of_le_of_lt (UInt32.le_iff_toNat_le.1 h.2) hhigh)

theorem isBlank_of_isIdent {c : Char} (h : isIdent c = true) : isBlank c = false := by
  simp only [isIdent, Char.isAlphanum, Bool.or_eq_true, decide_eq_true_eq] at h
  rcases h with ((halpha | hdigit) | rfl) | rfl
  · rcases Bool.or_eq_true_iff.1 halpha with hupper | hlower
    · have hrange : 'A'.val ≤ c.val ∧ c.val ≤ 'Z'.val := of_decide_eq_true hupper
      exact isBlank_of_mem_range (by decide) (by decide) hrange
    · have hrange : 'a'.val ≤ c.val ∧ c.val ≤ 'z'.val :=
        (Bool.and_eq_true_iff.1 hlower).imp of_decide_eq_true of_decide_eq_true
      exact isBlank_of_mem_range (by decide) (by decide) hrange
  · have hrange : '0'.val ≤ c.val ∧ c.val ≤ '9'.val :=
      (Bool.and_eq_true_iff.1 hdigit).imp of_decide_eq_true of_decide_eq_true
    exact isBlank_of_mem_range (by decide) (by decide) hrange
  · decide
  · decide

theorem isBlank_of_isQuote {c : Char} (h : isQuote c = true) : isBlank c = false := by
  simp only [isQuote, Bool.or_eq_true, decide_eq_true_eq] at h
  rcases h with rfl | rfl <;> decide

theorem isAsciiBlank_of_isQuote {c : Char} (h : isQuote c = true) : isAsciiBlank c = false :=
  isAsciiBlank_of_isBlank (isBlank_of_isQuote h)

theorem isIdent_of_isAsciiBlank {c : Char} (h : isAsciiBlank c = true) : isIdent c = false := by
  simp only [isAsciiBlank, Bool.or_eq_true, decide_eq_true_eq] at h
  rcases h with (((rfl | rfl) | rfl) | rfl) | rfl <;> decide

/-- Neither a name nor the blanks around it open or close anything. -/
theorem ne_of_isIdent_or_isAsciiBlank {c d : Char} (hc : isIdent c = true ∨ isAsciiBlank c = true)
    (hd : isIdent d = false ∧ isAsciiBlank d = false) : c ≠ d := by
  rintro rfl
  rw [hd.1, hd.2] at hc
  rcases hc with hc | hc <;> cases hc

theorem opensNothing_of_isIdent_or_isAsciiBlank {c : Char} (hc : isIdent c = true ∨ isAsciiBlank c = true) :
    isQuote c = false ∧ c ≠ '/' ∧ c ≠ '(' := by
  have hne : ∀ d, isIdent d = false ∧ isAsciiBlank d = false → c ≠ d := fun d => ne_of_isIdent_or_isAsciiBlank hc
  exact ⟨by simp [isQuote, hne '"' (by decide), hne '\'' (by decide)], hne '/' (by decide), hne '(' (by decide)⟩

/-! ## Words -/

theorem startsWord_iff {w text : List Char} : startsWord w text = true ↔ w <+: text.map Char.toLower := by
  induction w generalizing text with
  | nil => simp [startsWord]
  | cons d w ih =>
    cases text with
    | nil => simp [startsWord]
    | cons c text =>
      simp only [startsWord, Bool.and_eq_true, decide_eq_true_eq, ih, List.map_cons, List.cons_prefix_cons]
      rw [eq_comm]

theorem length_le_of_startsWord {w text : List Char} (h : startsWord w text = true) : w.length ≤ text.length := by
  simpa using (startsWord_iff.1 h).length_le

/-- A word without some character is found in front of that character or not at all. -/
theorem startsWord_append_cons {w : List Char} {d : Char} (hw : d ∉ w) (hd : d.isAlpha = false) (s rest : List Char) :
    startsWord w (s ++ d :: rest) = startsWord w s := by
  induction w generalizing s with
  | nil => simp [startsWord]
  | cons x w ih =>
    have hx : x ≠ d := fun heq => hw (heq ▸ List.mem_cons_self)
    cases s with
    | nil =>
      have hlower : d.toLower = d := (toLower_eq_iff hd).2 rfl
      simp [startsWord, hlower, hx.symm]
    | cons c s => simp [startsWord, ih fun hmem => hw (List.mem_cons_of_mem _ hmem)]

/-- Whether a word is part of a name with an opening parenthesis behind it. -/
def IsCall (w : List Char) : Prop := '(' ∈ w ∧ ∀ c ∈ w, isIdent c = true ∨ c = '('

/-- A text without an opening parenthesis does not begin a call that ends behind it, unless its last character
is part of a name and something follows. -/
theorem startsWord_append_of_isCall {w t rest : List Char} (hw : IsCall w) (hne : t ≠ []) (ht : '(' ∉ t)
    (hlast : rest = [] ∨ ∀ c ∈ t.getLast?, isIdent c = false) : startsWord w (t ++ rest) = false := by
  rw [Bool.eq_false_iff]
  intro hstarts
  induction w generalizing t with
  | nil => cases hw.1
  | cons d w ih =>
    obtain ⟨c, t, rfl⟩ := List.exists_cons_of_ne_nil hne
    simp only [List.cons_append, startsWord, Bool.and_eq_true, decide_eq_true_eq] at hstarts
    obtain ⟨hc, hstarts⟩ := hstarts
    have hopen : d ≠ '(' := by
      rintro rfl
      exact ht ((toLower_eq_iff (by decide)).1 hc ▸ List.mem_cons_self)
    have hident : isIdent c = true := isIdent_of_toLower (hc ▸ (hw.2 d List.mem_cons_self).resolve_right hopen)
    have hw' : IsCall w :=
      ⟨(List.mem_cons.1 hw.1).resolve_left hopen.symm, fun x hx => hw.2 x (List.mem_cons_of_mem _ hx)⟩
    cases t with
    | nil =>
      -- The text ends before the parenthesis: with nothing behind it the word is too long, else its last letter is `c`.
      rcases hlast with rfl | hlast
      · have hlength := length_le_of_startsWord hstarts
        exact absurd (List.length_eq_zero_iff.1 (Nat.le_zero.1 hlength)) (List.ne_nil_of_mem hw'.1)
      · rw [hlast c rfl] at hident
        cases hident
    | cons c' t =>
      refine ih hw' (by simp) (fun hmem => ht (List.mem_cons_of_mem _ hmem)) (hlast.imp id fun h x hx => h x ?_) hstarts
      rwa [List.getLast?_cons_cons]

theorem startsWord_suffix_append {w s t rest : List Char} (hw : IsCall w) (hs : '(' ∉ s)
    (hlast : rest = [] ∨ ∀ c ∈ s.getLast?, isIdent c = false) (ht : t <:+ s) (hne : t ≠ []) :
    startsWord w (t ++ rest) = false := by
  refine startsWord_append_of_isCall hw hne (fun hmem => hs (ht.subset hmem)) ?_
  obtain ⟨u, rfl⟩ := ht
  rwa [List.getLast?_append_of_ne_nil _ hne] at hlast

/-! ## Opaque parts -/

theorem quotedLength_append {quote : Char} {s : List Char} (hquote : isQuote quote = true) (hs : quote ∉ s)
    (hescape : '\\' ∉ s) (rest : List Char) : quotedLength quote (s ++ quote :: rest) = s.length + 1 := by
  have hne : quote ≠ '\\' := by
    rintro rfl
    cases hquote
  induction s with
  | nil => simp [quotedLength, hne]
  | cons c s ih =>
    simp only [List.mem_cons, not_or] at hs hescape
    have hplain : quotedLength quote (c :: (s ++ quote :: rest)) = quotedLength quote (s ++ quote :: rest) + 1 := by
      rw [quotedLength, if_neg (Ne.symm hs.1)]
      rintro x tail ⟨⟩
      exact absurd rfl hescape.1
    rw [List.cons_append, hplain, ih hs.2 hescape.2, List.length_cons]

theorem closeLength_append {s : List Char} (hs : ')' ∉ s) (rest : List Char) :
    closeLength (s ++ ')' :: rest) = s.length + 1 := by
  induction s with
  | nil => simp [closeLength]
  | cons c s ih =>
    simp only [List.mem_cons, not_or] at hs
    rw [List.cons_append, closeLength, if_neg (Ne.symm hs.1), ih hs.2, List.length_cons]

/-! ## Pieces of a text -/

/-- The character in front of what follows a text, where the text follows `before`. -/
def lastOf (before : Option Char) (text : List Char) : Option Char := text.getLast?.or before

@[simp]
theorem lastOf_nil (before : Option Char) : lastOf before [] = before := rfl

@[simp]
theorem lastOf_cons (before : Option Char) (c : Char) (text : List Char) :
    lastOf before (c :: text) = lastOf (some c) text := by
  simp only [lastOf, List.getLast?_cons]
  cases text.getLast? <;> rfl

@[simp]
theorem lastOf_append (before : Option Char) (s t : List Char) :
    lastOf before (s ++ t) = lastOf (lastOf before s) t := by
  induction s generalizing before with
  | nil => rfl
  | cons c s ih => rw [List.cons_append, lastOf_cons, lastOf_cons, ih]

theorem getLast?_eq_lastOf (before : Option Char) (c : Char) (text : List Char) :
    (c :: text).getLast? = lastOf before (c :: text) := by
  simp [lastOf, List.getLast?_cons]

theorem any_lastOf {before : Option Char} {p : Char → Bool} {s : List Char} (hne : s ≠ [])
    (hlast : ∀ c ∈ s.getLast?, p c = false) : (lastOf before s).any p = false := by
  have hsome : s.getLast? = some (s.getLast hne) := List.getLast?_eq_some_getLast hne
  rw [lastOf, hsome]
  exact hlast _ hsome

/-- A character as a lexeme. -/
def Lexeme.single (c : Char) : Lexeme := ⟨.plain, [c]⟩

variable {step : Step} {before : Option Char} {c : Char} {body rest s : List Char}

theorem segment_append_of_step {kind : Kind} (h : step before c (body ++ rest) = (kind, body.length)) :
    segment step before (c :: body ++ rest) = ⟨kind, c :: body⟩ :: segment step (lastOf before (c :: body)) rest := by
  rw [List.cons_append, segment]
  simp only [h, List.take_left, List.drop_left]
  rw [getLast?_eq_lastOf before]

/-- A text in which nothing but single characters is found, before the text that follows. -/
theorem segment_append_of_plain (h : ∀ before c t, c :: t <:+ s → step before c (t ++ rest) = (.plain, 0)) :
    segment step before (s ++ rest) = s.map Lexeme.single ++ segment step (lastOf before s) rest := by
  induction s generalizing before with
  | nil => rfl
  | cons c s ih =>
    have hstep : step before c ([] ++ (s ++ rest)) = (.plain, ([] : List Char).length) := h before c s List.suffix_rfl
    rw [List.cons_append, ← List.nil_append (s ++ rest), ← List.cons_append, segment_append_of_step hstep,
      List.map_cons, List.cons_append, ih fun before c t ht => h before c t (ht.trans (List.suffix_cons _ _)),
      ← lastOf_append, List.singleton_append]
    rfl

/-! ## Steps that stay inside the text -/

theorem quotedLength_le (quote : Char) (s : List Char) : quotedLength quote s ≤ s.length := by
  fun_induction quotedLength quote s with
  | case1 => exact Nat.le_refl 0
  | case2 x rest ih => simp only [List.length_cons]; omega
  | case3 rest hescape => simp
  | case4 c rest hescape hne ih => simp only [List.length_cons]; omega

theorem closeLength_le (s : List Char) : closeLength s ≤ s.length := by
  induction s with
  | nil => exact Nat.le_refl 0
  | cons c s ih =>
    rw [closeLength, List.length_cons]
    split <;> omega

/-- Whether no lexeme reaches beyond the end of the text. -/
def Bounded (step : Step) : Prop := ∀ before c rest, (step before c rest).2 ≤ rest.length

theorem bounded_urlStep : Bounded urlStep := by
  intro before c rest
  unfold urlStep
  split
  · rename_i hopens
    have hlength : 3 ≤ rest.length := by
      have hword := length_le_of_startsWord (Bool.and_eq_true_iff.1 hopens).1
      simpa using hword
    have hclose := closeLength_le (rest.drop 3)
    rw [List.length_drop] at hclose
    simp only [rawUrlLength?]
    split
    · rename_i n hn
      split at hn
      · cases hn
      · cases hn
        change closeLength (rest.drop 3) + 3 ≤ rest.length
        omega
    · exact hlength
  · exact Nat.zero_le _

theorem Bounded.exists_lexeme {step : Step} (h : Bounded step) (before : Option Char) (c : Char) (text : List Char) :
    ∃ body rest kind, text = body ++ rest ∧ step before c (body ++ rest) = (kind, body.length) := by
  refine ⟨text.take (step before c text).2, text.drop (step before c text).2, (step before c text).1,
    (List.take_append_drop _ _).symm, ?_⟩
  rw [List.take_append_drop, List.length_take_of_le (h before c text)]

/-- Lexemes one by one: what starts a text is one lexeme, and the rest follows it. -/
theorem Bounded.induction {step : Step} (h : Bounded step) {P : Option Char → List Char → Prop}
    (nil : ∀ before, P before [])
    (cons : ∀ before c body rest kind, step before c (body ++ rest) = (kind, body.length) →
      P (lastOf before (c :: body)) rest → P before (c :: body ++ rest))
    (before : Option Char) (text : List Char) : P before text := by
  induction hn : text.length using Nat.strongRecOn generalizing before text with
  | ind n ih =>
    cases text with
    | nil => exact nil before
    | cons c text =>
      obtain ⟨body, rest, kind, rfl, hstep⟩ := h.exists_lexeme before c text
      have hshorter : rest.length < n := by
        rw [← hn, List.length_cons, List.length_append]
        omega
      exact cons before c body rest kind hstep (ih _ hshorter _ rest rfl)

end StyleTrack.Source
