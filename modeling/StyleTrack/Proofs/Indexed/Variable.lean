/-
Declarations by position. The name, the value and what follows it are cut out between positions that the scan has stopped
at, and it stops where characters begin; a value that is unquoted has room for both quotes.
-/
import StyleTrack.Proofs.Indexed.Directive
import StyleTrack.Proofs.Source.Declaration

namespace StyleTrack.Source.Indexed

open StyleTrack.Text

/-! ## Declarations -/

/-- Takes one string or one byte of a value, or ends with it. -/
def valueTurn (text : List Char) (i : Nat) (_ : Unit) : Checked (Turn Unit Nat) := do
  let b ← byteAt text i
  if isQuote b then return .next (← skipString text i) ()
  else if b = ';' ∨ b = '}' then return .done i
  else return .next (i + 1) ()

/-- The position at which the value that begins at `i` ends. -/
def valueEnd (text : List Char) (i : Nat) : Checked Nat :=
  loop (size text) (valueTurn text) (fun _ _ => size text) i ()

/-- The value without one leading `~` and without a pair of equal quotes around it. -/
def unquote (value : List Char) : Checked (List Char) := do
  let s := dropTilde value
  if 2 ≤ size s then
    let quote ← byteAt s 0
    if isQuote quote then return (← enclosed? quote s).getD s
    else return s
  else return s

/-- The name and the value that are declared behind a mark, and the position behind the value. -/
def declarationAt (text : List Char) (start : Nat) : Checked (Option (String × String × Nat)) := do
  let stop ← skipWhile text isIdent start
  let colon ← skipWhile text isAsciiBlank stop
  if start < stop ∧ peek text colon = some ':' then
    let last ← valueEnd text (colon + 1)
    let value ← unquote (trim (← slice text (colon + 1) last))
    return some (String.ofList (← slice text start stop), String.ofList value, last)
  else return none

/-- How far the declarations of a text are read: the depth of braces, whether a statement may start, and what is
bound. -/
structure Reading where
  depth : Nat
  start : Bool
  bound : Variables

/-- Takes one string, one declaration or one byte. -/
def variableTurn (text : List Char) (i : Nat) (s : Reading) : Checked (Turn Reading Variables) := do
  let b ← byteAt text i
  if isQuote b then return .next (← skipString text i) { s with start := false }
  else if b = '{' then return .next (i + 1) { s with depth := s.depth + 1, start := true }
  else if b = '}' then return .next (i + 1) { s with depth := s.depth - 1, start := true }
  else if b = ';' then return .next (i + 1) { s with start := true }
  else if b = '@' ∧ s.depth = 0 ∧ s.start = true then
    match ← declarationAt text (i + 1) with
    | some (name, value, last) => return .next last { s with bound := s.bound.insert name value }
    | none => return .next (i + 1) { s with start := false }
  else if isAsciiBlank b then return .next (i + 1) s
  else return .next (i + 1) { s with start := false }

/-- The top-level variables of a text. -/
def bindings (text : List Char) : Checked Variables :=
  loop (size text) (variableTurn text) (fun _ s => s.bound) 0 ⟨0, true, .empty⟩

variable {text : List Char} {c : Char}

/-! ## Values -/

theorem byteAt_of_peek {i : Nat} (h : peek text i = some c) : byteAt text i = .ok c := by
  unfold peek at h
  rw [byteAt, h]

theorem unquote_eq (value : List Char) : unquote value = .ok (Source.unquote value) := by
  rw [unquote, Source.unquote]
  cases dropTilde value with
  | nil => rfl
  | cons quote body =>
    obtain ⟨d, hd, hpeek⟩ := exists_peek [] quote body
    rw [List.nil_append, size_nil] at hpeek
    dsimp only
    rw [byteAt_of_peek hpeek, ok_bind, eq_of_mem_bytewise (fun _ => isQuote_of_beyond) hd]
    by_cases hquote : isQuote quote = true
    · have hascii := toNat_of_isQuote hquote
      obtain rfl : d = quote := by simpa [bytewise_singleton hascii] using hd
      rw [hquote, Bool.true_and]
      by_cases hbody : body = []
      · rw [hbody, if_neg (by rw [size_singleton hascii]; decide)]
        rfl
      · have hpos := size_pos hbody
        have htwo : 2 ≤ size (d :: body) := by
          rw [size_cons, size_singleton hascii]
          omega
        rw [if_pos htwo, if_pos rfl, enclosed?_eq hquote hbody]
        by_cases hlast : body.getLast? = some d <;> simp [hlast]
    · rw [Bool.eq_false_iff.2 hquote]
      split <;> rfl

theorem valueEnd_size (u v : List Char) : valueEnd (u ++ v) (size u) = .ok (size (u ++ v.take (valueLength v))) := by
  unfold valueEnd
  fun_induction valueLength v generalizing u with
  | case1 =>
    rw [loop_of_le (by simp)]
    rfl
  | case2 c rest hquote n =>
    rename_i ih
    have hturn : valueTurn (u ++ c :: rest) (size u) () = .ok (.next (size (u ++ c :: rest.take n)) ()) := by
      rw [valueTurn, byteAt_size (toNat_of_isQuote hquote), ok_bind, if_pos hquote, skipString_size hquote]
      rfl
    have hnext := ih (u ++ c :: rest.take n)
    rw [List.append_assoc, List.cons_append, List.take_append_drop] at hnext
    rw [loop_of_next (size_lt_size_append u c _) hturn (size_lt_size_append u c _), hnext, List.append_assoc,
      List.take_add]
    rfl
  | case3 c rest hquote hend =>
    have hascii : c.toNat < 128 := by
      simp only [Bool.or_eq_true, decide_eq_true_eq] at hend
      rcases hend with rfl | rfl <;> decide
    have hturn : valueTurn (u ++ c :: rest) (size u) () = .ok (.done (size u)) := by
      simp at hend
      simp [valueTurn, byteAt_size hascii, hquote, hend]
    rw [loop_of_done (size_lt_size_append u c rest) hturn, List.take_zero, List.append_nil]
  | case4 c rest hquote hend ih =>
    have hturn : ∀ i d s, d ∈ bytewise [c] → (bytewise (u ++ c :: rest)).drop i = d :: s →
        valueTurn (u ++ c :: rest) i () = .ok (.next (i + 1) ()) := by
      intro i d s hd hdrop
      have hquote' : isQuote d = false := by
        rw [eq_of_mem_bytewise (fun _ => isQuote_of_beyond) hd, Bool.eq_false_iff.2 hquote]
      simp only [Bool.or_eq_true, decide_eq_true_eq, not_or] at hend
      simp [valueTurn, byteAt_of_drop hdrop, hquote', ne_of_mem_bytewise (by decide) hend.1 hd,
        ne_of_mem_bytewise (by decide) hend.2 hd]
    have hnext := ih (u ++ [c])
    rw [← List.append_cons, ← List.append_cons] at hnext
    rw [loop_of_plain hturn, hnext, List.take_succ_cons]

/-! ## Declarations -/

theorem declarationAt_size (u v : List Char) :
    declarationAt (u ++ v) (size u) = .ok none ∧ Declaration.ofText? v = none ∨
      ∃ d w, u ++ v = w ++ d.rest ∧ size u ≤ size w ∧ Declaration.ofText? v = some d ∧
        declarationAt (u ++ v) (size u) = .ok (some (d.name, d.value, size w)) := by
  obtain ⟨name, tail, hv, hname, htail⟩ : ∃ name tail, v = name ++ tail ∧ v.takeWhile isIdent = name ∧
      v.dropWhile isIdent = tail := ⟨_, _, List.takeWhile_append_dropWhile.symm, rfl, rfl⟩
  have hstop := skipWhile_size (fun _ => isIdent_of_beyond) u v
  obtain ⟨w, hw, hcolon⟩ := exists_blanks (u ++ name) tail
  rw [List.append_assoc, ← hv] at hw hcolon
  have hpeek : peek (u ++ v) (size w) = some ':' ↔ (skipBlanks tail).head? = some ':' := by
    rw [hw, peek_size, head?_bytewise_eq_iff (by decide)]
  rw [hname] at hstop
  rw [declarationAt, hstop, ok_bind, hcolon, ok_bind, Declaration.ofText?, hname, htail]
  by_cases hempty : name = []
  · rw [hempty, List.append_nil, if_neg fun h => Nat.lt_irrefl _ h.1]
    exact .inl ⟨rfl, rfl⟩
  have hlt : size u < size (u ++ name) := by
    rw [size_append]
    exact Nat.lt_add_of_pos_right (size_pos hempty)
  by_cases hhead : (skipBlanks tail).head? = some ':'
  · obtain ⟨after, hafter⟩ := List.head?_eq_some_iff.1 hhead
    have hbehind : u ++ v = w ++ [':'] ++ after := by rw [hw, hafter, List.append_cons]
    have hstart : size w + 1 = size (w ++ [':']) := by rw [size_append, size_singleton (by decide)]
    have hend : valueEnd (u ++ v) (size w + 1) = .ok (size (w ++ [':'] ++ after.take (valueLength after))) := by
      rw [hbehind, hstart, valueEnd_size]
    have hvalue : slice (u ++ v) (size w + 1) (size (w ++ [':'] ++ after.take (valueLength after))) =
        .ok (after.take (valueLength after)) := by
      have hcut := slice_size (w ++ [':']) (after.take (valueLength after)) (after.drop (valueLength after))
      rwa [List.append_assoc, List.take_append_drop, ← hbehind, ← hstart] at hcut
    have hnamed : slice (u ++ v) (size u) (size (u ++ name)) = .ok name := by
      rw [hv, ← List.append_assoc, slice_size]
    rw [if_pos ⟨hlt, hpeek.2 hhead⟩, if_neg hempty, hafter, hend, ok_bind, hvalue, ok_bind, unquote_eq, ok_bind, hnamed]
    refine .inr ⟨_, w ++ [':'] ++ after.take (valueLength after), ?_, ?_, rfl, rfl⟩
    · rw [hbehind, List.append_assoc _ (after.take _), List.take_append_drop]
    · have hskip := Except.ok.inj (hcolon.symm.trans (skipWhile_eq_takeWhile _ _ _))
      rw [size_append, ← hstart]
      omega
  · rw [if_neg fun h => hhead (hpeek.1 h.2), if_neg hempty]
    refine .inl ⟨rfl, ?_⟩
    split
    · rename_i after hafter
      exact absurd (congrArg List.head? hafter) hhead
    · rfl

/-- Behind a character that marks nothing a statement may still start if that is a blank. -/
theorem variableTurn_of_unmarked {i depth : Nat} {start : Bool} {bound : Variables} {d : Char} {s : List Char}
    (hquote : ¬ isQuote c = true) (hopen : c ≠ '{') (hclose : c ≠ '}') (hend : c ≠ ';')
    (hmark : ¬ (c = '@' ∧ depth = 0 ∧ start = true)) (hd : d ∈ bytewise [c]) (hdrop : (bytewise text).drop i = d :: s) :
    variableTurn text i ⟨depth, start, bound⟩ = .ok (.next (i + 1) ⟨depth, start && isAsciiBlank c, bound⟩) := by
  have hquote' : ¬ isQuote d = true := by rwa [eq_of_mem_bytewise (fun _ => isQuote_of_beyond) hd]
  have hblank : isAsciiBlank d = isAsciiBlank c := eq_of_mem_bytewise (fun _ => isAsciiBlank_of_beyond) hd
  have hmark' : ¬ (d = '@' ∧ depth = 0 ∧ start = true) := by
    rintro ⟨rfl, hstart⟩
    obtain rfl := eq_of_ascii_mem_bytewise (by decide) hd
    exact hmark ⟨rfl, hstart⟩
  rw [variableTurn, byteAt_of_drop hdrop, ok_bind, if_neg hquote', if_neg (ne_of_mem_bytewise (by decide) hopen hd),
    if_neg (ne_of_mem_bytewise (by decide) hclose hd), if_neg (ne_of_mem_bytewise (by decide) hend hd), if_neg hmark',
    hblank]
  cases isAsciiBlank c <;> simp

/-- What the loop declares is added to what is bound already. -/
theorem loop_variableTurn (depth : Nat) (start : Bool) (w v : List Char) (bound : Variables) :
    loop (size (w ++ v)) (variableTurn (w ++ v)) (fun _ s => s.bound) (size w) ⟨depth, start, bound⟩ =
      .ok ((declarations depth start v).foldl (fun m e => m.insert e.1 e.2) bound) := by
  fun_induction declarations depth start v generalizing w bound with
  | case1 depth start =>
    rw [loop_of_le (by simp)]
    rfl
  | case2 depth start c rest hquote ih =>
    have hturn : variableTurn (w ++ c :: rest) (size w) ⟨depth, start, bound⟩ =
        .ok (.next (size (w ++ c :: rest.take (quotedLength c rest))) ⟨depth, false, bound⟩) := by
      rw [variableTurn, byteAt_size (toNat_of_isQuote hquote), ok_bind, if_pos hquote, skipString_size hquote]
      rfl
    have hnext := ih (w ++ c :: rest.take (quotedLength c rest)) bound
    rw [List.append_assoc, List.cons_append, List.take_append_drop] at hnext
    rw [loop_of_next (size_lt_size_append w c _) hturn (size_lt_size_append w c _), hnext]
  | case3 depth start rest hquote ih =>
    have hturn : variableTurn (w ++ '{' :: rest) (size w) ⟨depth, start, bound⟩ =
        .ok (.next (size w + 1) ⟨depth + 1, true, bound⟩) := by simp [variableTurn, byteAt_size, hquote]
    have hnext := ih (w ++ ['{']) bound
    rw [← List.append_cons] at hnext
    rw [loop_of_ascii (by decide) hturn, hnext]
  | case4 depth start rest hquote hopen ih =>
    have hturn : variableTurn (w ++ '}' :: rest) (size w) ⟨depth, start, bound⟩ =
        .ok (.next (size w + 1) ⟨depth - 1, true, bound⟩) := by simp [variableTurn, byteAt_size, hquote]
    have hnext := ih (w ++ ['}']) bound
    rw [← List.append_cons] at hnext
    rw [loop_of_ascii (by decide) hturn, hnext]
  | case5 depth start rest hquote hopen hclose ih =>
    have hturn : variableTurn (w ++ ';' :: rest) (size w) ⟨depth, start, bound⟩ =
        .ok (.next (size w + 1) ⟨depth, true, bound⟩) := by simp [variableTurn, byteAt_size, hquote]
    have hnext := ih (w ++ [';']) bound
    rw [← List.append_cons] at hnext
    rw [loop_of_ascii (by decide) hturn, hnext]
  | case6 depth start c rest hquote hopen hclose hend hmark d hd hle ih =>
    simp only [Bool.and_eq_true, decide_eq_true_eq] at hmark
    obtain ⟨⟨rfl, rfl⟩, rfl⟩ := hmark
    have hstart : size w + 1 = size (w ++ ['@']) := by rw [size_append, size_singleton (by decide)]
    rcases declarationAt_size (w ++ ['@']) rest with ⟨-, hnone⟩ | ⟨found, front, htext, hfront, hfound, hat⟩
    · cases hd.symm.trans hnone
    obtain rfl := Option.some.inj (hd.symm.trans hfound)
    rw [← List.append_cons] at htext hat
    have hturn : variableTurn (w ++ '@' :: rest) (size w) ⟨0, true, bound⟩ =
        .ok (.next (size front) ⟨0, true, bound.insert d.name d.value⟩) := by
      simp [variableTurn, byteAt_size, hquote, hstart, hat]
    have hmove : size w < size front := Nat.lt_of_lt_of_le (hstart ▸ Nat.lt_succ_self _) hfront
    have hnext := ih front (bound.insert d.name d.value)
    rw [← htext] at hnext
    rw [loop_of_next (size_lt_size_append w '@' rest) hturn hmove, hnext, List.foldl_cons]
  | case7 depth start c rest hquote hopen hclose hend hmark hd ih =>
    simp only [Bool.and_eq_true, decide_eq_true_eq] at hmark
    obtain ⟨⟨rfl, rfl⟩, rfl⟩ := hmark
    have hstart : size w + 1 = size (w ++ ['@']) := by rw [size_append, size_singleton (by decide)]
    rcases declarationAt_size (w ++ ['@']) rest with ⟨hat, -⟩ | ⟨found, front, htext, hfront, hfound, hat⟩
    · rw [← List.append_cons] at hat
      have hturn : variableTurn (w ++ '@' :: rest) (size w) ⟨0, true, bound⟩ =
          .ok (.next (size w + 1) ⟨0, false, bound⟩) := by
        simp [variableTurn, byteAt_size, hquote, hstart, hat]
      have hnext := ih (w ++ ['@']) bound
      rw [← List.append_cons] at hnext
      rw [loop_of_ascii (by decide) hturn, hnext]
    · cases hd.symm.trans hfound
  | case8 depth start c rest hquote hopen hclose hend hmark ih =>
    simp only [Bool.and_eq_true, decide_eq_true_eq, and_assoc] at hmark
    -- The first byte of the character finds the statement as it was, the others as that one has left it.
    have hturn : ∀ i d s now, now = Reading.mk depth start bound ∨ now = Reading.mk depth (start && isAsciiBlank c) bound →
        d ∈ bytewise [c] → (bytewise (w ++ c :: rest)).drop i = d :: s →
        variableTurn (w ++ c :: rest) i now = .ok (.next (i + 1) ⟨depth, start && isAsciiBlank c, bound⟩) := by
      rintro i d s now (rfl | rfl) hd hdrop
      · exact variableTurn_of_unmarked hquote hopen hclose hend hmark hd hdrop
      · have hmark' : ¬ (c = '@' ∧ depth = 0 ∧ (start && isAsciiBlank c) = true) := fun h =>
          hmark ⟨h.1, h.2.1, (Bool.and_eq_true_iff.1 h.2.2).1⟩
        rw [variableTurn_of_unmarked hquote hopen hclose hend hmark' hd hdrop, Bool.and_assoc, Bool.and_self]
    have hnext := ih (w ++ [c]) bound
    rw [← List.append_cons] at hnext
    rw [loop_of_char hturn, hnext]

theorem bindings_eq (text : List Char) : bindings text = .ok (Variables.ofText text) :=
  loop_variableTurn 0 true [] text .empty

end StyleTrack.Source.Indexed
