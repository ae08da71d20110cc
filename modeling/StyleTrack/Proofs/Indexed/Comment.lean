/-
The pass that blanks comments out, by position. Where a comment is closed, it cuts the text behind the mark that opens the
comment and searches for the mark that closes it; both cuts are between characters. What it has overwritten when it ends
are the bytes of the stripped text, so they are valid.
-/
import StyleTrack.Proofs.Indexed.Lexeme
import StyleTrack.Proofs.Source.Offset

namespace StyleTrack.Source.Indexed

open StyleTrack.Text

/-! ## The pass -/

/-- Overwrites the bytes between two positions, except for line feeds. -/
def blank (out : List UInt8) (start stop : Nat) : Checked (List UInt8) :=
  if start ≤ stop ∧ stop ≤ out.length then
    .ok (out.take start ++ ((out.drop start).take (stop - start)).map (blankedByte .comment) ++ out.drop stop)
  else .error (.badCut start stop)

/-- The position behind the block comment that begins at `i`. -/
def blockEnd (text : List Char) (i : Nat) : Checked Nat := do
  return ((find? ['*', '/'] (← slice text (i + 2) (size text))).map (i + 2 + · + 2)).getD (size text)

/-- The position behind the line comment that begins at `i`. -/
def lineEnd (text : List Char) (i : Nat) : Checked Nat := do
  return ((find? ['\n'] (← slice text i (size text))).map (i + ·)).getD (size text)

/-- Takes one lexeme and overwrites it if it is a comment. -/
def stripTurn (text : List Char) (i : Nat) (out : List UInt8) : Checked (Turn (List UInt8) (List UInt8)) := do
  let b ← byteAt text i
  if isQuote b then return .next (← skipString text i) out
  else if b = '/' ∧ peek text (i + 1) = some '*' then
    let stop ← blockEnd text i
    return .next stop (← blank out i stop)
  else if b = '/' ∧ peek text (i + 1) = some '/' then
    let stop ← lineEnd text i
    return .next stop (← blank out i stop)
  else return .next (← pastUrl text i) out

/-- The text with its comments blanked out. -/
def stripComments (text : List Char) : Checked (List Char) := do
  let out ← loop (size text) (stripTurn text) (fun _ out => out) 0 (Utf8.encode text)
  match Utf8.decode out with
  | .ok stripped => return stripped
  | .error _ => return Utf8.decodeLossy out

variable {before : Option Char} {s u body rest : List Char} {c : Char} {kind : Kind}

/-! ## Overwriting -/

theorem blank_encode (hs : size s = size u) (t v : List Char) :
    blank (Utf8.encode (s ++ (t ++ v))) (size u) (size (u ++ t)) = .ok (Utf8.encode (s ++ (t.flatMap blanked ++ v))) := by
  have hlength : (Utf8.encode s).length = size u := (size_eq_length_encode s).symm.trans hs
  have hmiddle : size (u ++ t) - size u = (Utf8.encode t).length := by
    rw [size_append, Nat.add_sub_cancel_left, size_eq_length_encode]
  have hback : size (u ++ t) = (Utf8.encode s).length + (Utf8.encode t).length := by
    rw [size_append, hlength, size_eq_length_encode t]
  have hstop : size (u ++ t) ≤ (Utf8.encode (s ++ (t ++ v))).length := by
    simp only [Utf8.encode_append, List.length_append, hback]
    omega
  rw [blank, if_pos ⟨by rw [size_append]; exact Nat.le_add_right _ _, hstop⟩, hmiddle]
  simp only [Utf8.encode_append, hback, ← hlength, List.take_left, List.drop_left, List.drop_length_add_append,
    map_blankedByte_encode, List.append_assoc]

/-! ## Where a comment ends -/

theorem find?_block (s : List Char) :
    ((find? ['*', '/'] s).map (· + 2)).getD (size s) = size (s.take (blockLength s)) := by
  fun_induction blockLength s with
  | case1 => rfl
  | case2 rest =>
    rw [find?_of_isPrefix (by simp)]
    rfl
  | case3 c rest hend ih =>
    have hnot : ¬ ['*', '/'] <+: c :: rest := by
      rintro ⟨tail, htail⟩
      obtain ⟨rfl, hrest⟩ := List.cons.inj htail
      exact hend tail rfl hrest.symm
    rw [find?_cons_of_not hnot, List.take_succ_cons, size_cons c (rest.take _), ← ih, size_cons c rest]
    cases find? ['*', '/'] rest with
    | none => rfl
    | some n => exact Nat.add_assoc _ _ _

theorem blockEnd_size (h : blockLength (body ++ rest) = body.length) :
    blockEnd (u ++ ('/' :: '*' :: body ++ rest)) (size u) = .ok (size (u ++ '/' :: '*' :: body)) := by
  have hopening : size u + 2 = size (u ++ ['/', '*']) := by
    rw [size_append]
    rfl
  have htext : ∀ t, u ++ '/' :: '*' :: t = u ++ ['/', '*'] ++ t := by simp
  have hfound := find?_block (body ++ rest)
  rw [h, List.take_left] at hfound
  rw [List.cons_append, List.cons_append, htext body, htext, blockEnd, hopening, slice_to_end, ok_bind, pure_eq_ok,
    size_append _ (body ++ rest), size_append _ body, ← hfound]
  cases find? ['*', '/'] (body ++ rest) with
  | none => rfl
  | some n => rfl

theorem lineEnd_size (hfree : '\n' ∉ body) (hends : ∀ d ∈ rest.head?, d = '\n') :
    lineEnd (u ++ (body ++ rest)) (size u) = .ok (size (u ++ body)) := by
  rw [lineEnd, slice_to_end, ok_bind]
  cases rest with
  | nil =>
    rw [List.append_nil, find?_of_notMem hfree]
    rfl
  | cons d rest =>
    obtain rfl : d = '\n' := hends d rfl
    rw [find?_append hfree, size_append u body]
    rfl

/-! ## One lexeme -/

theorem stripTurn_of_beyond {text : List Char} {i : Nat} {d : Char} {tail : List Char} (hd : 128 ≤ d.toNat)
    (hdrop : (bytewise text).drop i = d :: tail) (out : List UInt8) : stripTurn text i out = .ok (.next (i + 1) out) := by
  simp [stripTurn, byteAt_of_drop hdrop, isQuote_of_beyond hd, ne_of_beyond hd (d := '/') (by decide),
    pastUrl_of_beyond hd hdrop]

theorem size_stripped (h : commentStep before c (body ++ rest) = (kind, body.length)) :
    size (Lexeme.mk kind (c :: body)).stripped = size (c :: body) := by
  rw [size_eq_length_encode, size_eq_length_encode, length_stripped h]

/-- A turn takes a lexeme and leaves its bytes as they are or overwrites them. -/
theorem stripTurn_lexeme (hc : c.toNat < 128) (hs : size s = size u)
    (h : commentStep (lastOf none u) c (body ++ rest) = (kind, body.length)) :
    stripTurn (u ++ (c :: body ++ rest)) (size u) (Utf8.encode (s ++ (c :: body ++ rest))) =
      .ok (.next (size (u ++ c :: body)) (Utf8.encode (s ++ ((Lexeme.mk kind (c :: body)).stripped ++ rest)))) := by
  have hbyte : byteAt (u ++ (c :: body ++ rest)) (size u) = .ok c := byteAt_size hc u (body ++ rest)
  have hnext : ∀ d : Char, d.toNat < 128 →
      (peek (u ++ (c :: body ++ rest)) (size u + 1) = some d ↔ (body ++ rest).head? = some d) := by
    intro d hd
    have hpeek := peek_size (u ++ [c]) (body ++ rest)
    rw [size_append, size_singleton hc, ← List.append_cons] at hpeek
    rw [← head?_bytewise_eq_iff hd, ← hpeek]
    rfl
  rw [stripTurn, hbyte, ok_bind]
  cases commentStep_iff.1 h with
  | quoted body rest opens length =>
    rw [if_pos opens, List.cons_append, skipString_size opens, length, List.take_left, ok_bind,
      stripped_of_ne_comment (by decide)]
    rfl
  | block inner rest opens length =>
    subst opens
    have hstar := (hnext '*' (by decide)).2 rfl
    rw [if_neg (by decide), if_pos ⟨rfl, hstar⟩, blockEnd_size length, ok_bind, blank_encode hs, ok_bind,
      stripped_of_comment rfl]
    rfl
  | line inner rest opens free ends =>
    subst opens
    have hslash := (hnext '/' (by decide)).2 rfl
    have hends : lineEnd (u ++ ('/' :: '/' :: inner ++ rest)) (size u) = .ok (size (u ++ '/' :: '/' :: inner)) :=
      lineEnd_size (by simpa using free) ends
    have hstar : ¬ ('/' = '/' ∧ peek (u ++ ('/' :: '/' :: inner ++ rest)) (size u + 1) = some '*') := by
      rintro ⟨-, heq⟩
      cases hslash.symm.trans heq
    rw [if_neg (by decide), if_neg hstar, if_pos ⟨rfl, hslash⟩, hends, ok_bind, blank_encode hs, ok_bind,
      stripped_of_comment rfl]
    rfl
  | code body rest kind unquoted uncommented code =>
    have hnone : ∀ d : Char, d.toNat < 128 → (c = '/' → ∀ x ∈ (body ++ rest).head?, x ≠ d) →
        ¬ (c = '/' ∧ peek (u ++ (c :: body ++ rest)) (size u + 1) = some d) :=
      fun d hd hne ⟨heq, hpeek⟩ => hne heq d ((hnext d hd).1 hpeek) rfl
    rw [if_neg (by simp [unquoted]), if_neg (hnone '*' (by decide) fun heq x hx => (uncommented heq x hx).1),
      if_neg (hnone '/' (by decide) fun heq x hx => (uncommented heq x hx).2), pastUrl_lexeme hc (urlStep_iff.2 code),
      ok_bind, stripped_of_ne_comment code.ne_comment]
    rfl

theorem plain_of_beyond (hc : 128 ≤ c.toNat) (h : commentStep before c (body ++ rest) = (kind, body.length)) :
    body = [] ∧ kind = .plain := by
  rw [commentStep_of_beyond hc] at h
  obtain ⟨hkind, hlength⟩ := Prod.mk.inj h
  exact ⟨List.length_eq_zero_iff.1 hlength.symm, hkind.symm⟩

/-- What has been overwritten is as long as what has been read, and what is behind it is as it was. -/
theorem loop_stripTurn (before : Option Char) (v : List Char) (hbefore : lastOf none u = before) (hs : size s = size u) :
    loop (size (u ++ v)) (stripTurn (u ++ v)) (fun _ out => out) (size u) (Utf8.encode (s ++ v)) =
      .ok (Utf8.encode (s ++ stripAfter before v)) := by
  induction before, v using bounded_commentStep.induction generalizing u s with
  | nil before =>
    rw [List.append_nil, loop_of_le (Nat.le_refl _)]
    simp [stripAfter, segment]
  | cons before c body rest kind hstep ih =>
    subst hbefore
    have hsize : size (s ++ (Lexeme.mk kind (c :: body)).stripped) = size (u ++ c :: body) := by
      rw [size_append, size_append, hs, size_stripped hstep]
    have hnext := ih (lastOf_append none u _) hsize
    rw [List.append_assoc, List.append_assoc, List.append_assoc] at hnext
    rw [loop_of_lexeme (fun hc => stripTurn_lexeme hc hs hstep) (fun hc => ?_)
      fun i d tail hd hdrop => stripTurn_of_beyond hd hdrop _, hnext, stripAfter_lexeme hstep]
    -- A character beyond ASCII stays as it is.
    obtain ⟨rfl, rfl⟩ := plain_of_beyond hc hstep
    exact ⟨rfl, rfl⟩

theorem stripComments_eq (text : List Char) : stripComments text = .ok (Source.stripComments text) := by
  have hloop : loop (size text) (stripTurn text) (fun _ out => out) 0 (Utf8.encode text) =
      .ok (Utf8.encode (Source.stripComments text)) := loop_stripTurn (u := []) (s := []) none text rfl rfl
  rw [stripComments, hloop, ok_bind, Utf8.decode_encode]
  rfl

end StyleTrack.Source.Indexed
