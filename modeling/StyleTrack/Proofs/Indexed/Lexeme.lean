/-
Strings and unquoted bodies by position. A string may end in a backslash, behind which the scan skips a byte that is not
there or the first byte of a longer character; it still ends where a character does. What the other scans do at a
character beyond ASCII they do at each of its bytes, so they leave it where it ends.
-/
import StyleTrack.Proofs.Indexed.Access

namespace StyleTrack.Source.Indexed

open StyleTrack.Text

/-! ## Opaque parts -/

/-- Whether there is a byte at a position and it has a property. -/
def holdsAt (text : List Char) (p : Char → Bool) (i : Nat) : Checked Bool := do
  if i < size text then return p (← byteAt text i)
  else return false

/-- One byte with a property, or the end of them. -/
def whileTurn (text : List Char) (p : Char → Bool) (i : Nat) (_ : Unit) : Checked (Turn Unit Nat) := do
  if p (← byteAt text i) then return .next (i + 1) ()
  else return .done i

/-- The position from `i` on at which bytes with a property end. -/
def skipWhile (text : List Char) (p : Char → Bool) (i : Nat) : Checked Nat :=
  loop (size text) (whileTurn text p) (fun i _ => i) i ()

/-- One byte of a string, the byte behind a backslash with it, or the closing quote. -/
def stringTurn (text : List Char) (quote : Char) (i : Nat) (_ : Unit) : Checked (Turn Unit Nat) := do
  let b ← byteAt text i
  if b = '\\' then return .next (i + 2) ()
  else if b = quote then return .done (i + 1)
  else return .next (i + 1) ()

/-- The position behind the string whose opening quote is at `start`. -/
def skipString (text : List Char) (start : Nat) : Checked Nat := do
  let quote ← byteAt text start
  loop (size text) (stringTurn text quote) (fun _ _ => size text) (start + 1) ()

/-- The position behind the unquoted body whose opening parenthesis is in front of `start`; `none` if it is quoted. -/
def skipRawUrl (text : List Char) (start : Nat) : Checked (Option Nat) := do
  let first ← skipWhile text isAsciiBlank start
  if ← holdsAt text isQuote first then return none
  let close ← skipWhile text (· ≠ ')') first
  return some (min (close + 1) (size text))

/-! ## Words -/

/-- Whether a word stands at a position. -/
def hasWord (text word : List Char) (i : Nat) : Checked Bool := do
  if i + word.length ≤ size text then return startsWord word (← bytesBetween text i (i + word.length))
  else return false

/-- Whether a position is the first or the byte in front of it has a property. -/
def precededBy (text : List Char) (p : Char → Bool) (i : Nat) : Checked Bool := do
  if i = 0 then return true
  else return p (← byteAt text (← minus i 1))

/-- Whether a word stands at a position, first or behind a byte with a property. -/
def standsAt (text word : List Char) (p : Char → Bool) (i : Nat) : Checked Bool := do
  if ← hasWord text word i then precededBy text p i
  else return false

/-- Whether `url(` stands at a position as a token of its own. -/
def isUrlOpen (text : List Char) (i : Nat) : Checked Bool := standsAt text ['u', 'r', 'l', '('] (!isIdent ·) i

/-- The position behind the lexeme at `i`, if it is neither quoted nor a word of interest. -/
def pastUrl (text : List Char) (i : Nat) : Checked Nat := do
  if ← isUrlOpen text i then return (← skipRawUrl text (i + 4)).getD (i + 4)
  else return i + 1

variable {text s u v w body rest : List Char} {c d quote : Char} {i start : Nat} {p : Char → Bool} {kind : Kind}
  {σ ρ : Type} {turn : Nat → σ → Checked (Turn σ ρ)} {last : Nat → σ → ρ} {state : σ}

/-! ## Characters -/

/-- What only ASCII characters have a character has if and only if its bytes have it. -/
theorem eq_of_mem_bytewise (hp : ∀ c, 128 ≤ c.toNat → p c = false) (hd : d ∈ bytewise [c]) : p d = p c := by
  by_cases hc : c.toNat < 128
  · rw [bytewise_singleton hc] at hd
    rw [List.mem_singleton.1 hd]
  · have hbeyond : 128 ≤ c.toNat := Nat.le_of_not_lt hc
    rw [hp c hbeyond, hp d (beyond_of_mem_bytewise hbeyond d hd)]

theorem eq_of_ascii_mem_bytewise (hd : d.toNat < 128) (h : d ∈ bytewise [c]) : d = c :=
  List.mem_singleton.1 ((mem_bytewise_iff hd).1 h)

theorem ne_of_mem_bytewise {x : Char} (hx : x.toNat < 128) (hc : c ≠ x) (hd : d ∈ bytewise [c]) : d ≠ x := by
  rintro rfl
  exact hc (eq_of_ascii_mem_bytewise hx hd).symm

/-- A character takes one turn for each of its bytes. What each turn does to the state may as well be done once. -/
theorem loop_of_char {state' : σ} (hturn : ∀ i d s now, now = state ∨ now = state' → d ∈ bytewise [c] →
      (bytewise (u ++ c :: v)).drop i = d :: s → turn i now = .ok (.next (i + 1) state')) :
    loop (size (u ++ c :: v)) turn last (size u) state =
      loop (size (u ++ c :: v)) turn last (size (u ++ [c])) state' := by
  -- By induction on the bytes that are left, of which all but the first find the new state.
  have hbytes : ∀ s n now, now = state ∨ now = state' → (∀ d ∈ s, d ∈ bytewise [c]) →
      (bytewise (u ++ c :: v)).drop n = s ++ bytewise v → s ≠ [] →
      loop (size (u ++ c :: v)) turn last n now = loop (size (u ++ c :: v)) turn last (n + s.length) state' := by
    intro s
    induction s with
    | nil => exact fun _ _ _ _ _ hne => absurd rfl hne
    | cons d s ih =>
      intro n now hnow hs hdrop hne
      have hnext := hturn n d _ now hnow (hs d List.mem_cons_self) hdrop
      rw [loop_of_next (lt_size_of_drop hdrop) hnext (Nat.lt_succ_self n), List.length_cons]
      by_cases hempty : s = []
      · rw [hempty]
        rfl
      · rw [ih (n + 1) _ (.inr rfl) (fun d hd => hs d (List.mem_cons_of_mem _ hd)) (drop_succ_of_drop hdrop) hempty,
          Nat.add_right_comm, Nat.add_assoc]
  have hdrop : (bytewise (u ++ c :: v)).drop (size u) = bytewise [c] ++ bytewise v := by
    rw [drop_size, bytewise_cons]
  rw [hbytes _ _ state (.inl rfl) (fun _ hd => hd) hdrop (bytewise_ne_nil (by simp)), size_append u [c]]
  rfl

theorem loop_of_plain (hturn : ∀ i d s, d ∈ bytewise [c] → (bytewise (u ++ c :: v)).drop i = d :: s →
      turn i state = .ok (.next (i + 1) state)) :
    loop (size (u ++ c :: v)) turn last (size u) state = loop (size (u ++ c :: v)) turn last (size (u ++ [c])) state :=
  loop_of_char fun i d s _ hnow => hnow.elim id id ▸ hturn i d s

theorem loop_of_ascii {state' : σ} (hc : c.toNat < 128) (h : turn (size u) state = .ok (.next (size u + 1) state')) :
    loop (size (u ++ c :: v)) turn last (size u) state =
      loop (size (u ++ c :: v)) turn last (size (u ++ [c])) state' := by
  rw [loop_of_next (size_lt_size_append u c v) h (Nat.lt_succ_self _), size_append u [c], size_singleton hc]

/-- One lexeme of a text, if a character beyond ASCII is a lexeme that changes nothing. -/
theorem loop_of_lexeme {state' : σ}
    (hascii : c.toNat < 128 → turn (size u) state = .ok (.next (size (u ++ c :: body)) state'))
    (hbeyond : 128 ≤ c.toNat → body = [] ∧ state' = state)
    (hturn : ∀ i d s, 128 ≤ d.toNat → (bytewise (u ++ (c :: body ++ rest))).drop i = d :: s →
      turn i state = .ok (.next (i + 1) state)) :
    loop (size (u ++ (c :: body ++ rest))) turn last (size u) state =
      loop (size (u ++ (c :: body ++ rest))) turn last (size (u ++ c :: body)) state' := by
  by_cases hc : c.toNat < 128
  · exact loop_of_next (size_lt_size_append u c _) (hascii hc) (size_lt_size_append u c _)
  · have hc : 128 ≤ c.toNat := Nat.le_of_not_lt hc
    obtain ⟨rfl, rfl⟩ := hbeyond hc
    exact loop_of_plain fun i d s hd => hturn i d s (beyond_of_mem_bytewise hc d hd)

/-! ## Skipping -/

theorem holdsAt_eq_any (text : List Char) (p : Char → Bool) (i : Nat) :
    holdsAt text p i = .ok (((bytewise text).drop i).head?.any p) := by
  cases hs : (bytewise text).drop i with
  | nil =>
    have hend : size text ≤ i := List.drop_eq_nil_iff.1 hs
    exact if_neg (Nat.not_lt.2 hend)
  | cons b s => simp [holdsAt, lt_size_of_drop hs, byteAt_of_drop hs]

theorem skipWhile_eq_takeWhile (text : List Char) (p : Char → Bool) (i : Nat) :
    skipWhile text p i = .ok (i + (((bytewise text).drop i).takeWhile p).length) := by
  unfold skipWhile
  induction hs : (bytewise text).drop i generalizing i with
  | nil =>
    have hend : size text ≤ i := List.drop_eq_nil_iff.1 hs
    rw [loop_of_le hend]
    rfl
  | cons b s ih =>
    by_cases hb : p b = true
    · have hturn : whileTurn text p i () = .ok (.next (i + 1) ()) := by simp [whileTurn, byteAt_of_drop hs, hb]
      rw [loop_of_next (lt_size_of_drop hs) hturn (Nat.lt_succ_self i), ih _ (drop_succ_of_drop hs),
        List.takeWhile_cons_of_pos hb, List.length_cons, Nat.add_right_comm, Nat.add_assoc]
    · have hturn : whileTurn text p i () = .ok (.done i) := by simp [whileTurn, byteAt_of_drop hs, hb]
      rw [loop_of_done (lt_size_of_drop hs) hturn, List.takeWhile_cons_of_neg hb]
      rfl

theorem skipWhile_size (hp : ∀ c, 128 ≤ c.toNat → p c = false) (u v : List Char) :
    skipWhile (u ++ v) p (size u) = .ok (size (u ++ v.takeWhile p)) := by
  rw [skipWhile_eq_takeWhile, drop_size, takeWhile_bytewise hp, size_append]
  rfl

theorem exists_blanks (u v : List Char) :
    ∃ w, u ++ v = w ++ skipBlanks v ∧ skipWhile (u ++ v) isAsciiBlank (size u) = .ok (size w) := by
  refine ⟨u ++ v.takeWhile isAsciiBlank, ?_, skipWhile_size (fun _ => isAsciiBlank_of_beyond) u v⟩
  rw [List.append_assoc, skipBlanks, List.takeWhile_append_dropWhile]

/-! ## Strings -/

theorem exists_peek (u : List Char) (c : Char) (v : List Char) :
    ∃ d ∈ bytewise [c], peek (u ++ c :: v) (size u) = some d := by
  obtain ⟨d, more, hbytes⟩ := List.exists_cons_of_ne_nil (bytewise_ne_nil (s := [c]) (by simp))
  refine ⟨d, hbytes ▸ List.mem_cons_self, ?_⟩
  rw [peek_size, bytewise_cons, hbytes]
  rfl

theorem loop_stringTurn (hquote : quote ≠ '\\') (hi : i ≤ size text) (hs : (bytewise text).drop i = s) :
    loop (size text) (stringTurn text quote) (fun _ _ => size text) i () = .ok (i + quotedLength quote s) := by
  fun_induction quotedLength quote s generalizing i with
  | case1 =>
    have hend : size text ≤ i := List.drop_eq_nil_iff.1 hs
    rw [loop_of_le hend, Nat.le_antisymm hend hi]
    rfl
  | case2 d rest ih =>
    have hnext := drop_succ_of_drop hs
    have hturn : stringTurn text quote i () = .ok (.next (i + 2) ()) := by simp [stringTurn, byteAt_of_drop hs]
    rw [loop_of_next (lt_size_of_drop hs) hturn (by omega), ih (lt_size_of_drop hnext) (drop_succ_of_drop hnext)]
    exact congrArg Except.ok (by omega)
  | case3 rest hend =>
    have hturn : stringTurn text quote i () = .ok (.done (i + 1)) := by simp [stringTurn, byteAt_of_drop hs, hquote]
    rw [loop_of_done (lt_size_of_drop hs) hturn]
  | case4 c rest hend hne ih =>
    by_cases hescape : c = '\\'
    · -- A backslash in the last place leads past the end.
      have hnil : rest = [] := List.eq_nil_iff_forall_not_mem.2 fun d hd => by
        obtain ⟨x, more, rfl⟩ := List.exists_cons_of_ne_nil (List.ne_nil_of_mem hd)
        exact hend x more hescape rfl
      subst hnil hescape
      have hsize := size_eq_of_drop hi hs
      have hturn : stringTurn text quote i () = .ok (.next (i + 2) ()) := by simp [stringTurn, byteAt_of_drop hs]
      rw [loop_of_next (lt_size_of_drop hs) hturn (by omega), loop_of_le (by rw [hsize]; exact Nat.le_succ _), hsize]
      rfl
    · have hturn : stringTurn text quote i () = .ok (.next (i + 1) ()) := by
        simp [stringTurn, byteAt_of_drop hs, hescape, hne]
      rw [loop_of_next (lt_size_of_drop hs) hturn (Nat.lt_succ_self i), ih (lt_size_of_drop hs) (drop_succ_of_drop hs)]
      exact congrArg Except.ok (by omega)

theorem skipString_eq_quotedLength (hquote : quote ≠ '\\') (hs : (bytewise text).drop start = quote :: s) :
    skipString text start = .ok (start + 1 + quotedLength quote s) := by
  rw [skipString, byteAt_of_drop hs, ok_bind]
  exact loop_stringTurn hquote (lt_size_of_drop hs) (drop_succ_of_drop hs)

theorem drop_size_of_ascii (hc : c.toNat < 128) (u v : List Char) :
    (bytewise (u ++ c :: v)).drop (size u) = c :: bytewise v := by
  rw [drop_size, bytewise_cons_of_ascii hc]

theorem byteAt_size (hc : c.toNat < 128) (u v : List Char) : byteAt (u ++ c :: v) (size u) = .ok c :=
  byteAt_of_drop (drop_size_of_ascii hc u v)

theorem skipString_size (hquote : isQuote quote = true) (u v : List Char) :
    skipString (u ++ quote :: v) (size u) = .ok (size (u ++ quote :: v.take (quotedLength quote v))) := by
  have hascii := toNat_of_isQuote hquote
  have hescape : quote ≠ '\\' := by
    rintro rfl
    cases hquote
  rw [skipString_eq_quotedLength hescape (drop_size_of_ascii hascii u v), quotedLength_bytewise hquote, size_append, size_cons,
    size_singleton hascii, ← Nat.add_assoc]
  rfl

/-! ## Unquoted bodies -/

theorem closeLength_eq_min (s : List Char) :
    closeLength s = min ((s.takeWhile (· ≠ ')')).length + 1) s.length := by
  induction s with
  | nil => rfl
  | cons c s ih =>
    rw [closeLength]
    by_cases hc : c = ')'
    · rw [if_pos hc, List.takeWhile_cons_of_neg (by simp [hc])]
      simp
    · rw [if_neg hc, ih, List.takeWhile_cons_of_pos (by simp [hc]), List.length_cons, List.length_cons,
        Nat.add_min_add_right]

theorem skipRawUrl_size (u v : List Char) :
    skipRawUrl (u ++ v) (size u) = .ok ((rawUrlLength? v).map fun n => size (u ++ v.take n)) := by
  obtain ⟨blanks, tail, rfl, hblanks, htail⟩ : ∃ blanks tail, v = blanks ++ tail ∧ v.takeWhile isAsciiBlank = blanks ∧
      skipBlanks v = tail := ⟨_, _, List.takeWhile_append_dropWhile.symm, rfl, rfl⟩
  have hdrop : (bytewise (u ++ (blanks ++ tail))).drop (size (u ++ blanks)) = bytewise tail := by
    rw [← List.append_assoc, drop_size]
  have hclose : ((bytewise (blanks ++ tail)).takeWhile (· ≠ ')')).length =
      size blanks + ((bytewise tail).takeWhile (· ≠ ')')).length := by
    -- No blank is a closing parenthesis, so it does not matter on which side of them the search begins.
    have hnone : ')' ∉ bytewise blanks := by
      rw [mem_bytewise_iff (by decide), ← hblanks]
      exact fun hmem => nomatch List.mem_takeWhile_imp hmem
    rw [bytewise_append, List.takeWhile_append_of_pos (forall_ne_of_notMem hnone), List.length_append]
    rfl
  have hend : min (size (u ++ blanks) + ((bytewise tail).takeWhile (· ≠ ')')).length + 1) (size (u ++ (blanks ++ tail))) =
      size (u ++ (blanks ++ tail).take (closeLength (blanks ++ tail))) := by
    have hlength : size ((blanks ++ tail).take (closeLength (blanks ++ tail))) = closeLength (bytewise (blanks ++ tail)) :=
      (closeLength_bytewise _).symm
    have hsize : (bytewise (blanks ++ tail)).length = size (blanks ++ tail) := rfl
    rw [size_append u, size_append u, size_append u, hlength, closeLength_eq_min, hclose, hsize]
    omega
  rw [skipRawUrl, skipWhile_size (fun _ => isAsciiBlank_of_beyond), hblanks, ok_bind, rawUrlLength?, htail]
  rw [holdsAt_eq_any, hdrop, any_head?_bytewise fun _ => isQuote_of_beyond, ok_bind]
  split
  · rfl
  · rw [skipWhile_eq_takeWhile, hdrop, ok_bind, hend]
    rfl

/-! ## Words -/

theorem hasWord_eq_startsWord (hne : w ≠ []) (text : List Char) (i : Nat) :
    hasWord text w i = .ok (startsWord w ((bytewise text).drop i)) := by
  unfold hasWord
  split
  · rename_i hle
    have hbytes : bytesBetween text i (i + w.length) = .ok (((bytewise text).drop i).take w.length) := by
      rw [bytesBetween, if_pos ⟨Nat.le_add_right _ _, hle⟩, Nat.add_sub_cancel_left]
    have hlength : w.length ≤ (((bytewise text).drop i).take w.length).length := by
      rw [List.length_take, List.length_drop]
      exact Nat.le_min.2 ⟨Nat.le_refl _, Nat.le_sub_of_add_le (Nat.add_comm i _ ▸ hle)⟩
    have hword := startsWord_append_of_length_le hlength (((bytewise text).drop i).drop w.length)
    rw [List.take_append_drop] at hword
    rw [hbytes, hword]
    rfl
  · rename_i hnot
    have hpos := List.length_pos_of_ne_nil hne
    have hstarts : startsWord w ((bytewise text).drop i) = false := by
      rw [Bool.eq_false_iff]
      intro hstarts
      have hlength := length_le_of_startsWord hstarts
      have hsize : (bytewise text).length = size text := rfl
      rw [List.length_drop, hsize] at hlength
      omega
    rw [hstarts]
    rfl

theorem exists_word (hw : ∀ d ∈ w, d.toNat < 128) (h : startsWord w v = true) :
    ∃ word, v = word ++ v.drop w.length ∧ size word = w.length := by
  have hlength : (v.take w.length).length = w.length := List.length_take_of_le (length_le_of_startsWord h)
  have hword : startsWord w (v.take w.length) = true := by
    rw [← startsWord_append_of_length_le hlength.ge (v.drop w.length), List.take_append_drop, h]
  exact ⟨_, (List.take_append_drop _ _).symm, by rw [size_of_ascii (ascii_of_startsWord hw hlength.le hword), hlength]⟩

theorem byteAt_size_sub_one (hne : u ≠ []) (v : List Char) :
    byteAt (u ++ v) (size u - 1) = .ok ((bytewise u).getLast (bytewise_ne_nil hne)) := by
  refine byteAt_of_drop (s := bytewise v) ?_
  have hlast := List.dropLast_append_getLast (bytewise_ne_nil hne)
  have hlength : size u - 1 = (bytewise u).dropLast.length := List.length_dropLast.symm
  rw [bytewise_append, hlength]
  nth_rewrite 2 [← hlast]
  rw [List.append_assoc, List.drop_left]
  rfl

theorem precededBy_size (u v : List Char) (p : Char → Bool) :
    precededBy (u ++ v) p (size u) = .ok ((lastOf none (bytewise u)).all p) := by
  by_cases hne : u = []
  · subst hne
    rfl
  · have hpos := size_pos hne
    rw [precededBy, if_neg hpos.ne', minus_of_le hpos, ok_bind, byteAt_size_sub_one hne, lastOf,
      List.getLast?_eq_some_getLast (bytewise_ne_nil hne)]
    rfl

theorem standsAt_size (hw : ∀ d ∈ w, d.toNat < 128) (hne : w ≠ []) (p : Char → Bool) (u v : List Char) :
    standsAt (u ++ v) w p (size u) = .ok (startsWord w v && (lastOf none (bytewise u)).all p) := by
  rw [standsAt, hasWord_eq_startsWord hne, drop_size, startsWord_bytewise hw, ok_bind, precededBy_size]
  cases startsWord w v <;> rfl

theorem standsAt_of_beyond (hw : ∀ d ∈ w, d.toNat < 128) (hne : w ≠ []) (hd : 128 ≤ d.toNat)
    (hs : (bytewise text).drop i = d :: s) (p : Char → Bool) : standsAt text w p i = .ok false := by
  rw [standsAt, hasWord_eq_startsWord hne, hs, startsWord_of_beyond hd hw hne]
  rfl

/-! ## Unquoted bodies and what stands alone -/

theorem isUrlOpen_size (u v : List Char) : isUrlOpen (u ++ v) (size u) = .ok (opensUrl (lastOf none u) v) := by
  have hident : (lastOf none (bytewise u)).any isIdent = (lastOf none u).any isIdent :=
    any_lastOf_bytewise (fun _ => isIdent_of_beyond) rfl u
  have hall : (lastOf none (bytewise u)).all (!isIdent ·) = !(lastOf none u).any isIdent := by
    rw [← hident]
    cases lastOf none (bytewise u) <;> simp
  rw [isUrlOpen, standsAt_size (List.forall_iff_forall_mem.1 (by decide)) (by simp), hall, opensUrl]

theorem pastUrl_of_beyond (hd : 128 ≤ d.toNat) (hs : (bytewise text).drop i = d :: s) : pastUrl text i = .ok (i + 1) := by
  rw [pastUrl, isUrlOpen, standsAt_of_beyond (List.forall_iff_forall_mem.1 (by decide)) (by simp) hd hs]
  rfl

theorem size_word_of_opensUrl {before : Option Char} (hlength : w.length = 3) (hopens : opensUrl before (c :: w) = true) :
    size (c :: w) = 4 := by
  have hascii := ascii_of_startsWord (s := c :: w) (List.forall_iff_forall_mem.1 (by decide)) (by simp [hlength])
    (Bool.and_eq_true_iff.1 hopens).1
  rw [size_of_ascii hascii, List.length_cons, hlength]

/-- An ASCII character that is no quote and starts no word leads to the end of its lexeme. -/
theorem pastUrl_lexeme (hc : c.toNat < 128) (h : urlStep (lastOf none u) c (body ++ rest) = (kind, body.length)) :
    pastUrl (u ++ (c :: body ++ rest)) (size u) = .ok (size (u ++ c :: body)) := by
  have hpast : ∀ word tail : List Char, word.length = 3 → opensUrl (lastOf none u) (c :: word) = true →
      pastUrl (u ++ (c :: word ++ tail)) (size u) =
        .ok (((rawUrlLength? tail).map fun n => size (u ++ c :: word ++ tail.take n)).getD (size (u ++ c :: word))) := by
    intro word tail hlength hopens
    have hfour : size u + 4 = size (u ++ c :: word) := by rw [size_append u, size_word_of_opensUrl hlength hopens]
    rw [pastUrl, isUrlOpen_size, List.cons_append, opensUrl_append hlength, hopens, ok_bind, if_pos rfl, hfour,
      ← List.cons_append, ← List.append_assoc, skipRawUrl_size]
    rfl
  cases urlStep_iff.1 h with
  | url word inner rest length opens raw =>
    rw [← List.cons_append, List.append_assoc (c :: word), hpast word _ length opens, raw, Option.map_some, List.take_left,
      List.append_assoc u]
    rfl
  | opening word rest length opens quoted =>
    rw [hpast body rest length opens, quoted]
    rfl
  | single rest opens =>
    rw [pastUrl, isUrlOpen_size, List.singleton_append, opens, ok_bind, size_append u [c], size_singleton hc]
    rfl

end StyleTrack.Source.Indexed
