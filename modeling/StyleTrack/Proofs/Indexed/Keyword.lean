/-
The search for a keyword by position. It finds the offsets of the occurrences, and each of them is where a character
begins; so what scans on behind the keyword begins where a character does, and the line that is counted up to the offset is
the line of the occurrence.
-/
import StyleTrack.Proofs.Indexed.Comment

namespace StyleTrack.Source.Indexed

open StyleTrack.Text

/-! ## The search -/

/-- The line of an offset, counted from one. -/
def lineOf (text : List Char) (offset : Nat) : Checked Nat := do
  return (← bytesBetween text 0 (min offset (size text))).count '\n' + 1

/-- Takes one lexeme and keeps the position if it is the keyword. -/
def findTurn (k : Keyword) (text : List Char) (i : Nat) (found : List Nat) : Checked (Turn (List Nat) (List Nat)) := do
  let b ← byteAt text i
  if isQuote b then return .next (← skipString text i) found
  else if ← standsAt text k.word k.follows i then return .next (i + k.word.length) (found ++ [i])
  else return .next (← pastUrl text i) found

/-- The offsets of a keyword. -/
def findKeyword (k : Keyword) (text : List Char) : Checked (List Nat) :=
  loop (size text) (findTurn k text) (fun _ found => found) 0 []

variable {k : Keyword} {before : Option Char} {u body rest text : List Char} {c : Char} {kind : Kind} {found : List Nat}
  {o : Occurrence}

/-! ## One lexeme -/

section

variable (hk : k.IsBytewise)
include hk

theorem step_of_beyond (hc : 128 ≤ c.toNat) : k.step before c rest = (.plain, 0) := by
  have hurl : startsWord ['u', 'r', 'l', '('] (c :: rest) = false :=
    startsWord_of_beyond hc (List.forall_iff_forall_mem.1 (by decide)) (by decide)
  simp [Keyword.step, isQuote_of_beyond hc, startsWord_of_beyond hc hk.ascii hk.word_ne, Keyword.urlStep_of_not_startsWord hurl]

theorem findTurn_of_beyond {i : Nat} {d : Char} {tail : List Char} (hd : 128 ≤ d.toNat)
    (hdrop : (bytewise text).drop i = d :: tail) (found : List Nat) :
    findTurn k text i found = .ok (.next (i + 1) found) := by
  simp [findTurn, byteAt_of_drop hdrop, isQuote_of_beyond hd, standsAt_of_beyond hk.ascii hk.word_ne hd hdrop,
    pastUrl_of_beyond hd hdrop]

theorem size_of_keyword (h : k.step before c (body ++ rest) = (kind, body.length)) (hkind : kind = .keyword) :
    size (c :: body) = k.word.length := by
  unfold Keyword.step at h
  split_ifs at h with hquote hword
  · cases (Prod.mk.inj h).1.trans hkind
  · have hpos := List.length_pos_of_ne_nil hk.word_ne
    have hlength : k.word.length = (c :: body).length := by
      have hbody := (Prod.mk.inj h).2
      rw [List.length_cons]
      omega
    have hstarts := (Bool.and_eq_true_iff.1 hword).1
    rw [← List.cons_append, startsWord_append_of_length_le hlength.le] at hstarts
    rw [size_of_ascii (ascii_of_startsWord hk.ascii hlength.ge hstarts), hlength]
  · cases urlStep_iff.1 h <;> cases hkind

theorem findTurn_lexeme (hc : c.toNat < 128) (h : k.step (lastOf none u) c (body ++ rest) = (kind, body.length)) :
    findTurn k (u ++ (c :: body ++ rest)) (size u) found =
      .ok (.next (size (u ++ c :: body)) (found ++ if kind = .keyword then [size u] else [])) := by
  have hbyte : byteAt (u ++ (c :: body ++ rest)) (size u) = .ok c := byteAt_size hc u (body ++ rest)
  have hfollows : (lastOf none u).all k.follows = (lastOf none (bytewise u)).all k.follows :=
    hk.all_lastOf_bytewise rfl u
  rw [findTurn, hbyte, ok_bind, standsAt_size hk.ascii hk.word_ne, ok_bind, ← hfollows]
  unfold Keyword.step at h
  split_ifs at h with hquote hword
  · obtain ⟨rfl, hlength⟩ := Prod.mk.inj h
    rw [if_pos hquote, List.cons_append, skipString_size hquote, hlength, List.take_left, ok_bind, if_neg (by decide),
      List.append_nil]
    rfl
  · obtain ⟨rfl, hlength⟩ := Prod.mk.inj h
    have hfound : k.step (lastOf none u) c (body ++ rest) = (.keyword, body.length) := by
      rw [Keyword.step, if_neg hquote, if_pos hword, hlength]
    rw [if_neg hquote, List.cons_append, if_pos hword, if_pos rfl, size_append u, size_of_keyword hk hfound rfl]
    rfl
  · have hkind : kind ≠ .keyword := by cases urlStep_iff.1 h <;> decide
    rw [if_neg hquote, List.cons_append, if_neg hword, ← List.cons_append, pastUrl_lexeme hc h, ok_bind, if_neg hkind,
      List.append_nil]
    rfl

/-- The search finds the offsets of the occurrences, whatever it has found before. -/
theorem loop_findTurn (u : List Char) (found : List Nat) (line : Nat) (before : Option Char) (v : List Char)
    (hbefore : lastOf none u = before) :
    loop (size (u ++ v)) (findTurn k (u ++ v)) (fun _ found => found) (size u) found =
      .ok (found ++ (k.findAfter before line v).map fun o => size (u ++ v) - size o.rest - k.word.length) := by
  induction before, v using k.bounded_step.induction generalizing u found line with
  | nil before =>
    rw [List.append_nil, loop_of_le (Nat.le_refl _)]
    simp [Keyword.findAfter, segment, Keyword.occurrences]
  | cons before c body rest kind hstep ih =>
    subst hbefore
    have hnext := ih (u ++ c :: body) (found ++ if kind = .keyword then [size u] else [])
      (line + (c :: body).count '\n') (lastOf_append none u (c :: body))
    rw [List.append_assoc u] at hnext
    rw [loop_of_lexeme (fun hc => findTurn_lexeme hk hc hstep) (fun hc => ?_)
      fun i d tail hd hdrop => findTurn_of_beyond hk hd hdrop _, hnext, Keyword.findAfter_of_step hstep,
      List.map_append, List.append_assoc]
    · congr 3
      split
      · rename_i hkind
        rw [List.map_singleton, ← List.append_assoc, size_append _ rest, size_append u, size_of_keyword hk hstep hkind,
          Nat.add_sub_cancel, Nat.add_sub_cancel]
      · rfl
    · rw [step_of_beyond hk hc] at hstep
      obtain ⟨rfl, hlength⟩ := Prod.mk.inj hstep
      exact ⟨List.length_eq_zero_iff.1 hlength.symm, by simp⟩

theorem findKeyword_eq_offsets (text : List Char) : findKeyword k text = .ok (k.offsets text) := by
  have hloop := loop_findTurn hk [] [] 1 none text rfl
  rw [List.nil_append, List.nil_append] at hloop
  simp only [size_eq_length_encode] at hloop
  rw [findKeyword, size_eq_length_encode]
  exact hloop

/-! ## What is found -/

/-- Behind a keyword that is found stands what the occurrence says, and in front of it as many line feeds. -/
theorem exists_front_of_mem_findAfter (before : Option Char) (v : List Char) (hbefore : lastOf none u = before)
    (ho : o ∈ k.findAfter before (u.count '\n' + 1) v) :
    ∃ front word, u ++ v = front ++ (word ++ o.rest) ∧ size word = k.word.length ∧ o.line = front.count '\n' + 1 := by
  induction before, v using k.bounded_step.induction generalizing u with
  | nil before => simp [Keyword.findAfter, segment, Keyword.occurrences] at ho
  | cons before c body rest kind hstep ih =>
    subst hbefore
    rw [Keyword.findAfter_of_step hstep, List.mem_append] at ho
    rcases ho with ho | ho
    · split at ho
      · rename_i hkind
        obtain rfl := List.mem_singleton.1 ho
        exact ⟨u, c :: body, rfl, size_of_keyword hk hstep hkind, rfl⟩
      · cases ho
    · rw [Nat.add_right_comm, ← List.count_append] at ho
      obtain ⟨front, word, htext, hword⟩ := ih (lastOf_append none u (c :: body)) ho
      exact ⟨front, word, by rw [← htext, List.append_assoc], hword⟩

/-- What a program does at each offset of a keyword it does at each occurrence. -/
theorem collect_findKeyword {ε α : Type} {f : Nat → Checked (Except ε α)} {g : Occurrence → Except ε α}
    (hf : ∀ u w o, text = u ++ (w ++ o.rest) → size w = k.word.length → o.line = u.count '\n' + 1 →
      f (size u) = .ok (g o)) :
    (findKeyword k text >>= collect f) = .ok ((k.find text).mapM g) := by
  rw [findKeyword_eq_offsets hk, ok_bind, Keyword.offsets]
  refine collect_map fun o ho => ?_
  obtain ⟨front, word, htext, hword, hline⟩ := exists_front_of_mem_findAfter hk (u := []) none text rfl ho
  rw [List.nil_append] at htext
  rw [← hf front word o htext hword hline, ← size_eq_length_encode, ← size_eq_length_encode, htext, size_append,
    size_append, hword, ← Nat.add_assoc, Nat.add_sub_cancel, Nat.add_sub_cancel]

end

/-! ## Lines -/

theorem count_bytewise (s : List Char) : (bytewise s).count '\n' = s.count '\n' := by
  induction s using bytewise_induction with
  | nil => rfl
  | ascii c s hc ih => rw [bytewise_cons_of_ascii hc, List.count_cons, List.count_cons, ih]
  | beyond c s hc ih =>
    have hnone : (bytewise [c]).count '\n' = 0 := List.count_eq_zero.2 fun hmem =>
      ne_of_beyond (beyond_of_mem_bytewise hc _ hmem) (d := '\n') (by decide) rfl
    rw [bytewise_cons, List.count_append, hnone, ih, List.count_cons_of_ne (ne_of_beyond hc (by decide)), Nat.zero_add]

theorem lineOf_size (u v : List Char) : lineOf (u ++ v) (size u) = .ok (u.count '\n' + 1) := by
  have hle : size u ≤ size (u ++ v) := by
    rw [size_append]
    exact Nat.le_add_right _ _
  rw [lineOf, Nat.min_eq_left hle, bytesBetween, if_pos ⟨Nat.zero_le _, hle⟩, List.drop_zero, Nat.sub_zero, take_size,
    ok_bind, count_bytewise]
  rfl

end StyleTrack.Source.Indexed
