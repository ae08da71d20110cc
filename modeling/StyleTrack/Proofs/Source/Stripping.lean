/-
Comments leave blanks behind and nothing else. Stripping overwrites the bytes of comments in place, so that every
other byte and every line stays where it is, and what it leaves holds no comment, so that stripping it again changes
nothing. Hence a scan cannot tell a text from the stripped text.
-/
import StyleTrack.Proofs.Source.Bytes
import StyleTrack.Source.Reference

namespace StyleTrack.Source

open StyleTrack.Text

variable {before : Option Char} {c : Char} {body rest s : List Char} {kind : Kind} {i : Nat}

/-! ## Stripping twice -/

theorem flatMap_stripped_code (l : Lexeme) : l.code.flatMap Lexeme.stripped = l.stripped := by
  unfold Lexeme.code
  split
  · rw [List.flatMap_map]
    exact List.flatMap_singleton' _
  · exact List.flatMap_singleton _ _

theorem stripComments_stripComments (s : List Char) : stripComments (stripComments s) = stripComments s := by
  have hlexemes : segment commentStep none (stripComments s) = (segment commentStep none s).flatMap Lexeme.code :=
    segment_commentStep_stripAfter (.inl rfl)
  rw [stripComments, hlexemes, List.flatMap_assoc, funext flatMap_stripped_code]
  rfl

/-! ## Overwriting in place -/

theorem utf8EncodeChar_newline : String.utf8EncodeChar '\n' = [0x0A] := by decide

theorem utf8EncodeChar_space : String.utf8EncodeChar ' ' = [0x20] := by decide

/-- No byte of another character is a line feed. -/
theorem newline_notMem_utf8EncodeChar (hc : c ≠ '\n') : (0x0A : UInt8) ∉ String.utf8EncodeChar c := fun hmem =>
  hc ((Utf8.mem_utf8EncodeChar_iff (d := '\n') (by decide)).1 hmem)

theorem blankedByte_cases {b : UInt8} : blankedByte kind b = b ∨ kind = .comment ∧ blankedByte kind b = 0x20 := by
  unfold blankedByte
  split
  · rename_i h
    exact .inr ⟨h.1, rfl⟩
  · exact .inl rfl

theorem blankedByte_comment_cases {b : UInt8} : blankedByte .comment b = 0x0A ∨ blankedByte .comment b = 0x20 := by
  unfold blankedByte
  split
  · exact .inr rfl
  · rename_i h
    exact .inl (by simpa using h)

theorem blankedByte_eq_newline_iff {b : UInt8} : blankedByte kind b = 0x0A ↔ b = 0x0A := by
  unfold blankedByte
  split
  · rename_i h
    exact iff_of_false (by decide) h.2
  · exact Iff.rfl

theorem map_blankedByte_encode (s : List Char) :
    (Utf8.encode s).map (blankedByte .comment) = Utf8.encode (s.flatMap blanked) := by
  induction s with
  | nil => rfl
  | cons c s ih =>
    unfold Utf8.encode at ih ⊢
    rw [List.flatMap_cons, List.map_append, ih, List.flatMap_cons, List.flatMap_append]
    congr 1
    unfold blanked
    split
    · rename_i hc
      rw [hc, List.flatMap_singleton, utf8EncodeChar_newline]
      rfl
    · rename_i hc
      have hspace : ∀ b ∈ String.utf8EncodeChar c, blankedByte .comment b = 0x20 := fun b hb =>
        if_pos ⟨rfl, fun heq => newline_notMem_utf8EncodeChar hc (heq ▸ hb)⟩
      rw [List.map_congr_left hspace, List.map_const', String.length_utf8EncodeChar, List.flatMap_replicate,
        utf8EncodeChar_space, List.flatten_replicate_singleton]

theorem length_kinds_bytewise (h : commentStep before c (body ++ rest) = (kind, body.length)) :
    (Lexeme.mk kind (bytewise (c :: body))).kinds.length = (Utf8.encode (c :: body)).length := by
  rw [← length_bytewise]
  by_cases hkind : kind = .url
  · subst hkind
    have hfour : 4 ≤ (bytewise (c :: body)).length := by
      cases commentStep_iff.1 h with
      | code body rest kind unquoted uncommented code =>
        cases code with
        | url word inner rest length opens raw =>
          have hascii := ascii_of_startsWord (s := c :: word) (List.forall_iff_forall_mem.1 (by decide)) (by simp [length])
            (Bool.and_eq_true_iff.1 opens).1
          rw [← List.cons_append, bytewise_append, bytewise_of_ascii hascii, List.length_append, List.length_cons, length]
          exact Nat.le_add_right 4 _
    rw [Lexeme.kinds, if_pos rfl, List.length_append, List.length_replicate, List.length_replicate]
    exact Nat.add_sub_of_le hfour
  · rw [kinds_of_ne_url hkind, List.length_replicate]

theorem length_kindsAfter (before : Option Char) (s : List Char) :
    (kindsAfter before s).length = (Utf8.encode s).length := by
  induction before, s using bounded_commentStep.induction with
  | nil before => simp [kindsAfter, segment, Utf8.encode]
  | cons before c body rest kind hstep ih =>
    rw [kindsAfter_of_step hstep, Utf8.encode_append, List.length_append, List.length_append, length_kinds_bytewise hstep, ih]

theorem length_byteKinds (s : List Char) : (byteKinds (Utf8.encode s)).length = (Utf8.encode s).length := by
  rw [byteKinds_encode, length_kindsAfter]

theorem mem_kinds {k : Kind} {l : Lexeme} (h : k ∈ l.kinds) : k = l.kind ∨ k = .plain := by
  unfold Lexeme.kinds at h
  split at h
  · rename_i hkind
    rcases List.mem_append.1 h with h | h
    · exact .inr (List.eq_of_mem_replicate h)
    · exact .inl ((List.eq_of_mem_replicate h).trans hkind.symm)
  · exact .inl (List.eq_of_mem_replicate h)

theorem zipWith_blankedByte_of_ne_comment {kinds : List Kind} {bytes : List UInt8} (hlength : kinds.length = bytes.length)
    (h : ∀ k ∈ kinds, k ≠ .comment) : List.zipWith blankedByte kinds bytes = bytes := by
  induction kinds generalizing bytes with
  | nil => simp [List.length_eq_zero_iff.1 hlength.symm]
  | cons k kinds ih =>
    obtain ⟨b, bytes, rfl⟩ := List.exists_cons_of_length_eq_add_one hlength.symm
    have hkept : blankedByte k b = b := if_neg fun hcomment => h k List.mem_cons_self hcomment.1
    rw [List.zipWith_cons_cons, hkept, ih (Nat.succ_inj.1 hlength) fun k hk => h k (List.mem_cons_of_mem _ hk)]

theorem zipWith_replicate_length (k : Kind) (bytes : List UInt8) :
    List.zipWith blankedByte (List.replicate bytes.length k) bytes = bytes.map (blankedByte k) := by
  induction bytes with
  | nil => rfl
  | cons b bytes ih => rw [List.length_cons, List.replicate_succ, List.zipWith_cons_cons, ih, List.map_cons]

theorem zipWith_kinds_encode (h : commentStep before c (body ++ rest) = (kind, body.length)) :
    List.zipWith blankedByte (Lexeme.mk kind (bytewise (c :: body))).kinds (Utf8.encode (c :: body)) =
      Utf8.encode (Lexeme.mk kind (c :: body)).stripped := by
  have hlength := length_kinds_bytewise h
  by_cases hkind : kind = .comment
  · subst hkind
    rw [stripped_of_comment rfl, ← map_blankedByte_encode, kinds_of_ne_url (by decide), length_bytewise]
    exact zipWith_replicate_length _ _
  · rw [stripped_of_ne_comment hkind]
    refine zipWith_blankedByte_of_ne_comment hlength fun k hk => ?_
    rcases mem_kinds hk with rfl | rfl
    · exact hkind
    · decide

/-- The bytes of a stripped text are those of the text with the comments overwritten. -/
theorem encode_stripAfter (before : Option Char) (s : List Char) :
    Utf8.encode (stripAfter before s) = List.zipWith blankedByte (kindsAfter before s) (Utf8.encode s) := by
  induction before, s using bounded_commentStep.induction with
  | nil before => simp [kindsAfter, stripAfter, segment, Utf8.encode]
  | cons before c body rest kind hstep ih =>
    rw [stripAfter_lexeme hstep, kindsAfter_of_step hstep, Utf8.encode_append, Utf8.encode_append, ih,
      List.zipWith_append (length_kinds_bytewise hstep), zipWith_kinds_encode hstep]

theorem stripBytes_encode (s : List Char) : stripBytes (Utf8.encode s) = Utf8.encode (stripComments s) := by
  rw [stripBytes, byteKinds_encode]
  exact (encode_stripAfter none s).symm

theorem length_encode_stripComments (s : List Char) :
    (Utf8.encode (stripComments s)).length = (Utf8.encode s).length := by
  rw [← stripBytes_encode, stripBytes, List.length_zipWith, length_byteKinds, Nat.min_self]

/-! ## Comments -/

/-- A comment and what follows it: `//` up to the end of the line, or `/*` up to the first `*/` or else to the end. -/
inductive IsComment : (comment rest : List Char) → Prop
  | line (inner rest : List Char) (free : '\n' ∉ inner) (ends : ∀ d ∈ rest.head?, d = '\n') :
      IsComment ('/' :: '/' :: inner) rest
  | block (inner rest : List Char) (first : ¬ ['*', '/'] <:+: inner.dropLast) (ends : ['*', '/'] <:+ inner ∨ rest = []) :
      IsComment ('/' :: '*' :: inner) rest

theorem blockLength_le_of_append (s t : List Char) : blockLength (s ++ '*' :: '/' :: t) ≤ s.length + 2 := by
  induction s with
  | nil => simp [blockLength]
  | cons c s ih =>
    rw [List.cons_append, List.length_cons]
    unfold blockLength
    split <;> simp_all

theorem isComment_of_step (h : commentStep before c (body ++ rest) = (.comment, body.length)) :
    IsComment (c :: body) rest := by
  cases commentStep_iff.1 h with
  | block inner rest opens length =>
    subst opens
    refine .block inner rest (fun hwithin => ?_) (suffix_or_eq_nil_of_blockLength length)
    -- A closing mark before the end of the body would have ended the comment there.
    obtain ⟨front, back, hfront⟩ := hwithin
    have hne : inner ≠ [] := by
      rintro rfl
      simp at hfront
    obtain ⟨init, x, rfl⟩ := (List.eq_nil_or_concat inner).resolve_left hne
    rw [List.concat_eq_append] at length hfront
    rw [List.dropLast_concat] at hfront
    have hbound := blockLength_le_of_append front (back ++ [x] ++ rest)
    rw [← hfront] at length
    simp only [List.append_assoc, List.cons_append, List.nil_append, List.length_append, List.length_cons] at length hbound
    omega
  | line inner rest opens free ends =>
    subst opens
    exact .line inner rest free ends
  | code body rest kind unquoted uncommented code => exact absurd rfl code.ne_comment

/-- Where a comment begins, the pass takes it for one. -/
theorem kind_eq_comment_of_isComment (h : commentStep before c (body ++ rest) = (kind, body.length))
    (hcomment : IsComment (c :: body) rest) : kind = .comment := by
  cases commentStep_iff.1 h with
  | quoted body rest opens length => cases hcomment <;> cases opens
  | block inner rest opens length => rfl
  | line inner rest opens free ends => rfl
  | code body rest kind unquoted uncommented code => cases hcomment <;> simp at uncommented

/-- Whether the byte at an offset of a text behind `before` belongs to a comment that starts outside of strings and
unquoted bodies: in front of the comment stand whole lexemes. -/
def InComment (before : Option Char) (text : List Char) (i : Nat) : Prop :=
  ∃ front comment back, segment commentStep before text = front ++ comment :: back ∧
    IsComment comment.text (written back) ∧ (Utf8.encode (written front)).length ≤ i ∧
    i < (Utf8.encode (written front)).length + (Utf8.encode comment.text).length

theorem length_encode_written_cons (kind : Kind) (text : List Char) (front : List Lexeme) :
    (Utf8.encode (written (⟨kind, text⟩ :: front))).length =
      (Utf8.encode text).length + (Utf8.encode (written front)).length := by
  rw [← List.length_append, ← Utf8.encode_append]
  rfl

theorem InComment.of_kindsAfter (h : (kindsAfter before s)[i]? = some .comment) : InComment before s i := by
  induction before, s using bounded_commentStep.induction generalizing i with
  | nil before => simp [kindsAfter, segment] at h
  | cons before c body rest kind hstep ih =>
    have hlength := length_kinds_bytewise hstep
    rw [kindsAfter_of_step hstep] at h
    unfold InComment
    rw [segment_append_of_step hstep]
    by_cases hi : i < (Utf8.encode (c :: body)).length
    · rw [List.getElem?_append_left (by rwa [hlength])] at h
      have hkind : kind = .comment := by
        rcases mem_kinds (List.mem_of_getElem? h) with heq | heq
        · exact heq.symm
        · cases heq
      subst hkind
      refine ⟨[], _, _, rfl, ?_, Nat.zero_le _, by simpa [written, Utf8.encode] using hi⟩
      rw [written_segment]
      exact isComment_of_step hstep
    · have hle : (Utf8.encode (c :: body)).length ≤ i := Nat.le_of_not_lt hi
      rw [List.getElem?_append_right (by rwa [hlength]), hlength] at h
      obtain ⟨front, comment, back, hsegment, hcomment, hlow, hhigh⟩ := ih h
      refine ⟨_ :: front, comment, back, by rw [hsegment]; rfl, hcomment, ?_, ?_⟩
      · rw [length_encode_written_cons]
        omega
      · rw [length_encode_written_cons]
        omega

theorem InComment.kindsAfter (h : InComment before s i) : (kindsAfter before s)[i]? = some .comment := by
  induction before, s using bounded_commentStep.induction generalizing i with
  | nil before =>
    obtain ⟨front, comment, back, hsegment, -⟩ := h
    simp [segment] at hsegment
  | cons before c body rest kind hstep ih =>
    have hlength := length_kinds_bytewise hstep
    obtain ⟨front, comment, back, hsegment, hcomment, hlow, hhigh⟩ := h
    rw [segment_append_of_step hstep] at hsegment
    rw [kindsAfter_of_step hstep]
    cases front with
    | nil =>
      obtain ⟨rfl, rfl⟩ := List.cons.inj hsegment
      rw [written_segment] at hcomment
      obtain rfl := kind_eq_comment_of_isComment hstep hcomment
      have hi : i < (Utf8.encode (c :: body)).length := by simpa [written, Utf8.encode] using hhigh
      rw [List.getElem?_append_left (by rwa [hlength]), kinds_of_ne_url (by decide), length_bytewise]
      exact List.getElem?_replicate_of_lt hi
    | cons l front =>
      obtain ⟨rfl, htail⟩ := List.cons.inj hsegment
      rw [length_encode_written_cons] at hlow hhigh
      rw [List.getElem?_append_right (by rw [hlength]; omega), hlength]
      exact ih ⟨front, comment, back, htail, hcomment, by omega, by omega⟩

/-! ## What stripping keeps -/

/-- What stands at an offset after stripping and before: nothing in both cases, or a byte that may be overwritten. -/
theorem getElem?_encode_stripComments (text : List Char) (i : Nat) :
    (Utf8.encode (stripComments text))[i]? = none ∧ (Utf8.encode text)[i]? = none ∨
      ∃ kind b, (kindsAfter none text)[i]? = some kind ∧ (Utf8.encode text)[i]? = some b ∧
        (Utf8.encode (stripComments text))[i]? = some (blankedByte kind b) := by
  have hkinds := length_kindsAfter none text
  by_cases hi : i < (Utf8.encode text).length
  · right
    refine ⟨_, _, List.getElem?_eq_getElem (hkinds.symm ▸ hi), List.getElem?_eq_getElem hi, ?_⟩
    rw [stripComments, ← stripAfter, encode_stripAfter, List.getElem?_zipWith, List.getElem?_eq_getElem hi,
      List.getElem?_eq_getElem (hkinds.symm ▸ hi)]
  · left
    rw [List.getElem?_eq_none_iff, List.getElem?_eq_none_iff, length_encode_stripComments]
    omega

/-- Stripping a text overwrites its bytes in place, which leaves valid UTF-8 of the same length. Its line feeds stay
where they are, a byte that changes lies in a comment and becomes a space, and of a comment nothing but line feeds and
spaces is left. A stripped text is stripped already, so a scan finds the same in it, on the same lines. -/
theorem stripComments_keeps (text : List Char) :
    Utf8.decode (stripBytes (Utf8.encode text)) = .ok (stripComments text) ∧
      (Utf8.encode (stripComments text)).length = (Utf8.encode text).length ∧
      (∀ i : Nat, (Utf8.encode (stripComments text))[i]? = some 0x0A ↔ (Utf8.encode text)[i]? = some 0x0A) ∧
      (∀ i : Nat, (Utf8.encode (stripComments text))[i]? ≠ (Utf8.encode text)[i]? →
        (Utf8.encode (stripComments text))[i]? = some 0x20 ∧ InComment none text i) ∧
      (∀ i : Nat, InComment none text i →
        (Utf8.encode (stripComments text))[i]? = some 0x0A ∨ (Utf8.encode (stripComments text))[i]? = some 0x20) ∧
      stripComments (stripComments text) = stripComments text ∧
      Reference.scan (stripComments text) = Reference.scan text := by
  refine ⟨by rw [stripBytes_encode, Utf8.decode_encode], length_encode_stripComments text, fun i => ?_, fun i hi => ?_,
    fun i hi => ?_, stripComments_stripComments text, ?_⟩
  · rcases getElem?_encode_stripComments text i with ⟨hafter, hbefore⟩ | ⟨kind, b, -, hbefore, hafter⟩
    · rw [hafter, hbefore]
    · rw [hafter, hbefore, Option.some.injEq, Option.some.injEq, blankedByte_eq_newline_iff]
  · rcases getElem?_encode_stripComments text i with ⟨hafter, hbefore⟩ | ⟨kind, b, hkind, hbefore, hafter⟩
    · exact absurd (hafter.trans hbefore.symm) hi
    · rw [hafter, hbefore, ne_eq, Option.some.injEq] at hi
      obtain ⟨rfl, hspace⟩ := blankedByte_cases.resolve_left hi
      exact ⟨by rw [hafter, hspace], .of_kindsAfter hkind⟩
  · have hcomment := hi.kindsAfter
    rcases getElem?_encode_stripComments text i with ⟨-, hbefore⟩ | ⟨kind, b, hkind, -, hafter⟩
    · have hbound := (List.getElem?_eq_some_iff.1 hcomment).1
      rw [length_kindsAfter] at hbound
      exact absurd (List.getElem?_eq_none_iff.1 hbefore) (Nat.not_le_of_lt hbound)
    · obtain rfl := Option.some.inj (hkind.symm.trans hcomment)
      rw [hafter, Option.some.injEq, Option.some.injEq]
      exact blankedByte_comment_cases
  · rw [Reference.scan, Reference.scan, stripComments_stripComments]

/-- Every byte of `é` leaves a space behind, and what looks like a comment in a string stays. -/
example : stripComments "a/*\"é\n*/\"//\" // b\nc".toList = "a     \n  \"//\"     \nc".toList := by cbv

end StyleTrack.Source
