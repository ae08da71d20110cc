/-
UTF-8 read back: what is encoded decodes to itself, and bytes that decode are the encoding of what they
decode to. Both are said of one scalar value at a time and carried through a text by induction.
-/
import StyleTrack.Path.Basic
import Mathlib.Tactic

namespace StyleTrack.Text.Utf8

/-! ## Single bytes -/

theorem toNat_ofNat {n : Nat} (h : n < 256) : (UInt8.ofNat n).toNat = n := by
  simpa using Nat.mod_eq_of_lt h

/-- The leading byte of two. -/
theorem lead?_two : ∀ n < 32, 2 ≤ n → lead? (UInt8.ofNat (n + 192)) = some ⟨n, 1, 0x80, 0xBF⟩ := by decide

/-- The leading byte of three, of which the second keeps out what is overlong or a surrogate. -/
theorem lead?_three : ∀ n < 16, lead? (UInt8.ofNat (n + 224)) =
    some ⟨n, 2, if n = 0 then 0xA0 else 0x80, if n = 13 then 0x9F else 0xBF⟩ := by decide

/-- The leading byte of four, of which the second keeps out what is overlong or too great. -/
theorem lead?_four : ∀ n < 5, lead? (UInt8.ofNat (n + 240)) =
    some ⟨n, 3, if n = 0 then 0x90 else 0x80, if n = 4 then 0x8F else 0xBF⟩ := by decide

theorem continued_cons (value seen more : Nat) (least greatest c : UInt8) (rest : List UInt8) :
    continued value seen least greatest (more + 1) (c :: rest) =
      if least.toNat ≤ c.toNat ∧ c.toNat ≤ greatest.toNat then
        continued (value * 64 + (c.toNat - 0x80)) (seen + 1) 0x80 0xBF more rest
      else .invalid seen := by
  simp [continued, UInt8.le_iff_toNat_le]

/-- A byte that continues a sequence adds six bits. -/
theorem continued_ofNat (value seen more n : Nat) {least greatest : UInt8} (rest : List UInt8)
    (hleast : least.toNat ≤ n % 64 + 128) (hgreatest : n % 64 + 128 ≤ greatest.toNat) :
    continued value seen least greatest (more + 1) (UInt8.ofNat (n % 64 + 128) :: rest) =
      continued (value * 64 + n % 64) (seen + 1) 0x80 0xBF more rest := by
  rw [continued_cons, toNat_ofNat (by omega), if_pos ⟨hleast, hgreatest⟩, Nat.add_sub_cancel]

theorem step_eq (b : UInt8) (rest : List UInt8) : step b rest =
    if b.toNat < 0x80 then .scalar (Char.ofNat b.toNat) 0
    else match lead? b with
      | none => .invalid 1
      | some l => continued l.bits 1 l.least l.greatest l.more rest := by
  simp only [step, UInt8.lt_iff_toNat_lt]
  rfl

theorem step_of_lead {b : UInt8} {l : Lead} (hb : 0x80 ≤ b.toNat) (h : lead? b = some l) (rest : List UInt8) :
    step b rest = continued l.bits 1 l.least l.greatest l.more rest := by
  rw [step_eq, if_neg (by omega), h]

/-! ## One scalar value -/

/-- The bytes of a scalar value are one step, whatever follows them. -/
theorem step_utf8EncodeChar (c : Char) (rest : List UInt8) : ∃ b more,
    String.utf8EncodeChar c = b :: more ∧ step b (more ++ rest) = .scalar c more.length := by
  have hvalid : c.val.toNat < 0xD800 ∨ 0xDFFF < c.val.toNat ∧ c.val.toNat < 0x110000 := c.valid
  have hc : Char.ofNat c.val.toNat = c := Char.ofNat_toNat c
  unfold String.utf8EncodeChar
  dsimp only
  generalize c.val.toNat = v at hvalid hc
  subst hc
  split_ifs with h1 h2 h3
  · refine ⟨_, _, rfl, ?_⟩
    rw [step_eq, toNat_ofNat (by omega), if_pos (by omega)]
    rfl
  · refine ⟨_, _, rfl, ?_⟩
    have hlead := lead?_two (v / 64 % 32) (by omega) (by omega)
    rw [step_of_lead (by rw [toNat_ofNat (by omega)]; omega) hlead]
    have hfull : v / 64 % 32 * 64 + v % 64 = v := by omega
    simp only [List.cons_append, List.nil_append]
    rw [continued_ofNat _ _ _ _ _ (by simp) (by simp; omega), hfull]
    rfl
  · refine ⟨_, _, rfl, ?_⟩
    have hlead := lead?_three (v / 4096 % 16) (by omega)
    rw [step_of_lead (by rw [toNat_ofNat (by omega)]; omega) hlead]
    have hfull : (v / 4096 % 16 * 64 + v / 64 % 64) * 64 + v % 64 = v := by omega
    simp only [List.cons_append, List.nil_append]
    rw [continued_ofNat _ _ _ _ _ (by split_ifs <;> simp; omega) (by split_ifs <;> simp <;> omega),
      continued_ofNat _ _ _ _ _ (by simp) (by simp; omega), hfull]
    rfl
  · refine ⟨_, _, rfl, ?_⟩
    have hlead := lead?_four (v / 262144 % 8) (by omega)
    rw [step_of_lead (by rw [toNat_ofNat (by omega)]; omega) hlead]
    have hfull : ((v / 262144 % 8 * 64 + v / 4096 % 64) * 64 + v / 64 % 64) * 64 + v % 64 = v := by omega
    simp only [List.cons_append, List.nil_append]
    rw [continued_ofNat _ _ _ _ _ (by split_ifs <;> simp; omega) (by split_ifs <;> simp <;> omega),
      continued_ofNat _ _ _ _ _ (by simp) (by simp; omega), continued_ofNat _ _ _ _ _ (by simp) (by simp; omega),
      hfull]
    rfl

theorem ofNat_toNat_sub_add {b : UInt8} {k : Nat} (h : k ≤ b.toNat) : b = UInt8.ofNat (b.toNat - k + k) := by
  rw [Nat.sub_add_cancel h, UInt8.ofNat_toNat]

/-- A leading byte leads two, three or four bytes. -/
theorem lead?_cases {b : UInt8} {l : Lead} (h : lead? b = some l) :
    (∃ n < 32, 2 ≤ n ∧ b = UInt8.ofNat (n + 192)) ∨ (∃ n < 16, b = UInt8.ofNat (n + 224)) ∨
      ∃ n < 5, b = UInt8.ofNat (n + 240) := by
  simp only [lead?, Bool.and_eq_true, decide_eq_true_eq, UInt8.le_iff_toNat_le, ← UInt8.toNat_inj, UInt8.reduceToNat] at h
  have hb := b.toNat_lt
  by_cases h2 : b.toNat ≤ 0xDF
  · exact .inl ⟨b.toNat - 192, by omega, by split_ifs at h <;> omega, ofNat_toNat_sub_add (by split_ifs at h <;> omega)⟩
  · by_cases h3 : b.toNat ≤ 0xEF
    · exact .inr (.inl ⟨b.toNat - 224, by omega, ofNat_toNat_sub_add (by omega)⟩)
    · exact .inr (.inr ⟨b.toNat - 240, by split_ifs at h <;> omega, ofNat_toNat_sub_add (by omega)⟩)

/-- What follows a leading byte: each byte in turn, and nothing else is looked at. -/
theorem exists_of_continued {value seen more k : Nat} {least greatest : UInt8} {rest : List UInt8} {c : Char}
    (hleast : 0x80 ≤ least.toNat) (hgreatest : greatest.toNat ≤ 0xBF)
    (h : continued value seen least greatest (more + 1) rest = .scalar c k) :
    ∃ n rest', n < 64 ∧ rest = UInt8.ofNat (n + 128) :: rest' ∧ least.toNat ≤ n + 128 ∧
      n + 128 ≤ greatest.toNat ∧
      continued (value * 64 + n) (seen + 1) 0x80 0xBF more rest' = .scalar c k := by
  cases rest with
  | nil => cases h
  | cons t rest =>
    rw [continued_cons] at h
    split at h
    · rename_i hbounds
      refine ⟨t.toNat - 128, rest, by omega, ?_, by omega, by omega, h⟩
      rw [← ofNat_toNat_sub_add (by omega)]
    · cases h

theorem val_toNat_ofNat {v : Nat} (h : v.isValidChar) : (Char.ofNat v).val.toNat = v := by
  rw [Char.ofNat, dif_pos h]
  rfl

/-- A step takes the bytes that encode its scalar value. -/
theorem utf8EncodeChar_of_step {b : UInt8} {rest : List UInt8} {c : Char} {more : Nat}
    (h : step b rest = .scalar c more) : String.utf8EncodeChar c = b :: rest.take more := by
  rw [step_eq] at h
  split at h
  · rename_i hb
    cases h
    have hval := val_toNat_ofNat (v := b.toNat) (.inl (by omega))
    unfold String.utf8EncodeChar
    dsimp only
    rw [hval, if_pos (by omega), UInt8.ofNat_toNat, List.take_zero]
  · cases hlead : lead? b with
    | none => rw [hlead] at h; cases h
    | some l =>
      rw [hlead] at h
      dsimp only at h
      rcases lead?_cases hlead with ⟨n, hn, hn2, rfl⟩ | ⟨n, hn, rfl⟩ | ⟨n, hn, rfl⟩
      · rw [lead?_two n hn hn2] at hlead
        cases hlead
        obtain ⟨m, rest, hm, rfl, -, -, h⟩ := exists_of_continued (by simp) (by simp) h
        cases h
        obtain ⟨v, hv⟩ : ∃ v, v = n * 64 + m := ⟨_, rfl⟩
        have hn' : v / 64 % 32 = n := by omega
        have hm' : v % 64 = m := by omega
        unfold String.utf8EncodeChar
        dsimp only
        rw [← hv, val_toNat_ofNat (.inl (by omega)), if_neg (by omega), if_pos (by omega), hn', hm']
        rfl
      · rw [lead?_three n hn] at hlead
        cases hlead
        obtain ⟨m, rest, hm, rfl, hleast, hgreatest, h⟩ :=
          exists_of_continued (by split_ifs <;> simp) (by split_ifs <;> simp) h
        obtain ⟨k, rest, hk, rfl, -, -, h⟩ := exists_of_continued (by simp) (by simp) h
        cases h
        -- the bounds on the second byte keep the value from being overlong and from being a surrogate
        have hlow : n = 0 → 32 ≤ m := fun h0 => by simp [h0] at hleast; omega
        have hhigh : n = 13 → m < 32 := fun h13 => by simp [h13] at hgreatest; omega
        obtain ⟨v, hv⟩ : ∃ v, v = (n * 64 + m) * 64 + k := ⟨_, rfl⟩
        have hn' : v / 4096 % 16 = n := by omega
        have hm' : v / 64 % 64 = m := by omega
        have hk' : v % 64 = k := by omega
        unfold String.utf8EncodeChar
        dsimp only
        rw [← hv, val_toNat_ofNat (by unfold Nat.isValidChar; omega), if_neg (by omega), if_neg (by omega),
          if_pos (by omega), hn', hm', hk']
        rfl
      · rw [lead?_four n hn] at hlead
        cases hlead
        obtain ⟨m, rest, hm, rfl, hleast, hgreatest, h⟩ :=
          exists_of_continued (by split_ifs <;> simp) (by split_ifs <;> simp) h
        obtain ⟨k, rest, hk, rfl, -, -, h⟩ := exists_of_continued (by simp) (by simp) h
        obtain ⟨j, rest, hj, rfl, -, -, h⟩ := exists_of_continued (by simp) (by simp) h
        cases h
        -- here they keep it from being overlong and from being too great
        have hlow : n = 0 → 16 ≤ m := fun h0 => by simp [h0] at hleast; omega
        have hhigh : n = 4 → m < 16 := fun h4 => by simp [h4] at hgreatest; omega
        obtain ⟨v, hv⟩ : ∃ v, v = ((n * 64 + m) * 64 + k) * 64 + j := ⟨_, rfl⟩
        have hn' : v / 262144 % 8 = n := by omega
        have hm' : v / 4096 % 64 = m := by omega
        have hk' : v / 64 % 64 = k := by omega
        have hj' : v % 64 = j := by omega
        unfold String.utf8EncodeChar
        dsimp only
        rw [← hv, val_toNat_ofNat (by unfold Nat.isValidChar; omega), if_neg (by omega), if_neg (by omega),
          if_neg (by omega), hn', hm', hk', hj']
        rfl

/-! ## Texts -/

/-- What is encoded decodes to itself, with whatever is counted before it. -/
theorem decodeFrom_encode (s : List Char) (index : Nat) : decodeFrom index (encode s) = .ok s := by
  induction s generalizing index with
  | nil => simp [encode, decodeFrom]
  | cons c s ih =>
    obtain ⟨b, more, hbytes, hstep⟩ := step_utf8EncodeChar c (encode s)
    have hcons : encode (c :: s) = b :: (more ++ encode s) := by
      rw [encode, List.flatMap_cons, hbytes]
      rfl
    rw [hcons, decodeFrom, hstep]
    dsimp only
    rw [List.drop_left, ih]
    rfl

theorem decode_encode (s : List Char) : decode (encode s) = .ok s := decodeFrom_encode s 0

theorem encode_injective {s t : List Char} (h : encode s = encode t) : s = t := by
  have hs := decode_encode s
  rw [h, decode_encode] at hs
  cases hs
  rfl

/-- Bytes that decode are the encoding of what they decode to, and read the same where nothing is refused. -/
theorem encode_of_decodeFrom (index : Nat) (bytes : List UInt8) {s : List Char}
    (h : decodeFrom index bytes = .ok s) : encode s = bytes ∧ decodeLossy bytes = s := by
  induction index, bytes using decodeFrom.induct generalizing s with
  | case1 index =>
    rw [decodeFrom] at h
    cases h
    exact ⟨rfl, by rw [decodeLossy]⟩
  | case2 index b rest c more hstep ih =>
    rw [decodeFrom, hstep] at h
    dsimp only at h
    cases hrest : decodeFrom (index + more + 1) (rest.drop more) with
    | error fault => rw [hrest] at h; cases h
    | ok t =>
      rw [hrest] at h
      cases h
      obtain ⟨hencode, hlossy⟩ := ih hrest
      refine ⟨?_, by rw [decodeLossy, hstep]; dsimp only; rw [hlossy]⟩
      rw [encode, List.flatMap_cons, utf8EncodeChar_of_step hstep, List.cons_append]
      show b :: (rest.take more ++ encode t) = _
      rw [hencode, List.take_append_drop]
  | case3 index b rest n hstep => rw [decodeFrom, hstep] at h; cases h
  | case4 index b rest hstep => rw [decodeFrom, hstep] at h; cases h

theorem encode_of_decode {bytes : List UInt8} {s : List Char} (h : decode bytes = .ok s) : encode s = bytes :=
  (encode_of_decodeFrom 0 bytes h).1

theorem decodeLossy_of_decode {bytes : List UInt8} {s : List Char} (h : decode bytes = .ok s) :
    decodeLossy bytes = s :=
  (encode_of_decodeFrom 0 bytes h).2

/-- Bytes spell a string exactly if they are the bytes of that string. -/
theorem toString?_eq_some_iff {bytes : List UInt8} {s : String} : toString? bytes = some s ↔ bytes = ofString s := by
  unfold toString?
  constructor
  · intro h
    cases hd : decode bytes with
    | error fault => rw [hd] at h; cases h
    | ok t =>
      rw [hd] at h
      cases h
      rw [ofString, String.toList_ofList, encode_of_decode hd]
  · rintro rfl
    rw [ofString, decode_encode]
    exact congrArg some (String.ofList_toList)

theorem ofString_injective {s t : String} (h : ofString s = ofString t) : s = t :=
  String.toList_inj.1 (encode_injective h)

/-! ## Text in bytes -/

theorem encode_append (s t : List Char) : encode (s ++ t) = encode s ++ encode t := List.flatMap_append

theorem encode_flatMap {α : Type} (l : List α) (f : α → List Char) :
    encode (l.flatMap f) = l.flatMap fun x => encode (f x) := List.flatMap_assoc

/-- No byte of a character beyond ASCII is ASCII. -/
theorem le_of_mem_utf8EncodeChar {c : Char} (h : 128 ≤ c.toNat) {b : UInt8} (hb : b ∈ String.utf8EncodeChar c) :
    128 ≤ b.toNat := by
  have hval : 128 ≤ c.val.toNat := h
  have hlt : c.val.toNat < 0x110000 := by
    rcases c.valid with h | h
    · exact Nat.lt_trans h (by decide)
    · exact h.2
  unfold String.utf8EncodeChar at hb
  dsimp only at hb
  split_ifs at hb with h1 h2 h3
  · omega
  all_goals
    simp only [List.mem_cons, List.not_mem_nil, or_false] at hb
    rcases hb with rfl | rfl | rfl | rfl <;> rw [toNat_ofNat (by omega)] <;> omega

/-- An ASCII character is the only one with its byte. -/
theorem mem_utf8EncodeChar_iff {c d : Char} (hd : d.toNat < 128) :
    UInt8.ofNat d.toNat ∈ String.utf8EncodeChar c ↔ c = d := by
  have hbyte : (UInt8.ofNat d.toNat).toNat = d.toNat := toNat_ofNat (Nat.lt_trans hd (by decide))
  have hself : ∀ e : Char, e.toNat < 128 → String.utf8EncodeChar e = [UInt8.ofNat e.toNat] := fun e he =>
    if_pos (Nat.le_of_lt_succ he)
  by_cases hc : c.toNat < 128
  · rw [hself c hc, List.mem_singleton]
    constructor
    · intro h
      have hnat := congrArg UInt8.toNat h
      rw [hbyte, toNat_ofNat (Nat.lt_trans hc (by decide))] at hnat
      rw [← Char.ofNat_toNat c, ← Char.ofNat_toNat d, hnat]
    · rintro rfl
      rfl
  · refine ⟨fun h => ?_, fun h => absurd hd (h ▸ hc)⟩
    have hle := le_of_mem_utf8EncodeChar (Nat.le_of_not_lt hc) h
    omega

theorem mem_encode_iff {s : List Char} {d : Char} (hd : d.toNat < 128) : UInt8.ofNat d.toNat ∈ encode s ↔ d ∈ s := by
  simp [encode, List.mem_flatMap, mem_utf8EncodeChar_iff hd]

/-! ## Bytes that are displayed -/

/-- What is displayed stands for something invalid, or for bytes of its own. -/
theorem mem_decodeLossy {bytes : List UInt8} {c : Char} (h : c ∈ decodeLossy bytes) :
    c = '\uFFFD' ∨ String.utf8EncodeChar c ⊆ bytes := by
  induction bytes using decodeLossy.induct with
  | case1 => simp [decodeLossy] at h
  | case2 b rest c' more hstep ih =>
    rw [decodeLossy, hstep] at h
    rcases List.mem_cons.1 h with rfl | h
    · rw [utf8EncodeChar_of_step hstep]
      exact .inr (List.cons_subset_cons b (List.take_subset more rest))
    · exact (ih h).imp_right fun hsub => List.Subset.trans hsub (List.subset_cons_of_subset b (List.drop_subset more rest))
  | case3 b rest n hstep ih =>
    rw [decodeLossy, hstep] at h
    rcases List.mem_cons.1 h with rfl | h
    · exact .inl rfl
    · exact (ih h).imp_right fun hsub => List.Subset.trans hsub (List.subset_cons_of_subset b (List.drop_subset _ rest))
  | case4 b rest hstep =>
    rw [decodeLossy, hstep] at h
    exact .inl (List.mem_singleton.1 h)

/-- Where nothing invalid is displayed, the display is the text that the bytes spell. -/
theorem encode_decodeLossy {bytes : List UInt8} (h : '\uFFFD' ∉ decodeLossy bytes) :
    encode (decodeLossy bytes) = bytes := by
  induction bytes using decodeLossy.induct with
  | case1 => simp [decodeLossy, encode]
  | case2 b rest c more hstep ih =>
    have hlossy : decodeLossy (b :: rest) = c :: decodeLossy (rest.drop more) := by rw [decodeLossy, hstep]
    rw [hlossy] at h ⊢
    have hrest := ih fun hmem => h (List.mem_cons_of_mem _ hmem)
    rw [encode] at hrest ⊢
    rw [List.flatMap_cons, hrest, utf8EncodeChar_of_step hstep, List.cons_append, List.take_append_drop]
  | case3 b rest n hstep ih => exact absurd (by rw [decodeLossy, hstep]; exact List.mem_cons_self) h
  | case4 b rest hstep => exact absurd (by rw [decodeLossy, hstep]; exact List.mem_cons_self) h

/-- A string is displayed as itself. -/
theorem toStringLossy_ofString (s : String) : toStringLossy (ofString s) = s := by
  rw [toStringLossy, ofString, decodeLossy_of_decode (decode_encode _), String.ofList_toList]

theorem decodeLossy_ne_nil {bytes : List UInt8} (h : bytes ≠ []) : decodeLossy bytes ≠ [] := by
  intro hnil
  have hencode : encode (decodeLossy bytes) = bytes := encode_decodeLossy (by rw [hnil]; simp)
  rw [hnil] at hencode
  exact h hencode.symm

/-! ## ASCII bytes that are displayed -/

theorem le_least_of_lead? {b : UInt8} {l : Lead} (h : lead? b = some l) : 128 ≤ l.least.toNat := by
  rcases lead?_cases h with ⟨n, hn, hn2, rfl⟩ | ⟨n, hn, rfl⟩ | ⟨n, hn, rfl⟩
  · rw [lead?_two n hn hn2] at h
    cases h
    simp
  · rw [lead?_three n hn] at h
    cases h
    dsimp only
    split_ifs <;> simp
  · rw [lead?_four n hn] at h
    cases h
    dsimp only
    split_ifs <;> simp

/-- What was still possible of a sequence is not ASCII. -/
theorem le_of_continued_eq_invalid {value seen more n : Nat} {least greatest : UInt8} {rest : List UInt8}
    (hleast : 128 ≤ least.toNat) (h : continued value seen least greatest more rest = .invalid n) :
    seen ≤ n ∧ ∀ c ∈ rest.take (n - seen), 128 ≤ c.toNat := by
  induction more generalizing value seen least greatest rest with
  | zero => cases h
  | succ more ih =>
    cases rest with
    | nil => cases h
    | cons c rest =>
      rw [continued_cons] at h
      split at h
      · rename_i hbounds
        obtain ⟨hseen, hrest⟩ := ih (by simp) h
        have htake : n - seen = n - (seen + 1) + 1 := by omega
        rw [htake, List.take_succ_cons]
        exact ⟨by omega, List.forall_mem_cons.2 ⟨by omega, hrest⟩⟩
      · cases h
        simp

theorem le_of_continued_eq_incomplete {value seen more : Nat} {least greatest : UInt8} {rest : List UInt8}
    (hleast : 128 ≤ least.toNat) (h : continued value seen least greatest more rest = .incomplete) :
    ∀ c ∈ rest, 128 ≤ c.toNat := by
  induction more generalizing value seen least greatest rest with
  | zero => cases h
  | succ more ih =>
    cases rest with
    | nil => simp
    | cons c rest =>
      rw [continued_cons] at h
      split at h
      · exact List.forall_mem_cons.2 ⟨by omega, ih (by simp) h⟩
      · cases h

theorem le_of_step_eq_invalid {b : UInt8} {rest : List UInt8} {n : Nat} (h : step b rest = .invalid n) :
    128 ≤ b.toNat ∧ ∀ c ∈ rest.take (n - 1), 128 ≤ c.toNat := by
  rw [step_eq] at h
  split at h
  · cases h
  · refine ⟨by omega, ?_⟩
    cases hlead : lead? b with
    | none =>
      rw [hlead] at h
      cases h
      simp
    | some l =>
      rw [hlead] at h
      exact (le_of_continued_eq_invalid (le_least_of_lead? hlead) h).2

theorem le_of_step_eq_incomplete {b : UInt8} {rest : List UInt8} (h : step b rest = .incomplete) :
    ∀ c ∈ b :: rest, 128 ≤ c.toNat := by
  rw [step_eq] at h
  split at h
  · cases h
  · refine List.forall_mem_cons.2 ⟨by omega, ?_⟩
    cases hlead : lead? b with
    | none => rw [hlead] at h; cases h
    | some l =>
      rw [hlead] at h
      exact le_of_continued_eq_incomplete (le_least_of_lead? hlead) h

/-- An ASCII character is displayed where its byte stands, and nowhere else. -/
theorem mem_decodeLossy_iff {bytes : List UInt8} {d : Char} (hd : d.toNat < 128) :
    d ∈ decodeLossy bytes ↔ UInt8.ofNat d.toNat ∈ bytes := by
  have hbyte : (UInt8.ofNat d.toNat).toNat = d.toNat := toNat_ofNat (by omega)
  constructor
  · intro h
    rcases mem_decodeLossy h with rfl | hsub
    · exact absurd hd (by decide)
    · exact hsub ((mem_utf8EncodeChar_iff hd).2 rfl)
  · intro h
    induction bytes using decodeLossy.induct with
    | case1 => cases h
    | case2 b rest c more hstep ih =>
      rw [decodeLossy, hstep]
      dsimp only
      have hsplit : b :: rest = String.utf8EncodeChar c ++ rest.drop more := by
        rw [utf8EncodeChar_of_step hstep, List.cons_append, List.take_append_drop]
      rw [hsplit] at h
      rcases List.mem_append.1 h with h | h
      · rw [(mem_utf8EncodeChar_iff hd).1 h]
        exact List.mem_cons_self
      · exact List.mem_cons_of_mem _ (ih h)
    | case3 b rest n hstep ih =>
      obtain ⟨hb, htake⟩ := le_of_step_eq_invalid hstep
      rw [decodeLossy, hstep]
      dsimp only
      rcases List.mem_cons.1 h with h | h
      · rw [← h, hbyte] at hb
        omega
      · rw [← List.take_append_drop (n - 1) rest] at h
        rcases List.mem_append.1 h with h | h
        · have hle := htake _ h
          omega
        · exact List.mem_cons_of_mem _ (ih h)
    | case4 b rest hstep =>
      have hle := le_of_step_eq_incomplete hstep _ h
      omega

end StyleTrack.Text.Utf8
