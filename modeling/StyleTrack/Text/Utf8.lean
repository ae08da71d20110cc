/-
UTF-8 over lists of bytes: strict decoding that reports where and how the input stops being valid,
and lossy decoding that puts U+FFFD in place of every maximal invalid part.

Both read one scalar value at a time with `step`, which looks at a leading byte and the bytes after
it and says how many bytes belong together. Overlong forms, surrogates and values above U+10FFFF
are refused by the bounds on the second byte, so every value that `step` yields is a scalar value.
-/

namespace StyleTrack.Text.Utf8

/-! ## One scalar value -/

/-- What the bytes at one position are. -/
inductive Step where
  /-- A scalar value that takes `more` bytes after the leading one. -/
  | scalar (c : Char) (more : Nat)
  /-- A sequence that cannot be completed: its first `length` bytes were still possible. -/
  | invalid (length : Nat)
  /-- The input ends inside a sequence that was valid so far. -/
  | incomplete
deriving DecidableEq, Repr

/-- The shape of a multi-byte sequence, as its leading byte fixes it. -/
structure Lead where
  /-- The bits of the value that the leading byte holds. -/
  bits : Nat
  /-- How many bytes follow. -/
  more : Nat
  /-- The least second byte. -/
  least : UInt8
  /-- The greatest second byte. -/
  greatest : UInt8
deriving DecidableEq, Repr

/-- The sequence that a byte from `0x80` on leads, if it leads any. -/
def lead? (b : UInt8) : Option Lead :=
  if 0xC2 ≤ b && b ≤ 0xDF then some ⟨b.toNat - 0xC0, 1, 0x80, 0xBF⟩
  else if b = 0xE0 then some ⟨0, 2, 0xA0, 0xBF⟩
  else if b = 0xED then some ⟨0xD, 2, 0x80, 0x9F⟩
  else if 0xE1 ≤ b && b ≤ 0xEF then some ⟨b.toNat - 0xE0, 2, 0x80, 0xBF⟩
  else if b = 0xF0 then some ⟨0, 3, 0x90, 0xBF⟩
  else if 0xF1 ≤ b && b ≤ 0xF3 then some ⟨b.toNat - 0xF0, 3, 0x80, 0xBF⟩
  else if b = 0xF4 then some ⟨4, 3, 0x80, 0x8F⟩
  else none

/-- Reads `more` continuation bytes onto `value`, of which the first lies between `least` and
`greatest`; `seen` bytes of the sequence came before. -/
def continued (value : Nat) (seen : Nat) (least greatest : UInt8) : Nat → List UInt8 → Step
  | 0, _ => .scalar (Char.ofNat value) (seen - 1)
  | _ + 1, [] => .incomplete
  | more + 1, c :: rest =>
    if least ≤ c && c ≤ greatest then
      continued (value * 64 + (c.toNat - 0x80)) (seen + 1) 0x80 0xBF more rest
    else .invalid seen

/-- What begins with byte `b` and goes on with `rest`. -/
def step (b : UInt8) (rest : List UInt8) : Step :=
  if b < 0x80 then .scalar (Char.ofNat b.toNat) 0
  else match lead? b with
    | none => .invalid 1
    | some l => continued l.bits 1 l.least l.greatest l.more rest

/-! ## Decoding -/

/-- Where strict decoding stopped. -/
structure Fault where
  /-- How many bytes before the fault are valid. -/
  validUpTo : Nat
  /-- The length of the invalid part, or `none` if the input ends inside a valid sequence. -/
  length : Option Nat
deriving DecidableEq, Repr

/-- The text of a fault. -/
def Fault.message (f : Fault) : String :=
  match f.length with
  | some n => s!"invalid utf-8 sequence of {n} bytes from index {f.validUpTo}"
  | none => s!"incomplete utf-8 byte sequence from index {f.validUpTo}"

/-- Decodes the bytes that follow the first `index` valid ones. -/
def decodeFrom (index : Nat) : List UInt8 → Except Fault (List Char)
  | [] => .ok []
  | b :: rest =>
    match step b rest with
    | .scalar c more => (decodeFrom (index + more + 1) (rest.drop more)).map (c :: ·)
    | .invalid n => .error ⟨index, some n⟩
    | .incomplete => .error ⟨index, none⟩
termination_by bytes => bytes.length
decreasing_by simp only [List.length_drop, List.length_cons]; omega

/-- The characters of a valid UTF-8 text, or the first fault. -/
def decode (bytes : List UInt8) : Except Fault (List Char) := decodeFrom 0 bytes

/-- The characters of a text in which every maximal invalid part reads as U+FFFD. -/
def decodeLossy : List UInt8 → List Char
  | [] => []
  | b :: rest =>
    match step b rest with
    | .scalar c more => c :: decodeLossy (rest.drop more)
    | .invalid n => '\uFFFD' :: decodeLossy (rest.drop (n - 1))
    | .incomplete => ['\uFFFD']
termination_by bytes => bytes.length
decreasing_by all_goals (simp only [List.length_drop, List.length_cons]; omega)

/-! ## Encoding -/

/-- The bytes of a text. -/
def encode (s : List Char) : List UInt8 := s.flatMap String.utf8EncodeChar

/-- The bytes of a string. -/
def ofString (s : String) : List UInt8 := encode s.toList

/-- The string that the bytes spell, if they are valid. -/
def toString? (bytes : List UInt8) : Option String :=
  match decode bytes with
  | .ok s => some (String.ofList s)
  | .error _ => none

/-- The string that the bytes spell, with U+FFFD for what is invalid. -/
def toStringLossy (bytes : List UInt8) : String := String.ofList (decodeLossy bytes)

end StyleTrack.Text.Utf8
