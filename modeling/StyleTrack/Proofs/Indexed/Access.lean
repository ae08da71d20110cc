/-
Programs that go through the bytes of a text by position. Such a program can go wrong where one over lists cannot: it may
ask for a byte that is not there, cut a text inside a character, take more from a number than there is, or go round in a
loop without moving on. Here each of these is an outcome of its own, so a program that has a result does none of them.
-/
import StyleTrack.Proofs.Source.Bytes

namespace StyleTrack.Source.Indexed

open StyleTrack.Text

/-! ## What can go wrong -/

/-- What a program can do wrong with positions. -/
inductive Misstep where
  /-- There is no such byte. -/
  | noByte (i : Nat)
  /-- There is nothing to cut out: the positions are out of order or out of range, or one is inside a character. -/
  | badCut (start stop : Nat)
  /-- A number is taken from a smaller one. -/
  | underflow
  /-- A loop comes back without having moved on. -/
  | stuck
deriving DecidableEq, Repr

/-- A program that may go wrong. -/
abbrev Checked := Except Misstep

/-! ## Access -/

/-- The length of a text in bytes. -/
def size (text : List Char) : Nat := (bytewise text).length

/-- The byte at a position, as the character of the same number. -/
def byteAt (text : List Char) (i : Nat) : Checked Char :=
  match (bytewise text)[i]? with
  | some b => .ok b
  | none => .error (.noByte i)

/-- The byte at a position, if there is one. -/
def peek (text : List Char) (i : Nat) : Option Char := (bytewise text)[i]?

/-- The bytes between two positions. -/
def bytesBetween (text : List Char) (start stop : Nat) : Checked (List Char) :=
  if start ≤ stop ∧ stop ≤ size text then .ok (((bytewise text).drop start).take (stop - start))
  else .error (.badCut start stop)

/-- The text in front of a position and the text behind it, if a character begins or the text ends there. -/
def split? : Nat → List Char → Option (List Char × List Char)
  | 0, text => some ([], text)
  | _ + 1, [] => none
  | n + 1, c :: text =>
    if size [c] ≤ n + 1 then (split? (n + 1 - size [c]) text).map fun parts => (c :: parts.1, parts.2) else none

/-- The text between two positions. -/
def slice (text : List Char) (start stop : Nat) : Checked (List Char) :=
  match (split? start text).bind fun parts => split? (stop - start) parts.2 with
  | some parts => if start ≤ stop then .ok parts.1 else .error (.badCut start stop)
  | none => .error (.badCut start stop)

/-- The difference of two numbers. -/
def minus (a b : Nat) : Checked Nat := if b ≤ a then .ok (a - b) else .error .underflow

/-- The position at which a text first holds a word. -/
def find? (word text : List Char) : Option Nat :=
  if word.isPrefixOf text then some 0
  else match text with
    | [] => none
    | c :: rest => (find? word rest).map (size [c] + ·)

/-! ## Loops -/

/-- How one turn of a loop ends. -/
inductive Turn (σ ρ : Type) where
  /-- The loop goes on at a position. -/
  | next (i : Nat) (state : σ)
  /-- The loop is left with a result. -/
  | done (result : ρ)

variable {σ ρ : Type}

/-- Goes round, from a position on, until a turn is the last or the position is the end. Every turn has to move on. -/
def loop (stop : Nat) (turn : Nat → σ → Checked (Turn σ ρ)) (last : Nat → σ → ρ) (i : Nat) (state : σ) : Checked ρ :=
  if i < stop then
    match turn i state with
    | .error m => .error m
    | .ok (.done result) => .ok result
    | .ok (.next j state) => if i < j then loop stop turn last j state else .error .stuck
  else .ok (last i state)
termination_by stop - i

variable {stop i j : Nat} {turn : Nat → σ → Checked (Turn σ ρ)} {last : Nat → σ → ρ} {state state' : σ} {result : ρ}

theorem loop_of_le (h : stop ≤ i) : loop stop turn last i state = .ok (last i state) := by
  rw [loop, if_neg (Nat.not_lt.2 h)]

theorem loop_of_done (hi : i < stop) (h : turn i state = .ok (.done result)) :
    loop stop turn last i state = .ok result := by
  rw [loop, if_pos hi, h]

theorem loop_of_next (hi : i < stop) (h : turn i state = .ok (.next j state')) (hj : i < j) :
    loop stop turn last i state = loop stop turn last j state' := by
  rw [loop, if_pos hi, h]
  exact if_pos hj

/-! ## Programs that go on -/

variable {α β ε : Type}

@[simp]
theorem ok_bind (a : α) (f : α → Checked β) : ((.ok a : Checked α) >>= f) = f a := rfl

@[simp]
theorem pure_eq_ok (a : α) : (pure a : Checked α) = .ok a := rfl

theorem minus_of_le {a b : Nat} (h : b ≤ a) : minus a b = .ok (a - b) := if_pos h

/-- Runs a program on one input after the other, up to the first that it refuses. -/
def collect (f : α → Checked (Except ε β)) : List α → Checked (Except ε (List β))
  | [] => .ok (.ok [])
  | a :: rest => do
    match ← f a with
    | .error e => return .error e
    | .ok b => return (← collect f rest).map (b :: ·)

theorem collect_map {γ : Type} {f : α → Checked (Except ε β)} {g : γ → Except ε β} {input : γ → α} {items : List γ}
    (hf : ∀ item ∈ items, f (input item) = .ok (g item)) : collect f (items.map input) = .ok (items.mapM g) := by
  induction items with
  | nil => rfl
  | cons item items ih =>
    rw [List.map_cons, collect, hf item List.mem_cons_self, List.mapM_cons,
      ih fun item hitem => hf item (List.mem_cons_of_mem _ hitem)]
    cases g item with
    | error e => rfl
    | ok b => cases List.mapM g items <;> rfl

/-! ## Positions between characters -/

variable {text s u v w : List Char} {b c : Char}

theorem size_eq_length_encode (s : List Char) : size s = (Utf8.encode s).length := length_bytewise s

theorem size_append (s t : List Char) : size (s ++ t) = size s + size t := by
  rw [size, bytewise_append, List.length_append]
  rfl

@[simp]
theorem size_nil : size [] = 0 := rfl

theorem size_cons (c : Char) (s : List Char) : size (c :: s) = size [c] + size s := size_append [c] s

theorem size_singleton (h : c.toNat < 128) : size [c] = 1 := by rw [size, bytewise_singleton h, List.length_singleton]

theorem size_pos (h : s ≠ []) : 0 < size s := List.length_pos_of_ne_nil (bytewise_ne_nil h)

theorem size_lt_size_append (u : List Char) (c : Char) (v : List Char) : size u < size (u ++ c :: v) := by
  rw [size_append]
  exact Nat.lt_add_of_pos_right (size_pos (List.cons_ne_nil c v))

theorem size_of_ascii (h : ∀ c ∈ s, c.toNat < 128) : size s = s.length := by rw [size, bytewise_of_ascii h]

theorem drop_size (u v : List Char) : (bytewise (u ++ v)).drop (size u) = bytewise v := by
  rw [bytewise_append, size, List.drop_left]

theorem take_size (u v : List Char) : (bytewise (u ++ v)).take (size u) = bytewise u := by
  rw [bytewise_append, size, List.take_left]

theorem split?_size (u v : List Char) : split? (size u) (u ++ v) = some (u, v) := by
  induction u with
  | nil => simp [split?]
  | cons c u ih =>
    obtain ⟨n, hn⟩ : ∃ n, size (c :: u) = n + 1 := Nat.exists_eq_add_one.2 (size_pos (by simp))
    have hsize := size_cons c u
    have hrest : n + 1 - size [c] = size u := by omega
    rw [hn, List.cons_append, split?, if_pos (by omega), hrest, ih, Option.map_some]

theorem split?_eq_some_iff {n : Nat} : split? n text = some (u, v) ↔ text = u ++ v ∧ size u = n := by
  constructor
  · intro h
    fun_induction split? n text generalizing u with
    | case1 text =>
      cases h
      exact ⟨rfl, rfl⟩
    | case2 n => cases h
    | case3 n c text hle ih =>
      obtain ⟨⟨front, back⟩, hparts, heq⟩ := Option.map_eq_some_iff.1 h
      cases heq
      obtain ⟨rfl, hsize⟩ := ih hparts
      refine ⟨rfl, ?_⟩
      dsimp only at hsize ⊢
      rw [size_cons]
      omega
    | case4 n c text hnot => cases h
  · rintro ⟨rfl, rfl⟩
    exact split?_size u v

/-- A slice is a part of the text, from the position behind what stands in front of it to the position behind itself. -/
theorem slice_eq_ok_iff {start stop : Nat} : slice text start stop = .ok s ↔
    ∃ u v, text = u ++ s ++ v ∧ start = size u ∧ stop = size (u ++ s) := by
  constructor
  · intro h
    unfold slice at h
    split at h
    · rename_i parts hparts
      obtain ⟨middle, back⟩ := parts
      split_ifs at h with hle
      cases h
      obtain ⟨⟨u, rest⟩, hfront, hback⟩ := Option.bind_eq_some_iff.1 hparts
      obtain ⟨rfl, rfl⟩ := split?_eq_some_iff.1 hfront
      obtain ⟨rfl, hsize⟩ := split?_eq_some_iff.1 hback
      refine ⟨u, back, (List.append_assoc _ _ _).symm, rfl, ?_⟩
      dsimp only at hsize ⊢
      rw [size_append]
      omega
    · cases h
  · rintro ⟨u, v, rfl, rfl, rfl⟩
    rw [slice, List.append_assoc, split?_size, Option.bind_some, size_append, Nat.add_sub_cancel_left, split?_size]
    exact if_pos (Nat.le_add_right _ _)

/-- Inside a character nothing is cut. -/
example : slice ['é', 'a'] 0 2 = .ok ['é'] ∧ slice ['é', 'a'] 1 2 = .error (.badCut 1 2) := by decide

theorem slice_size (u s v : List Char) : slice (u ++ s ++ v) (size u) (size (u ++ s)) = .ok s :=
  slice_eq_ok_iff.2 ⟨u, v, rfl, rfl, rfl⟩

theorem slice_to_end (u v : List Char) : slice (u ++ v) (size u) (size (u ++ v)) = .ok v :=
  slice_eq_ok_iff.2 ⟨u, [], (List.append_nil _).symm, rfl, rfl⟩

theorem find?_of_isPrefix (h : w <+: text) : find? w text = some 0 := by
  unfold find?
  exact if_pos (List.isPrefixOf_iff_prefix.2 h)

theorem find?_nil (hw : w ≠ []) : find? w [] = none := by simp [find?, hw]

theorem find?_cons_of_not (h : ¬ w <+: c :: text) : find? w (c :: text) = (find? w text).map (size [c] + ·) := by
  rw [find?, if_neg fun hprefix => h (List.isPrefixOf_iff_prefix.1 hprefix)]

theorem find?_of_notMem (h : c ∉ text) : find? [c] text = none := by
  induction text with
  | nil => exact find?_nil (by simp)
  | cons d text ih =>
    obtain ⟨hne, hmem⟩ := not_or.1 (mt List.mem_cons.2 h)
    rw [find?_cons_of_not (by simp [hne]), ih hmem]
    rfl

/-- A character is found where the text in front of its first occurrence ends. -/
theorem find?_append (h : c ∉ s) (t : List Char) : find? [c] (s ++ c :: t) = some (size s) := by
  induction s with
  | nil => exact find?_of_isPrefix (by simp)
  | cons d s ih =>
    obtain ⟨hne, hmem⟩ := not_or.1 (mt List.mem_cons.2 h)
    rw [List.cons_append, find?_cons_of_not (by simp [hne]), ih hmem, size_cons d s]
    rfl

/-! ## Bytes from a position on -/

theorem byteAt_of_drop (h : (bytewise text).drop i = b :: s) : byteAt text i = .ok b := by
  have hget : (bytewise text)[i]? = some b := by rw [← Nat.add_zero i, ← List.getElem?_drop, h]; rfl
  rw [byteAt, hget]

theorem peek_size (u v : List Char) : peek (u ++ v) (size u) = (bytewise v).head? := by
  rw [peek, ← drop_size u v, List.head?_drop]

theorem lt_size_of_drop (h : (bytewise text).drop i = b :: s) : i < size text := by
  by_contra hnot
  rw [List.drop_of_length_le (Nat.le_of_not_lt hnot)] at h
  cases h

theorem drop_succ_of_drop (h : (bytewise text).drop i = b :: s) : (bytewise text).drop (i + 1) = s := by
  rw [← List.drop_drop, h]
  rfl

theorem size_eq_of_drop (hi : i ≤ size text) (h : (bytewise text).drop i = s) : size text = i + s.length := by
  have hlength := congrArg List.length h
  rw [List.length_drop] at hlength
  change size text - i = s.length at hlength
  omega

end StyleTrack.Source.Indexed
