/-
Parsers on texts of which it is known what each part reads: parts in sequence, alternatives, and repetitions
with and without separators. What stands behind the part that is read is arbitrary.
-/
import StyleTrack.Proofs.Text.Joined
import StyleTrack.Text.Parser
import Mathlib.Algebra.BigOperators.Group.List.Basic

namespace StyleTrack.Text.Parser

variable {α β : Type} {p : Parser α} {text rest : List Char} {a : α}

/-! ## Sequence and choice -/

theorem bind_of_some {f : α → Parser β} (h : p text = some (a, rest)) : (p >>= f) text = f a rest := by
  simp only [bind, h]

theorem bind_of_none {f : α → Parser β} (h : p text = none) : (p >>= f) text = none := by
  simp only [bind, h]

theorem or_of_some {q : Parser α} (h : p text = some (a, rest)) : Parser.or p q text = some (a, rest) := by
  rw [Parser.or, h]

theorem or_of_none {q : Parser α} (h : p text = none) : Parser.or p q text = q text := by
  rw [Parser.or, h]

theorem optional_of_none (h : p text = none) : Parser.optional p text = some (none, text) := by
  rw [Parser.optional, h]

theorem satisfy_cons {accept : Char → Bool} {c : Char} (h : accept c = true) (rest : List Char) :
    Parser.satisfy accept (c :: rest) = some (c, rest) := by
  rw [Parser.satisfy, if_pos h]

theorem char_self (c : Char) (rest : List Char) : Parser.char c (c :: rest) = some (c, rest) :=
  satisfy_cons (by simp) rest

theorem char_of_ne {c d : Char} (h : d ≠ c) (rest : List Char) : Parser.char c (d :: rest) = none := by
  simp [Parser.char, Parser.satisfy, h]

/-! ## Repetition -/

/-- Nothing follows what was read first, so it is all there is. -/
theorem many_of_none (h : p text = none) : Parser.many p text = some ([], text) := by
  rw [Parser.many]
  cases text with
  | nil => rfl
  | cons c text => simp only [Parser.manyWithin, h]

variable {w : β → List Char} {read : β → α} {l : List β}

theorem manyWithin_flatMap
    (hread : ∀ x back, x :: back <:+ l → p (w x ++ (back.flatMap w ++ rest)) = some (read x, back.flatMap w ++ rest))
    (hrest : p rest = none) {bound : List Char} (hbound : l.length ≤ bound.length) :
    Parser.manyWithin p bound (l.flatMap w ++ rest) = some (l.map read, rest) := by
  induction l generalizing bound with
  | nil =>
    cases bound with
    | nil => rfl
    | cons c bound => simp only [Parser.manyWithin, List.flatMap_nil, List.nil_append, hrest, List.map_nil]
  | cons x l ih =>
    cases bound with
    | nil => exact absurd hbound (by simp)
    | cons c bound =>
      have hx := hread x l (List.suffix_refl _)
      have hmore := ih (fun y back hback => hread y back (hback.trans (List.suffix_cons x l)))
        (Nat.le_of_succ_le_succ hbound)
      rw [List.flatMap_cons, List.append_assoc]
      simp only [Parser.manyWithin, hx, hmore, List.map_cons]

/-- Texts one after the other are read one after the other, if each is read in front of those behind it. None of
them is empty, so the bound of a repetition is not in the way. -/
theorem many_flatMap
    (hread : ∀ x back, x :: back <:+ l → p (w x ++ (back.flatMap w ++ rest)) = some (read x, back.flatMap w ++ rest))
    (hne : ∀ x ∈ l, w x ≠ []) (hrest : p rest = none) :
    Parser.many p (l.flatMap w ++ rest) = some (l.map read, rest) := by
  refine manyWithin_flatMap hread hrest ?_
  have hsum : l.length ≤ (l.map fun x => (w x).length).sum := by
    have hle := List.length_le_sum_of_one_le (l.map fun x => (w x).length)
      (List.forall_mem_map.2 fun x hx => List.length_pos_iff.2 (hne x hx))
    rwa [List.length_map] at hle
  rw [List.length_append, List.length_flatMap]
  omega

theorem many_of_one (h : p text = some (a, rest)) (hne : text ≠ []) (hrest : p rest = none) :
    Parser.many p text = some ([a], rest) := by
  obtain ⟨c, tail, rfl⟩ := List.exists_cons_of_ne_nil hne
  have hend : Parser.manyWithin p tail rest = some ([], rest) := by
    cases tail with
    | nil => rfl
    | cons c tail => simp only [Parser.manyWithin, hrest]
  simp only [Parser.many, Parser.manyWithin, h, hend]

/-- Texts that are joined are read one after the other. -/
theorem separated_intercalate {γ : Type} {separator : Parser γ} {sep : List Char} {found : γ} (hne : l ≠ [])
    (hread : ∀ x ∈ l, ∀ rest, p (w x ++ rest) = some (read x, rest)) (hsep : sep ≠ [])
    (hseparator : ∀ rest, separator (sep ++ rest) = some (found, rest)) (hrest : separator rest = none) :
    Parser.separated p separator (sep.intercalate (l.map w) ++ rest) = some (l.map read, rest) := by
  obtain ⟨x, l, rfl⟩ := List.exists_cons_of_ne_nil hne
  obtain ⟨hx, hl⟩ := List.forall_mem_cons.1 hread
  have hothers : Parser.many (separator >>= fun _ => p) (l.flatMap (fun y => sep ++ w y) ++ rest) =
      some (l.map read, rest) := by
    refine many_flatMap (fun y back hback => ?_) (fun y _ => by simp [hsep]) (bind_of_none hrest)
    rw [List.append_assoc, bind_of_some (hseparator _), hl y (hback.subset List.mem_cons_self)]
  rw [List.map_cons, intercalate_cons_eq_append_flatMap, List.flatMap_map, List.append_assoc, Parser.separated,
    bind_of_some (hx _), bind_of_some hothers]
  rfl

end StyleTrack.Text.Parser
