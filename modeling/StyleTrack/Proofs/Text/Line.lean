/-
Lines: what is in front of each newline of a text. A text that does not end with a newline is not made of lines.
-/
import StyleTrack.Proofs.Text.Joined

namespace StyleTrack.Text

variable {α : Type} [DecidableEq α] {newline : α}

/-- The lines of a text, without the newlines that end them. -/
def lines? (newline : α) : List α → Option (List (List α))
  | [] => some []
  | c :: rest =>
    if c = newline then (lines? newline rest).map ([] :: ·)
    else match lines? newline rest with
      | some (line :: others) => some ((c :: line) :: others)
      | _ => none

theorem lines?_append {line : List α} (h : newline ∉ line) (rest : List α) :
    lines? newline (line ++ newline :: rest) = (lines? newline rest).map (line :: ·) := by
  induction line with
  | nil => rw [List.nil_append, lines?, if_pos rfl]
  | cons c line ih =>
    obtain ⟨hc, hline⟩ := not_or.1 (mt List.mem_cons.2 h)
    rw [List.cons_append, lines?, if_neg (Ne.symm hc), ih hline]
    cases lines? newline rest <;> rfl

/-- The lines of a text are those that, each with a newline behind it, make up the text, and hold none. -/
theorem lines?_eq_some_iff {text : List α} {lines : List (List α)} :
    lines? newline text = some lines ↔
      text = lines.flatMap (· ++ [newline]) ∧ ∀ line ∈ lines, newline ∉ line := by
  constructor
  · induction text generalizing lines with
    | nil =>
      rintro ⟨⟩
      exact ⟨rfl, by simp⟩
    | cons c rest ih =>
      rw [lines?]
      split
      · rename_i hc
        intro h
        obtain ⟨others, hothers, rfl⟩ := Option.map_eq_some_iff.1 h
        obtain ⟨hrest, hnone⟩ := ih hothers
        exact ⟨by rw [hc, hrest]; rfl, by simpa using hnone⟩
      · rename_i hc
        intro h
        split at h
        · rename_i line others hrest
          cases h
          obtain ⟨hrest, hnone⟩ := ih hrest
          obtain ⟨hline, hothers⟩ := List.forall_mem_cons.1 hnone
          refine ⟨by rw [hrest]; rfl, List.forall_mem_cons.2 ⟨?_, hothers⟩⟩
          simp [hline, Ne.symm hc]
        · cases h
  · rintro ⟨rfl, hnone⟩
    induction lines with
    | nil => rfl
    | cons line others ih =>
      obtain ⟨hline, hothers⟩ := List.forall_mem_cons.1 hnone
      rw [List.flatMap_cons, List.append_assoc, List.singleton_append, lines?_append hline, ih hothers]
      rfl

/-! ## Lines and segments -/

/-- The segments of a text are its lines, when it is ended with a newline. -/
theorem flatMap_splitOn (newline : α) (text : List α) :
    (text.splitOn newline).flatMap (· ++ [newline]) = text ++ [newline] := by
  rw [flatMap_append_sep (List.splitOn_ne_nil newline text), List.intercalate_splitOn]

theorem lines?_flatMap_splitOn {β : Type} (newline : α) (f : β → List α) (l : List β) :
    lines? newline (l.flatMap fun x => f x ++ [newline]) = some (l.flatMap fun x => (f x).splitOn newline) := by
  refine lines?_eq_some_iff.2 ⟨?_, ?_⟩
  · rw [List.flatMap_assoc]
    exact congrArg l.flatMap (funext fun x => (flatMap_splitOn newline (f x)).symm)
  · intro line hline
    obtain ⟨x, -, hx⟩ := List.mem_flatMap.1 hline
    exact notMem_of_mem_splitOn hx

/-- A text is split into one segment more than it has separators. -/
theorem length_splitOn (newline : α) (text : List α) :
    (text.splitOn newline).length = text.count newline + 1 := by
  induction text with
  | nil => simp
  | cons c rest ih =>
    rw [List.splitOn_cons_eq_if_modifyHead]
    split <;> simp_all

/-- What holds no separator belongs to the first segment behind it. -/
theorem splitOn_append_of_notMem {front : List α} (h : newline ∉ front) (text : List α) :
    (front ++ text).splitOn newline = (text.splitOn newline).modifyHead (front ++ ·) := by
  induction front with
  | nil => rw [List.nil_append]; cases text.splitOn newline <;> rfl
  | cons c front ih =>
    obtain ⟨hc, hfront⟩ := not_or.1 (mt List.mem_cons.2 h)
    rw [List.cons_append, List.splitOn_cons_eq_if_modifyHead, if_neg (by simpa using Ne.symm hc), ih hfront]
    cases text.splitOn newline <;> rfl

end StyleTrack.Text
