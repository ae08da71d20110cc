/-
Texts that are joined with a separator between them, and the segments that a text is split into at a separator.
-/
import Mathlib.Data.List.Basic

namespace StyleTrack.Text

variable {α : Type}

theorem mem_of_mem_intercalate {c : α} {sep : List α} :
    ∀ {l : List (List α)}, c ∈ sep.intercalate l → c ∈ sep ∨ ∃ t ∈ l, c ∈ t
  | [], hc => absurd hc (by simp [List.intercalate])
  | [t], hc => .inr ⟨t, by simp, by simpa [List.intercalate] using hc⟩
  | t :: t' :: l, hc => by
    rw [List.intercalate_cons_cons, List.mem_append, List.mem_append] at hc
    rcases hc with (hc | hc) | hc
    · exact .inr ⟨t, by simp, hc⟩
    · exact .inl hc
    · exact (mem_of_mem_intercalate hc).imp id fun ⟨u, hu, hcu⟩ => ⟨u, List.mem_cons_of_mem _ hu, hcu⟩

theorem intercalate_append {sep : List α} {front back : List (List α)} (hfront : front ≠ []) (hback : back ≠ []) :
    sep.intercalate (front ++ back) = sep.intercalate front ++ (sep ++ sep.intercalate back) := by
  induction front with
  | nil => exact absurd rfl hfront
  | cons s front ih =>
    by_cases hnil : front = []
    · rw [hnil, List.singleton_append, List.intercalate_cons_of_ne_nil hback, List.intercalate_singleton,
        List.append_assoc]
    · rw [List.cons_append, List.intercalate_cons_of_ne_nil (by simp [hback]), ih hnil,
        List.intercalate_cons_of_ne_nil hnil]
      simp only [List.append_assoc]

/-- The first text, and each other one with the separator in front. -/
theorem intercalate_cons_eq_append_flatMap (sep t : List α) (l : List (List α)) :
    sep.intercalate (t :: l) = t ++ l.flatMap (sep ++ ·) := by
  induction l generalizing t with
  | nil => simp
  | cons t' l ih => rw [List.intercalate_cons_cons, ih, List.flatMap_cons, List.append_assoc, List.append_assoc]

/-- Ending each text with the separator is joining them and ending the whole with it. -/
theorem flatMap_append_sep {sep : List α} {l : List (List α)} (hne : l ≠ []) :
    l.flatMap (· ++ sep) = sep.intercalate l ++ sep := by
  induction l with
  | nil => exact absurd rfl hne
  | cons t l ih =>
    by_cases hnil : l = []
    · rw [hnil]
      simp
    · rw [List.flatMap_cons, ih hnil, List.intercalate_cons_of_ne_nil hnil]
      simp only [List.append_assoc]

variable [DecidableEq α] {sep : α} {s segment : List α}

/-- No segment holds a separator. -/
theorem notMem_of_mem_splitOn (h : segment ∈ s.splitOn sep) : sep ∉ segment := by
  induction s generalizing segment with
  | nil =>
    rw [List.splitOn_nil, List.mem_singleton] at h
    simp [h]
  | cons b s ih =>
    rw [List.splitOn_cons_eq_if_modifyHead] at h
    split at h
    · rcases List.mem_cons.1 h with rfl | h
      · simp
      · exact ih h
    · rename_i hb
      cases hs : s.splitOn sep with
      | nil => exact absurd hs (List.splitOn_ne_nil _ _)
      | cons first rest =>
        rw [hs] at h ih
        rcases List.mem_cons.1 h with rfl | h
        · have hfirst := ih List.mem_cons_self
          simp only [beq_iff_eq] at hb
          simp [hfirst, Ne.symm hb]
        · exact ih (List.mem_cons_of_mem _ h)

/-- The segments hold nothing but what is in the whole. -/
theorem subset_of_mem_splitOn (h : segment ∈ s.splitOn sep) : segment ⊆ s := by
  induction s generalizing segment with
  | nil =>
    rw [List.splitOn_nil, List.mem_singleton] at h
    simp [h]
  | cons b s ih =>
    rw [List.splitOn_cons_eq_if_modifyHead] at h
    split at h
    · rcases List.mem_cons.1 h with rfl | h
      · simp
      · exact List.subset_cons_of_subset b (ih h)
    · obtain ⟨first, rest, hs⟩ := List.exists_cons_of_ne_nil (List.splitOn_ne_nil sep s)
      rw [hs] at h ih
      rcases List.mem_cons.1 h with rfl | h
      · exact List.cons_subset_cons b (ih List.mem_cons_self)
      · exact List.subset_cons_of_subset b (ih (List.mem_cons_of_mem _ h))

/-- Splitting what was joined splits each of the texts. -/
theorem splitOn_intercalate_eq_flatMap (sep : α) {l : List (List α)} (hne : l ≠ []) :
    ([sep].intercalate l).splitOn sep = l.flatMap fun s => s.splitOn sep := by
  induction l with
  | nil => exact absurd rfl hne
  | cons s l ih =>
    by_cases hnil : l = []
    · rw [hnil]
      simp
    · rw [List.intercalate_cons_of_ne_nil hnil, List.append_assoc, List.singleton_append, List.splitOn_append_cons_self,
        ih hnil, List.flatMap_cons]

end StyleTrack.Text
