/-
Blanks around a text: trimming takes them away and nothing else, and skipping stops where they end.
-/
import StyleTrack.Text.Blank
import Mathlib.Data.List.Basic
import Mathlib.Data.List.TakeWhile

namespace StyleTrack.Text

variable {s t u : List Char}

theorem dropWhile_append_of_head? {p : Char → Bool} (hs : ∀ c ∈ s, p c = true) (ht : ∀ c ∈ t.head?, p c = false) :
    (s ++ t).dropWhile p = t := by
  rw [List.dropWhile_append_of_pos hs]
  cases t with
  | nil => rfl
  | cons c t => rw [List.dropWhile_cons_of_neg (by simp [ht c rfl])]

theorem forall_ne_of_notMem {c : Char} (h : c ∉ s) : ∀ d ∈ s, decide (d ≠ c) = true := fun _ hd =>
  decide_eq_true fun heq => h (heq ▸ hd)

theorem dropWhile_ne_append {c : Char} (h : c ∉ s) (t : List Char) : (s ++ c :: t).dropWhile (· ≠ c) = c :: t :=
  dropWhile_append_of_head? (forall_ne_of_notMem h) (by simp)

theorem takeWhile_ne_append {c : Char} (h : c ∉ s) (t : List Char) : (s ++ c :: t).takeWhile (· ≠ c) = s := by
  rw [List.takeWhile_append_of_pos (forall_ne_of_notMem h), List.takeWhile_cons_of_neg (by simp), List.append_nil]

theorem skipBlanks_append (hs : ∀ c ∈ s, isAsciiBlank c = true) (ht : ∀ c ∈ t.head?, isAsciiBlank c = false) :
    skipBlanks (s ++ t) = t := dropWhile_append_of_head? hs ht

theorem skipBlanks_append_of_ne_nil (hs : skipBlanks s ≠ []) : skipBlanks (s ++ t) = skipBlanks s ++ t := by
  unfold skipBlanks at hs ⊢
  rw [List.dropWhile_append, if_neg (by simpa using hs)]

theorem trimEnd_append (hu : ∀ c ∈ u, isBlank c = true) (ht : ∀ c ∈ t.getLast?, isBlank c = false) :
    trimEnd (t ++ u) = t := by
  rw [trimEnd, List.reverse_append, dropWhile_append_of_head? (by simpa using hu) (by simpa using ht),
    List.reverse_reverse]

/-- A text that neither starts nor ends with a blank is what is left when blanks around it are trimmed. -/
theorem trim_append (hs : ∀ c ∈ s, isBlank c = true) (hu : ∀ c ∈ u, isBlank c = true) (hne : t ≠ [])
    (hhead : ∀ c ∈ t.head?, isBlank c = false) (hlast : ∀ c ∈ t.getLast?, isBlank c = false) :
    trim (s ++ t ++ u) = t := by
  obtain ⟨c, t, rfl⟩ := List.exists_cons_of_ne_nil hne
  rw [trim, List.append_assoc, dropWhile_append_of_head? hs (by simpa using hhead), trimEnd_append hu hlast]

theorem exists_trim (s : List Char) : ∃ lead trail, s = lead ++ trim s ++ trail ∧ (∀ c ∈ lead, isBlank c = true) ∧
    ∀ c ∈ trail, isBlank c = true := by
  refine ⟨s.takeWhile isBlank, ((s.dropWhile isBlank).reverse.takeWhile isBlank).reverse, ?_, fun c hc => ?_,
    fun c hc => ?_⟩
  · rw [List.append_assoc, trim, trimEnd, ← List.reverse_append, List.takeWhile_append_dropWhile, List.reverse_reverse,
      List.takeWhile_append_dropWhile]
  · exact List.mem_takeWhile_imp hc
  · exact List.mem_takeWhile_imp (List.mem_reverse.1 hc)

theorem trim_isInfix (s : List Char) : trim s <:+: s := by
  obtain ⟨lead, trail, hs, -⟩ := exists_trim s
  exact ⟨lead, trail, hs.symm⟩

theorem dropWhile_eq_self_iff {p : Char → Bool} : s.dropWhile p = s ↔ ∀ c ∈ s.head?, p c = false := by
  constructor
  · intro h c hc
    have hnot := List.head?_dropWhile_not p s
    rw [h, hc] at hnot
    exact hnot
  · intro h
    have hnil : ([] ++ s).dropWhile p = s := dropWhile_append_of_head? (by simp) h
    exact hnil

/-- Trimming leaves a text as it is that neither starts nor ends with a blank. -/
theorem trim_eq_self_iff : trim s = s ↔ (∀ c ∈ s.head?, isBlank c = false) ∧ ∀ c ∈ s.getLast?, isBlank c = false := by
  constructor
  · intro h
    have hend : (trimEnd (s.dropWhile isBlank)).length ≤ (s.dropWhile isBlank).length := by
      rw [trimEnd, List.length_reverse]
      exact (List.dropWhile_sublist isBlank).length_le.trans_eq List.length_reverse
    have hstart : s.dropWhile isBlank = s := by
      refine (List.dropWhile_sublist isBlank).eq_of_length_le ?_
      exact (congrArg List.length h).symm.le.trans hend
    rw [trim, hstart, trimEnd] at h
    have hlast : s.reverse.dropWhile isBlank = s.reverse := by simpa using congrArg List.reverse h
    exact ⟨dropWhile_eq_self_iff.1 hstart, by simpa using dropWhile_eq_self_iff.1 hlast⟩
  · rintro ⟨hhead, hlast⟩
    rw [trim, dropWhile_eq_self_iff.2 hhead, trimEnd, dropWhile_eq_self_iff.2 (by simpa using hlast),
      List.reverse_reverse]

theorem isBlank_of_toNat {c : Char} (hlow : 33 ≤ c.toNat) (hhigh : c.toNat < 128) : isBlank c = false := by
  simp only [isBlank, Bool.or_eq_false_iff, Bool.and_eq_false_iff, decide_eq_false_iff_not, beq_eq_false_iff_ne]
  omega

theorem isAsciiBlank_of_isBlank {c : Char} (h : isBlank c = false) : isAsciiBlank c = false := by
  rw [Bool.eq_false_iff]
  intro hblank
  rw [isBlank_of_isAsciiBlank hblank] at h
  cases h

end StyleTrack.Text
