/-
The search for a reference in two file systems of which the smaller has no path that the bigger lacks.
Either both searches end alike, or the bigger file system gives a path that the smaller does not have:
a path that both have is met by both at the same place of the search.
-/
import StyleTrack.Import.Lookup

namespace StyleTrack

/-- Whether a file system knows of every path if it exists. -/
def FileSystem.Answers (fs : FileSystem) : Prop := ∀ p, ∃ b, fs.contains p = .ok b

/-- Whether a path exists in the bigger of two file systems and is missing in the smaller. -/
def FileSystem.Lacks (small big : FileSystem) (p : Path) : Prop :=
  small.contains p = .ok false ∧ big.contains p = .ok true

namespace Locator

variable {fs : FileSystem} {candidate : String} {p : Path}

/-! ## What a search finds -/

theorem of_firstPresent {tried places : List Path} (h : firstPresent fs candidate tried places = .ok p) :
    p ∈ places ∧ fs.contains p = .ok true := by
  induction places generalizing tried with
  | nil => cases h
  | cons q rest ih =>
    unfold firstPresent at h
    split at h
    · exact ⟨List.mem_cons_of_mem _ (ih h).1, (ih h).2⟩
    · split at h
      · rename_i hq
        cases h
        exact ⟨List.mem_cons_self, hq⟩
      · exact ⟨List.mem_cons_of_mem _ (ih h).1, (ih h).2⟩
      · cases h

theorem contains_of_searching {base : Path} {search : List Path}
    (h : searching fs base candidate search = .ok p) : fs.contains p = .ok true :=
  (of_firstPresent h).2

/-- Every path that a search finds is spelled cleanly. -/
theorem exists_clean_of_searching {base : Path} {search : List Path}
    (h : searching fs base candidate search = .ok p) : ∃ q : Path, p = q.clean := by
  obtain ⟨dir, -, rfl⟩ := List.mem_map.1 (of_firstPresent h).1
  exact ⟨_, rfl⟩

/-! ## Two file systems -/

/-- A search looks at nothing but which paths exist. -/
theorem searching_congr {fs' : FileSystem} (h : ∀ p, fs'.contains p = fs.contains p) : searching fs' = searching fs := by
  have hfirst : ∀ (candidate : String) (places tried : List Path),
      firstPresent fs' candidate tried places = firstPresent fs candidate tried places := by
    intro candidate places
    induction places with
    | nil => intro tried; rfl
    | cons p rest ih =>
      intro tried
      unfold firstPresent
      rw [h p]
      simp only [ih]
  funext base candidate search
  exact hfirst candidate _ _

section Two

variable {small big : FileSystem}

theorem firstPresent_agrees (hsub : ∀ q, small.contains q = .ok true → big.contains q = .ok true)
    (hsmall : small.Answers) (hbig : big.Answers) (tried places : List Path) :
    (∃ q, firstPresent big candidate tried places = .ok q ∧ small.Lacks big q) ∨
      firstPresent small candidate tried places = firstPresent big candidate tried places := by
  induction places generalizing tried with
  | nil => exact .inr rfl
  | cons q rest ih =>
    unfold firstPresent
    by_cases htried : tried.any q.same = true
    · simp only [htried, if_true]
      exact ih tried
    · simp only [htried, Bool.false_eq_true, if_false]
      obtain ⟨b, hb⟩ := hbig q
      obtain ⟨b', hb'⟩ := hsmall q
      rw [hb, hb']
      cases b with
      | true =>
        cases b' with
        | true => exact .inr rfl
        | false => exact .inl ⟨q, rfl, hb', hb⟩
      | false =>
        cases b' with
        | true => rw [hsub q hb'] at hb; cases hb
        | false => exact ih (tried ++ [q])

/-- Two searches for one reference end alike unless the bigger file system gives a path of its own. -/
theorem searching_agrees (hsub : ∀ q, small.contains q = .ok true → big.contains q = .ok true)
    (hsmall : small.Answers) (hbig : big.Answers) (base : Path) (candidate : String) (search : List Path) :
    (∃ q, searching big base candidate search = .ok q ∧ small.Lacks big q) ∨
      searching small base candidate search = searching big base candidate search :=
  firstPresent_agrees hsub hsmall hbig [] _

end Two

end Locator

end StyleTrack
