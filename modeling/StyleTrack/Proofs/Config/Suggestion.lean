/-
Suggestions are nearest keys: what is suggested is the first of the known keys at the least distance, and nothing is
suggested exactly if all of them are too far away.
-/
import StyleTrack.Config.Suggestion
import StyleTrack.Proofs.Text.EditDistance
import Mathlib.Data.List.MinMax

namespace StyleTrack.Config

open StyleTrack.Text

/-- The least number of bytes to insert, delete or substitute that makes one key of another. -/
def leastSteps (a b : String) : Nat := leastEdits (Utf8.ofString a) (Utf8.ofString b)

/-- Whether a key is near enough to be suggested for another, nearest among the known keys, and in front of all that are
as near. -/
structure IsNearest (key candidate : String) : Prop where
  known : candidate ∈ knownKeys
  near : leastSteps key candidate ≤ 2
  nearest : ∀ other ∈ knownKeys, leastSteps key candidate ≤ leastSteps key other
  first : ∀ other ∈ knownKeys, leastSteps key other = leastSteps key candidate →
    knownKeys.idxOf candidate ≤ knownKeys.idxOf other

theorem distance_eq_leastSteps (a b : String) : distance a b = leastSteps a b := by
  unfold distance
  split
  · rename_i h
    rw [h]
    exact (leastEdits_self _).symm
  · exact editDistance_eq_leastEdits _ _

/-- The nearer of two keys at a time is the nearest of all, the first one where several are. -/
theorem foldl_nearer (key : String) (candidates : List String) :
    candidates.foldl (nearer key) none = candidates.argmin (leastSteps key) := by
  have hnearer : nearer key = List.argAux fun b c => leastSteps key b < leastSteps key c := by
    funext best candidate
    cases best with
    | none => rfl
    | some best => simp only [nearer, distance_eq_leastSteps, List.argAux]
  rw [hnearer, List.argmin]

theorem suggestion?_eq_some_iff {key candidate : String} :
    suggestion? key = some candidate ↔ IsNearest key candidate := by
  rw [suggestion?, foldl_nearer, Option.filter_eq_some_iff, List.argmin_eq_some_iff, decide_eq_true_eq,
    distance_eq_leastSteps]
  constructor
  · rintro ⟨⟨known, nearest, first⟩, near⟩
    exact ⟨known, near, nearest, fun other hother heq => first other hother heq.le⟩
  · rintro ⟨known, near, nearest, first⟩
    exact ⟨⟨known, nearest, fun other hother hle => first other hother (hle.antisymm (nearest other hother))⟩, near⟩

theorem exists_isNearest_iff {key : String} :
    (∃ candidate, IsNearest key candidate) ↔ ∃ other ∈ knownKeys, leastSteps key other ≤ 2 := by
  constructor
  · rintro ⟨candidate, h⟩
    exact ⟨candidate, h.known, h.near⟩
  · rintro ⟨other, hother, hnear⟩
    cases hbest : knownKeys.argmin (leastSteps key) with
    | none => exact absurd (List.argmin_eq_none.1 hbest) (List.ne_nil_of_mem hother)
    | some best =>
      have hle : leastSteps key best ≤ leastSteps key other := List.le_of_mem_argmin hother hbest
      refine ⟨best, suggestion?_eq_some_iff.1 ?_⟩
      rw [suggestion?, foldl_nearer, hbest, Option.filter_some, if_pos]
      rw [distance_eq_leastSteps]
      exact decide_eq_true (hle.trans hnear)

/-- The distance of two keys is the recursive edit distance of their bytes. A key is suggested exactly if it is known, at
most two steps away and the first of the nearest; and something is suggested exactly if some known key is that near. -/
theorem suggestion_is_nearest (key : String) :
    (∀ a b : String, distance a b = leastEdits (Utf8.ofString a) (Utf8.ofString b)) ∧
      (∀ candidate, suggestion? key = some candidate ↔ IsNearest key candidate) ∧
      ((suggestion? key).isSome ↔ ∃ other ∈ knownKeys, leastSteps key other ≤ 2) := by
  refine ⟨distance_eq_leastSteps, fun candidate => suggestion?_eq_some_iff, ?_⟩
  rw [Option.isSome_iff_exists, ← exists_isNearest_iff]
  exact exists_congr fun candidate => suggestion?_eq_some_iff

/-- Both `paths` and `cache` are two steps away from `cathx`. -/
example : suggestion? "cathx" = some "paths" ∧ suggestion? "unrelated" = none := by decide +kernel

end StyleTrack.Config
