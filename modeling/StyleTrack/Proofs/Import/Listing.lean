/-
What a listing answers: the imports that the processor reports and the resources that each of its units
embeds, every path once. A style sheet that is read from a path is listed by what was read.
-/
import StyleTrack.Proofs.Import.Traced

namespace StyleTrack.Lister

variable {l : Lister}

/-- The units whose embedded resources are listed: those that the processor parsed, or else the root. -/
def units (root : Path) (text : List Char) (processed : Processed) : List SourceUnit :=
  if processed.sources = [] then [⟨root, text⟩] else processed.sources

/-- A text is listed when it was processed and the resources of every unit are known. -/
theorem listText_eq_ok_iff {options : RenderOptions} {root : Path} {text : List Char} {deps : List Path} :
    (l.listText options root text).result = .ok deps ↔
      ∃ processed embedded, l.processor text root options = .ok processed ∧
        List.Forall₂ (fun u found => (l.resources root options.paths u).result = .ok found)
          (units root text processed) embedded ∧
        deps = distinct (processed.imports ++ embedded.flatten) := by
  unfold listText
  simp only [Traced.result_bind, Traced.result_lift, Traced.result_mapM, Traced.result_pure, bind_eq_ok_iff,
    mapError_eq_ok_iff, mapM_eq_ok_iff]
  constructor
  · rintro ⟨processed, hp, embedded, he, hd⟩
    cases hd
    exact ⟨processed, embedded, hp, he, rfl⟩
  · rintro ⟨processed, embedded, hp, he, rfl⟩
    exact ⟨processed, hp, embedded, he, rfl⟩

/-- Contents are listed by the text they decode to; an empty text depends on nothing. -/
theorem list_eq_ok_iff {root : Path} {contents : Contents} {deps : List Path} :
    (l.list (some ⟨some root, some contents⟩)).result = .ok deps ↔
      ∃ text, contents.text = .ok text ∧
        if text = [] then deps = [] else (l.listText l.options root text).result = .ok deps := by
  unfold list listWith
  simp only [Traced.result_bind, Traced.result_lift, bind_eq_ok_iff, mapError_eq_ok_iff]
  constructor
  · rintro ⟨text, ht, h⟩
    refine ⟨text, ht, ?_⟩
    split at h
    · cases h; simp [*]
    · rw [if_neg (by assumption)]; exact h
  · rintro ⟨text, ht, h⟩
    refine ⟨text, ht, ?_⟩
    split at h
    · simp [*]
    · rw [if_neg (by assumption)]; exact h

theorem list_buffer_eq_ok_iff {root : Path} {bytes : List UInt8} {deps : List Path} :
    (l.list (some ⟨some root, some (.buffer bytes)⟩)).result = .ok deps ↔
      ∃ text, Text.Utf8.decode bytes = .ok text ∧
        if text = [] then deps = [] else (l.listText l.options root text).result = .ok deps := by
  have htext : ∀ text, Contents.text (.buffer bytes) = .ok text ↔ Text.Utf8.decode bytes = .ok text := by
    intro text
    exact mapError_eq_ok_iff
  simp only [list_eq_ok_iff, htext]

/-- Listing by path is reading and listing what was read. -/
theorem listPath_eq_ok_iff {path : Path} {deps : List Path} :
    (l.listPath path).result = .ok deps ↔
      ∃ bytes, l.fs.read path = .ok bytes ∧ (l.list (some ⟨some path, some (.buffer bytes)⟩)).result = .ok deps := by
  unfold listPath
  simp only [Traced.result_bind, Traced.result_lift, bind_eq_ok_iff, mapError_eq_ok_iff]

/-- A listing names no path twice. -/
theorem exists_distinct_of_list_buffer {root : Path} {bytes : List UInt8} {deps : List Path}
    (h : (l.list (some ⟨some root, some (.buffer bytes)⟩)).result = .ok deps) : ∃ paths, deps = distinct paths := by
  obtain ⟨text, -, h⟩ := list_buffer_eq_ok_iff.1 h
  split at h
  · exact ⟨[], h⟩
  · obtain ⟨processed, embedded, -, -, h⟩ := listText_eq_ok_iff.1 h
    exact ⟨_, h⟩

end StyleTrack.Lister
