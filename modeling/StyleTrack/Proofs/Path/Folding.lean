/-
What is left of a path when `.` and `..` are folded: whether it starts at the root, how often it climbs above its start,
and the names below that. Folding components and folding parts of text leave the same.
-/
import StyleTrack.Path.Normalize
import StyleTrack.Proofs.Path.Join
import StyleTrack.Proofs.Text.Utf8

namespace StyleTrack.Path

open Component (slash dot)
open Text.Utf8

variable {p : Path}

/-! ## Names that are rendered -/

theorem map_slashes_eq_self {s : List Char} (h : '\\' ∉ s) : s.map (fun c => if c = '\\' then '/' else c) = s := by
  have hkeep : ∀ c ∈ s, (if c = '\\' then '/' else c) = c := by
    intro c hc
    refine if_neg ?_
    rintro rfl
    exact h hc
  rw [List.map_congr_left hkeep, List.map_id']

/-- A name that is rendered without replacements is what it is rendered as. -/
theorem eq_encode_of_renderName {bytes : List UInt8} {s : List Char} (h : renderName bytes = String.ofList s)
    (hvalid : '\uFFFD' ∉ s) (hslash : '/' ∉ s) : bytes = encode s := by
  have hmap : (decodeLossy bytes).map (fun c => if c = '\\' then '/' else c) = s := String.ofList_injective h
  have hplain : '\\' ∉ decodeLossy bytes := fun hmem => hslash (hmap ▸ List.mem_map.2 ⟨'\\', hmem, rfl⟩)
  rw [map_slashes_eq_self hplain] at hmap
  rw [← hmap, encode_decodeLossy (hmap ▸ hvalid)]

theorem renderName_ne {bytes : List UInt8} (h : Inner (.name bytes)) :
    renderName bytes ≠ "" ∧ renderName bytes ≠ "." ∧ renderName bytes ≠ ".." :=
  ⟨fun heq => h.1 (eq_encode_of_renderName (s := []) heq (by decide) (by decide)),
    fun heq => h.2.1 (eq_encode_of_renderName (s := ['.']) heq (by decide) (by decide)),
    fun heq => h.2.2.1 (eq_encode_of_renderName (s := ['.', '.']) heq (by decide) (by decide))⟩

/-! ## What folding leaves -/

/-- What folding leaves of a path. There is nothing above the root to climb to. -/
structure Remains where
  rooted : Bool
  climbs : Nat
  names : List (List UInt8)
  grounded : rooted = true → climbs = 0
  spelled : ∀ bytes ∈ names, Inner (.name bytes)

namespace Remains

def components (r : Remains) : List Component :=
  (if r.rooted then [.root] else []) ++ (List.replicate r.climbs .parent ++ r.names.map .name)

def parts (r : Remains) : List String := List.replicate r.climbs ".." ++ r.names.map renderName

/-- One more component leaves the same of both. -/
theorem step (r : Remains) {c : Component} (hc : Inner c ∨ c = .current) : ∃ r' : Remains, r'.rooted = r.rooted ∧
    cleanStep r.components.reverse c = r'.components.reverse ∧
    normalizeStep r.rooted r.parts.reverse c = r'.parts.reverse ∧
    ∀ bytes ∈ r'.names, bytes ∈ r.names ∨ c = .name bytes := by
  obtain ⟨rooted, climbs, names, grounded, spelled⟩ := r
  cases c with
  | root => simp [Inner] at hc
  | current => exact ⟨⟨rooted, climbs, names, grounded, spelled⟩, rfl, rfl, rfl, fun _ => .inl⟩
  | name bytes =>
    have hname : Inner (.name bytes) := hc.resolve_right (by simp)
    have hspelled : ∀ b ∈ names ++ [bytes], Inner (.name b) := by
      simpa [or_imp, forall_and] using ⟨spelled, hname⟩
    refine ⟨⟨rooted, climbs, names ++ [bytes], grounded, hspelled⟩, rfl, ?_, ?_, by simp [eq_comm]⟩
    · simp [components, cleanStep]
    · simp [parts, normalizeStep]
  | parent =>
    rcases List.eq_nil_or_concat names with rfl | ⟨below, last, rfl⟩
    · -- No name is left to take away: the root stays, a relative path climbs.
      cases rooted with
      | true =>
        obtain rfl : climbs = 0 := grounded rfl
        exact ⟨⟨true, 0, [], grounded, spelled⟩, rfl, rfl, rfl, fun _ => .inl⟩
      | false =>
        refine ⟨⟨false, climbs + 1, [], by simp, spelled⟩, rfl, ?_, ?_, by simp⟩
        · simp only [components, Bool.false_eq_true, if_false, List.map_nil, List.append_nil, List.nil_append,
            List.reverse_replicate]
          cases climbs <;> rfl
        · simp only [parts, List.map_nil, List.append_nil, List.reverse_replicate]
          cases climbs <;> rfl
    · rw [List.concat_eq_append] at *
      have hlast : renderName last ≠ ".." := (renderName_ne (spelled last (by simp))).2.2
      refine ⟨⟨rooted, climbs, below, grounded, fun b hb => spelled b (by simp [hb])⟩, rfl, ?_, ?_, ?_⟩
      · simp [components, cleanStep]
      · simp [parts, normalizeStep, hlast]
      · simp +contextual

theorem foldl (r : Remains) {cs : List Component} (hcs : ∀ c ∈ cs, Inner c ∨ c = .current) : ∃ r' : Remains,
    r'.rooted = r.rooted ∧ cs.foldl cleanStep r.components.reverse = r'.components.reverse ∧
    cs.foldl (normalizeStep r.rooted) r.parts.reverse = r'.parts.reverse ∧
    ∀ bytes ∈ r'.names, bytes ∈ r.names ∨ .name bytes ∈ cs := by
  induction cs generalizing r with
  | nil => exact ⟨r, rfl, rfl, rfl, fun _ => .inl⟩
  | cons c cs ih =>
    obtain ⟨r₁, hrooted, hclean, hparts, hnames⟩ := r.step (hcs c List.mem_cons_self)
    obtain ⟨r₂, hrooted', hclean', hparts', hnames'⟩ := ih r₁ fun c' hc' => hcs c' (List.mem_cons_of_mem _ hc')
    rw [hrooted] at hrooted' hparts'
    refine ⟨r₂, hrooted', by rw [List.foldl_cons, hclean, hclean'], by rw [List.foldl_cons, hparts, hparts'], ?_⟩
    intro bytes hbytes
    rcases hnames' bytes hbytes with h | h
    · exact (hnames bytes h).imp_right fun heq => by simp [heq]
    · exact .inr (List.mem_cons_of_mem _ h)

end Remains

/-- Folding a path as components and as parts of text leaves the same of it, and no name that it did not have. -/
theorem exists_remains (p : Path) : ∃ r : Remains, r.rooted = p.isAbsolute ∧
    cleanComponents p.components = r.components ∧
    (p.components.foldl (normalizeStep p.isAbsolute) []).reverse = r.parts ∧
    ∀ bytes ∈ r.names, .name bytes ∈ p.components := by
  have hbody : ∀ c ∈ p.body, Inner c ∨ c = .current := fun c hc => .inl (inner_of_mem_body hc)
  obtain ⟨r, hrooted, hclean, hparts, hnames⟩ := Remains.foldl ⟨p.isAbsolute, 0, [], fun _ => rfl, by simp⟩ hbody
  have hfold : p.components.foldl cleanStep [] = r.components.reverse ∧
      p.components.foldl (normalizeStep p.isAbsolute) [] = r.parts.reverse := by
    rw [← hclean, ← hparts, components_eq]
    cases p.isAbsolute with
    | true => exact ⟨rfl, rfl⟩
    | false => cases p.startsCurrent <;> exact ⟨rfl, rfl⟩
  refine ⟨r, hrooted, ?_, ?_, fun bytes hb => ?_⟩
  · rw [cleanComponents, hfold.1, List.reverse_reverse]
  · rw [hfold.2, List.reverse_reverse]
  · exact name_mem_components_iff.2 ((hnames bytes hb).resolve_left List.not_mem_nil)

end StyleTrack.Path
