/-
The spelling of cleaned paths. A cleaned path is spelled the one way that its components have, so two
cleaned paths that are the same path are spelled alike.
-/
import StyleTrack.Path.Clean
import StyleTrack.Proofs.Text.Joined

namespace StyleTrack.Path

open Component (slash dot)
open Text (notMem_of_mem_splitOn)

/-! ## Components that are written as they are read -/

/-- Whether a component can stand anywhere in a path: `..`, or a name that a segment can spell. -/
def Inner : Component → Prop
  | .parent => True
  | .name bytes => bytes ≠ [] ∧ bytes ≠ [dot] ∧ bytes ≠ [dot, dot] ∧ slash ∉ bytes
  | _ => False

theorem inner_of_ofSegment {segment : List UInt8} {c : Component} (hslash : slash ∉ segment)
    (h : Component.ofSegment segment = some c) : Inner c := by
  unfold Component.ofSegment at h
  split at h
  · cases h
  · rename_i hne
    simp only [not_or] at hne
    split at h
    · cases h; trivial
    · rename_i hparent
      cases h
      exact ⟨hne.1, hne.2, hparent, hslash⟩

theorem Inner.slash_not_mem {c : Component} (h : Inner c) : slash ∉ c.text := by
  cases c with
  | root => cases h
  | current => cases h
  | parent => decide
  | name bytes => exact h.2.2.2

theorem Inner.ofSegment_text {c : Component} (h : Inner c) : Component.ofSegment c.text = some c := by
  cases c with
  | root => cases h
  | current => cases h
  | parent => rfl
  | name bytes =>
    obtain ⟨h1, h2, h3, -⟩ := h
    simp [Component.ofSegment, Component.text, h1, h2, h3]

theorem Inner.text_ne {c : Component} (h : Inner c) : c.text ≠ [] ∧ c.text ≠ [dot] := by
  cases c with
  | root => cases h
  | current => cases h
  | parent => decide
  | name bytes => exact ⟨h.1, h.2.1⟩

theorem inner_of_mem_body {p : Path} {c : Component} (h : c ∈ p.segments.filterMap Component.ofSegment) :
    Inner c := by
  obtain ⟨segment, hmem, hc⟩ := List.mem_filterMap.1 h
  exact inner_of_ofSegment (notMem_of_mem_splitOn hmem) hc

/-! ## Reading what was written -/

theorem splitOn_joinComponents {cs : List Component} (hcs : ∀ c ∈ cs, Inner c) (hne : cs ≠ []) :
    (joinComponents cs).splitOn slash = cs.map Component.text := by
  refine List.splitOn_intercalate slash (fun l hl => ?_) (by simpa using hne)
  obtain ⟨c, hc, rfl⟩ := List.mem_map.1 hl
  exact (hcs c hc).slash_not_mem

theorem splitOn_slash_cons (bytes : List UInt8) :
    (slash :: bytes).splitOn slash = [] :: bytes.splitOn slash := by
  rw [List.splitOn_cons_eq_if_modifyHead, beq_self_eq_true, if_pos rfl]

theorem filterMap_ofSegment_text {cs : List Component} (hcs : ∀ c ∈ cs, Inner c) :
    (cs.map Component.text).filterMap Component.ofSegment = cs := by
  induction cs with
  | nil => rfl
  | cons c cs ih =>
    simp only [List.map_cons, List.filterMap_cons, (hcs c List.mem_cons_self).ofSegment_text]
    rw [ih fun c hc => hcs c (List.mem_cons_of_mem _ hc)]

theorem filterMap_ofSegment_splitOn {cs : List Component} (hcs : ∀ c ∈ cs, Inner c) :
    ((joinComponents cs).splitOn slash).filterMap Component.ofSegment = cs := by
  by_cases hne : cs = []
  · subst hne; rfl
  · rw [splitOn_joinComponents hcs hne, filterMap_ofSegment_text hcs]

theorem ofComponents_relative {cs : List Component} (hcs : ∀ c ∈ cs, Inner c) : ofComponents cs = ⟨joinComponents cs⟩ := by
  unfold ofComponents
  split
  · cases hcs .root List.mem_cons_self
  · rfl

theorem components_ofComponents_relative {cs : List Component} (hcs : ∀ c ∈ cs, Inner c) :
    (⟨joinComponents cs⟩ : Path).components = cs := by
  cases cs with
  | nil => rfl
  | cons c cs =>
    have hc := hcs c List.mem_cons_self
    have habs : (⟨joinComponents (c :: cs)⟩ : Path).isAbsolute = false := by
      -- a separator at the start would make the first segment empty, but a component is not
      refine Bool.eq_false_iff.2 fun habs => ?_
      cases hb : joinComponents (c :: cs) with
      | nil => simp [isAbsolute, hb] at habs
      | cons b bytes =>
        have hslash : b = slash := by simpa [isAbsolute, hb] using habs
        have hsplit := splitOn_joinComponents hcs (List.cons_ne_nil c cs)
        rw [hb, hslash, splitOn_slash_cons, List.map_cons] at hsplit
        exact hc.text_ne.1 (List.cons.inj hsplit).1.symm
    have hcur : (⟨joinComponents (c :: cs)⟩ : Path).startsCurrent = false := by
      simp [startsCurrent, segments, splitOn_joinComponents hcs, hc.text_ne.2]
    simp only [components, habs, hcur, Bool.false_eq_true, if_false]
    exact filterMap_ofSegment_splitOn hcs

theorem components_ofComponents_absolute {cs : List Component} (hcs : ∀ c ∈ cs, Inner c) :
    (⟨slash :: joinComponents cs⟩ : Path).components = .root :: cs := by
  simp only [components, isAbsolute, List.head?_cons, beq_self_eq_true, if_true, segments, splitOn_slash_cons,
    List.filterMap_cons]
  rw [filterMap_ofSegment_splitOn hcs]
  rfl

/-! ## Folding -/

/-- The stack that cleaning builds: inner components above at most the root. -/
def CleanStack (stack : List Component) : Prop :=
  ∃ inner below, stack = inner ++ below ∧ (∀ c ∈ inner, Inner c) ∧ (below = [] ∨ below = [.root])

/-- One more component keeps the stack clean, unless it is the root, which starts a new one. -/
theorem CleanStack.step {stack : List Component} (h : CleanStack stack) {c : Component}
    (hc : Inner c ∨ c = .current) : CleanStack (cleanStep stack c) := by
  obtain ⟨inner, below, rfl, hinner, hbelow⟩ := h
  rcases hc with hc | rfl
  · cases c with
    | root => cases hc
    | current => cases hc
    | name bytes => exact ⟨.name bytes :: inner, below, rfl, by simpa using ⟨hc, hinner⟩, hbelow⟩
    | parent =>
      cases inner with
      | nil =>
        rcases hbelow with rfl | rfl
        · exact ⟨[.parent], [], rfl, by simpa using hc, .inl rfl⟩
        · exact ⟨[], [.root], rfl, by simp, .inr rfl⟩
      | cons top inner =>
        have hrest : ∀ c ∈ inner, Inner c := fun c hc => hinner c (List.mem_cons_of_mem _ hc)
        cases top with
        | root => cases hinner _ List.mem_cons_self
        | current => cases hinner _ List.mem_cons_self
        | name bytes => exact ⟨inner, below, rfl, hrest, hbelow⟩
        | parent => exact ⟨.parent :: .parent :: inner, below, rfl, by simpa using ⟨hc, hrest⟩, hbelow⟩
  · exact ⟨inner, below, rfl, hinner, hbelow⟩

theorem cleanStack_foldl {cs stack : List Component} (hcs : ∀ c ∈ cs, Inner c ∨ c = .current)
    (h : CleanStack stack) : CleanStack (cs.foldl cleanStep stack) := by
  induction cs generalizing stack with
  | nil => exact h
  | cons c cs ih =>
    exact ih (fun c hc => hcs c (List.mem_cons_of_mem _ hc)) (h.step (hcs c List.mem_cons_self))

theorem cleanStack_components (p : Path) : CleanStack (p.components.foldl cleanStep []) := by
  have hbody : ∀ c ∈ p.segments.filterMap Component.ofSegment, Inner c ∨ c = .current :=
    fun c hc => .inl (inner_of_mem_body hc)
  have hempty : CleanStack [] := ⟨[], [], rfl, by simp, .inl rfl⟩
  unfold components
  dsimp only
  split
  · rw [List.foldl_cons]
    exact cleanStack_foldl hbody ⟨[], [.root], rfl, by simp, .inr rfl⟩
  · split
    · rw [List.foldl_cons]
      exact cleanStack_foldl hbody hempty
    · exact cleanStack_foldl hbody hempty

/-- Reading a cleaned path gives the components that were folded. -/
theorem components_clean (p : Path) : p.clean.components = cleanComponents p.components := by
  obtain ⟨inner, below, heq, hinner, hbelow⟩ := cleanStack_components p
  have hinner' : ∀ c ∈ inner.reverse, Inner c := fun c hc => hinner c (List.mem_reverse.1 hc)
  unfold clean cleanComponents
  rw [heq, List.reverse_append]
  rcases hbelow with rfl | rfl
  · simpa [ofComponents_relative hinner'] using components_ofComponents_relative hinner'
  · exact components_ofComponents_absolute hinner'

/-- Two cleaned paths that are the same path are spelled alike. -/
theorem eq_of_clean {p q : Path} (h : p.clean.components = q.clean.components) : p.clean = q.clean := by
  rw [components_clean, components_clean] at h
  rw [clean, clean, h]

/-! ## Cleaning again -/

/-- Whether a stack is what folding its own components leaves. -/
def Settled (stack : List Component) : Prop := stack.reverse.foldl cleanStep [] = stack

theorem settled_cons_iff {stack : List Component} {c : Component} :
    Settled (c :: stack) ↔ cleanStep (stack.reverse.foldl cleanStep []) c = c :: stack := by
  rw [Settled, List.reverse_cons, List.foldl_append, List.foldl_cons, List.foldl_nil]

theorem Settled.cons {stack : List Component} (h : Settled stack) {c : Component} (hc : cleanStep stack c = c :: stack) :
    Settled (c :: stack) := by
  rw [settled_cons_iff, h, hc]

/-- A name on a settled stack stands on a settled stack. -/
theorem Settled.of_name {stack : List Component} {bytes : List UInt8} (h : Settled (.name bytes :: stack)) :
    Settled stack := (List.cons.inj (settled_cons_iff.1 h)).2

theorem Settled.step {stack : List Component} (h : Settled stack) (c : Component) : Settled (cleanStep stack c) := by
  cases c with
  | current => exact h
  | root => rfl
  | name bytes => exact h.cons rfl
  | parent =>
    match stack with
    | .name _ :: _ => exact h.of_name
    | .root :: _ => exact h
    | .parent :: _ => exact h.cons rfl
    | .current :: _ => exact h.cons rfl
    | [] => rfl

theorem Settled.foldl {stack : List Component} (h : Settled stack) (cs : List Component) :
    Settled (cs.foldl cleanStep stack) := by
  induction cs generalizing stack with
  | nil => exact h
  | cons c cs ih => exact ih (h.step c)

/-- A cleaned path stays as it is when it is cleaned again. -/
theorem clean_clean (p : Path) : p.clean.clean = p.clean := by
  have hempty : Settled [] := rfl
  have hsettled : Settled (p.components.foldl cleanStep []) := hempty.foldl _
  have hagain : cleanComponents (cleanComponents p.components) = cleanComponents p.components :=
    congrArg List.reverse hsettled
  rw [clean, components_clean, hagain, clean]

theorem clean_congr {p q : Path} (h : p.components = q.components) : p.clean = q.clean := by
  rw [clean, clean, h]

end StyleTrack.Path
