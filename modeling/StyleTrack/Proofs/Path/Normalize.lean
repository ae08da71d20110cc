/-
What the normalized text of an absolute path tells of the path: the names that are left when `.` and `..` are
folded, each as it is displayed, and nothing else. So paths that fold to the same components share their text
and their key, and paths that share it fold to components that are displayed alike. Names that are UTF-8 are
told apart by their display; names that are not may be mistaken for others.
-/
import StyleTrack.Proofs.Path.Folding

namespace StyleTrack

namespace Path

open Component (slash dot)
open Text (subset_of_mem_splitOn)
open Text.Utf8

variable {p : Path}

/-! ## Names that are rendered as they are -/

/-- The byte of `\`. -/
def backslash : UInt8 := 0x5C

/-- Whether a component is rendered as it is displayed. -/
def Plain (c : Component) : Prop := Inner c ∧ backslash ∉ c.text

theorem Plain.backslash_notMem {bytes : List UInt8} (h : Plain (.name bytes)) : '\\' ∉ decodeLossy bytes := by
  intro hmem
  rcases mem_decodeLossy hmem with hbad | hsub
  · cases hbad
  · exact h.2 (hsub (by decide))

theorem renderName_of_plain {bytes : List UInt8} (h : Plain (.name bytes)) :
    renderName bytes = toStringLossy bytes := by
  rw [renderName, map_slashes_eq_self h.backslash_notMem, toStringLossy]

/-- A name that is rendered is a part of its own: not empty, without a separator, and not `..`. -/
theorem renderName_spec {bytes : List UInt8} (h : Plain (.name bytes)) :
    (renderName bytes).toList ≠ [] ∧ '/' ∉ (renderName bytes).toList ∧ renderName bytes ≠ ".." := by
  obtain ⟨hne, -, -, hslash⟩ := h.1
  rw [renderName_of_plain h, toStringLossy, String.toList_ofList]
  refine ⟨decodeLossy_ne_nil hne, fun hmem => ?_, ?_⟩
  · rcases mem_decodeLossy hmem with hbad | hsub
    · cases hbad
    · exact hslash (hsub (by decide))
  · have hparent := (renderName_ne h.1).2.2
    rwa [renderName_of_plain h] at hparent

/-! ## The names that are left -/

theorem plain_of_name_mem (hplain : backslash ∉ p.bytes) {bytes : List UInt8} (h : .name bytes ∈ p.components) :
    Plain (.name bytes) :=
  ⟨inner_of_mem_body (name_mem_components_iff.1 h),
    fun hmem => hplain (subset_of_mem_splitOn (mem_segments_of_name_mem h) hmem)⟩

/-- The normalized text of an absolute path is made of the names that are left. -/
theorem normalize_of_isAbsolute (habs : p.isAbsolute = true) (hplain : backslash ∉ p.bytes) :
    ∃ kept : List (List UInt8), (∀ bytes ∈ kept, Plain (.name bytes)) ∧
      cleanComponents p.components = .root :: kept.map .name ∧
      p.normalize = "/" ++ "/".intercalate (kept.map renderName) := by
  obtain ⟨r, hrooted, hclean, hparts, hnames⟩ := exists_remains p
  have hclimbs : r.climbs = 0 := r.grounded (hrooted.trans habs)
  refine ⟨r.names, fun bytes hb => plain_of_name_mem hplain (hnames bytes hb), ?_, ?_⟩
  · simp [hclean, Remains.components, hrooted, habs, hclimbs]
  · unfold normalize
    dsimp only
    rw [hparts, if_pos habs, if_neg (by simp [String.isEmpty_iff]), Remains.parts, hclimbs]
    rfl

/-! ## Telling paths apart -/

/-- Parts that are not empty and hold no separator are read off the text that they are joined to. -/
theorem eq_of_intercalate_eq {parts parts' : List String}
    (hparts : ∀ s ∈ parts, s.toList ≠ [] ∧ '/' ∉ s.toList) (hparts' : ∀ s ∈ parts', s.toList ≠ [] ∧ '/' ∉ s.toList)
    (h : "/".intercalate parts = "/".intercalate parts') : parts = parts' := by
  have hread : ∀ l : List String, (∀ s ∈ l, s.toList ≠ [] ∧ '/' ∉ s.toList) →
      (("/".intercalate l).toList.splitOn '/').filter (· ≠ []) = l.map String.toList := by
    intro l hl
    rw [String.toList_intercalate]
    by_cases hnil : l = []
    · subst hnil; rfl
    · have hsplit : (['/'].intercalate (l.map String.toList)).splitOn '/' = l.map String.toList := by
        refine List.splitOn_intercalate '/' (fun cs hcs => ?_) (by simpa using hnil)
        obtain ⟨s, hs, rfl⟩ := List.mem_map.1 hcs
        exact (hl s hs).2
      refine Eq.trans (congrArg (List.filter _) hsplit) (List.filter_eq_self.2 fun cs hcs => ?_)
      obtain ⟨s, hs, rfl⟩ := List.mem_map.1 hcs
      exact decide_eq_true (hl s hs).1
  have hmap : parts.map String.toList = parts'.map String.toList := by
    rw [← hread parts hparts, ← hread parts' hparts', h]
  exact List.map_injective_iff.2 (fun _ _ => String.toList_inj.1) hmap

theorem isAbsolute_join {base : Path} (habs : base.isAbsolute = true) (p : Path) : (base.join p).isAbsolute = true := by
  unfold join
  split_ifs with hp hlast
  · exact hp
  · rcases base with ⟨_ | ⟨b, bytes⟩⟩
    · cases habs
    · exact habs
  · rcases base with ⟨_ | ⟨b, bytes⟩⟩
    · cases habs
    · exact habs

theorem normalizeIn_eq (base p : Path) : p.normalizeIn base = (base.join p).normalize := by
  unfold normalizeIn
  split_ifs with hp
  · rw [join, if_pos hp]
  · rfl

theorem backslash_not_mem_join {base : Path} (hbase : backslash ∉ base.bytes) (hp : backslash ∉ p.bytes) :
    backslash ∉ (base.join p).bytes := by
  have hslash : backslash ≠ slash := by decide
  unfold join
  split_ifs <;> simp [hbase, hp, hslash]

/-- What is displayed of the components that are left of a root, taken relative to a base. -/
def shown (base root : Path) : List (List Char) :=
  (cleanComponents (base.join root).components).map fun c => decodeLossy c.text

/-- Two roots share their normalized text exactly if the components that are left of them are displayed alike. -/
theorem normalizeIn_eq_iff {base a b : Path} (habs : base.isAbsolute = true) (hbase : backslash ∉ base.bytes)
    (ha : backslash ∉ a.bytes) (hb : backslash ∉ b.bytes) :
    a.normalizeIn base = b.normalizeIn base ↔ shown base a = shown base b := by
  obtain ⟨kept, hkept, hclean, hnormal⟩ :=
    normalize_of_isAbsolute (isAbsolute_join habs a) (backslash_not_mem_join hbase ha)
  obtain ⟨kept', hkept', hclean', hnormal'⟩ :=
    normalize_of_isAbsolute (isAbsolute_join habs b) (backslash_not_mem_join hbase hb)
  have hrender : ∀ l : List (List UInt8), (∀ bytes ∈ l, Plain (.name bytes)) →
      l.map renderName = (l.map decodeLossy).map String.ofList := by
    intro l hl
    rw [List.map_map]
    exact List.map_congr_left fun bytes hbytes => renderName_of_plain (hl bytes hbytes)
  have hparts : ∀ l : List (List UInt8), (∀ bytes ∈ l, Plain (.name bytes)) →
      ∀ s ∈ l.map renderName, s.toList ≠ [] ∧ '/' ∉ s.toList := by
    rintro l hl s hs
    obtain ⟨bytes, hbytes, rfl⟩ := List.mem_map.1 hs
    have hspec := renderName_spec (hl bytes hbytes)
    exact ⟨hspec.1, hspec.2.1⟩
  have hnames : a.normalizeIn base = b.normalizeIn base ↔ kept.map decodeLossy = kept'.map decodeLossy := by
    rw [normalizeIn_eq, normalizeIn_eq, hnormal, hnormal']
    constructor
    · intro h
      have hmap := eq_of_intercalate_eq (hparts kept hkept) (hparts kept' hkept') (String.append_right_inj _ |>.1 h)
      rw [hrender kept hkept, hrender kept' hkept'] at hmap
      exact List.map_injective_iff.2 (fun _ _ => String.ofList_inj.1) hmap
    · intro h
      rw [hrender kept hkept, hrender kept' hkept', h]
  rw [hnames, shown, shown, hclean, hclean', List.map_cons, List.map_cons, List.map_map, List.map_map, List.cons_inj_right]
  rfl

/-- Two names that are no UTF-8, which are both displayed as U+FFFD. -/
theorem normalizeIn_eq_iff_illegible :
    (⟨[slash, 0xFF]⟩ : Path).normalizeIn ⟨[slash]⟩ = (⟨[slash, 0xFE]⟩ : Path).normalizeIn ⟨[slash]⟩ ∧
      cleanComponents ((⟨[slash]⟩ : Path).join ⟨[slash, 0xFF]⟩).components ≠
        cleanComponents ((⟨[slash]⟩ : Path).join ⟨[slash, 0xFE]⟩).components :=
  ⟨(normalizeIn_eq_iff (by decide) (by decide) (by decide) (by decide)).2 (by decide +kernel), by decide⟩

/-- Whether every component that is left of a root, taken relative to a base, is UTF-8. -/
def Legible (base root : Path) : Prop :=
  ∀ c ∈ cleanComponents (base.join root).components, ∃ s, Text.Utf8.toString? c.text = some s

/-- Among legible roots, those that share their normalized text are those that fold to the same components. -/
theorem normalizeIn_eq_iff_of_legible {base a b : Path} (habs : base.isAbsolute = true)
    (hbase : backslash ∉ base.bytes) (ha : backslash ∉ a.bytes) (hb : backslash ∉ b.bytes)
    (hlegible : Legible base a) (hlegible' : Legible base b) : a.normalizeIn base = b.normalizeIn base ↔
      cleanComponents (base.join a).components = cleanComponents (base.join b).components := by
  have htexts : ∀ root, Legible base root →
      (shown base root).map encode = (cleanComponents (base.join root).components).map Component.text := by
    intro root hroot
    rw [shown, List.map_map]
    refine List.map_congr_left fun c hc => ?_
    obtain ⟨s, hs⟩ := hroot c hc
    rw [Function.comp_apply, toString?_eq_some_iff.1 hs, Text.Utf8.ofString, decodeLossy_of_decode (decode_encode _)]
  rw [normalizeIn_eq_iff habs hbase ha hb]
  constructor
  · intro h
    have hmap : (cleanComponents (base.join a).components).map Component.text =
        (cleanComponents (base.join b).components).map Component.text := by
      rw [← htexts a hlegible, ← htexts b hlegible', h]
    obtain ⟨kept, -, hclean, -⟩ :=
      normalize_of_isAbsolute (isAbsolute_join habs a) (backslash_not_mem_join hbase ha)
    obtain ⟨kept', -, hclean', -⟩ :=
      normalize_of_isAbsolute (isAbsolute_join habs b) (backslash_not_mem_join hbase hb)
    rw [hclean, hclean', List.map_cons, List.map_cons, List.map_map, List.map_map, List.cons_inj_right] at hmap
    have hkept : kept = kept' := by simpa [Function.comp_def, Component.text] using hmap
    rw [hclean, hclean', hkept]
  · intro h
    rw [shown, shown, h]

end Path

end StyleTrack
