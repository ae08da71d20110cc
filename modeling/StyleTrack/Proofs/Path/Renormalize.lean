/-
The normalized text of a path, read as a path again. It is the spelling of the cleaned path where the path is UTF-8 and
has no backslashes. A backslash in a name becomes a separator only after the folding, so that the text may hold what
could be folded, and then normalizing the text changes it.
-/
import StyleTrack.Proofs.Path.Normal

namespace StyleTrack.Path

open Component (slash dot)
open Text (mem_of_mem_intercalate notMem_of_mem_splitOn splitOn_intercalate_eq_flatMap)
open Text.Utf8

variable {p : Path}

/-! ## Text and bytes between separators -/

theorem encode_intercalate (l : List (List Char)) :
    encode (['/'].intercalate l) = [slash].intercalate (l.map encode) := by
  induction l with
  | nil => rfl
  | cons s l ih =>
    by_cases hnil : l = []
    · rw [hnil]
      simp
    · rw [List.map_cons, List.intercalate_cons_of_ne_nil hnil, List.intercalate_cons_of_ne_nil (by simpa using hnil),
        encode_append, encode_append, ih]
      rfl

/-- The segments of a text in bytes are its segments as text. -/
theorem splitOn_encode (s : List Char) : (encode s).splitOn slash = (s.splitOn '/').map encode := by
  have hwhole : ['/'].intercalate (s.splitOn '/') = s := List.intercalate_splitOn '/'
  conv_lhs => rw [← hwhole, encode_intercalate]
  refine List.splitOn_intercalate slash (fun bytes hbytes => ?_) (by simp)
  obtain ⟨t, ht, rfl⟩ := List.mem_map.1 hbytes
  exact fun hmem => notMem_of_mem_splitOn ht ((mem_encode_iff (d := '/') (by decide)).1 hmem)

/-! ## The text of what is left -/

/-- The text of what is left of a path, which is empty if nothing is left. -/
def Remains.text (r : Remains) : List Char :=
  (if r.rooted then ['/'] else []) ++ ['/'].intercalate (r.parts.map String.toList)

theorem normalize_of_remains {r : Remains} (hrooted : r.rooted = p.isAbsolute)
    (hparts : (p.components.foldl (normalizeStep p.isAbsolute) []).reverse = r.parts) :
    p.normalize = if r.text = [] then "." else String.ofList r.text := by
  have htext : (if p.isAbsolute then "/" else "") ++ "/".intercalate r.parts = String.ofList r.text := by
    rw [← String.toList_inj, String.toList_append, String.toList_intercalate, Remains.text, hrooted]
    cases p.isAbsolute <;> simp
  unfold normalize
  dsimp only
  rw [hparts, htext]
  simp [String.isEmpty_iff]

/-- The spelling of what is left, where the names are rendered as they are. -/
theorem Remains.encode_text {r : Remains} (h : ∀ bytes ∈ r.names, encode (renderName bytes).toList = bytes) :
    encode r.text = (ofComponents r.components).bytes := by
  have hparts : (r.parts.map String.toList).map encode = r.steps.map Component.text := by
    have hnames : (r.names.map renderName).map (fun s => encode s.toList) = r.names := by
      rw [List.map_map]
      exact (List.map_congr_left h).trans (List.map_id' _)
    rw [Remains.map_text_steps, List.map_map, parts, List.map_append, List.map_replicate]
    exact congrArg _ hnames
  rw [text, encode_append, encode_intercalate, hparts, ofComponents_components]
  cases r.rooted <;> rfl

/-! ## Paths that are UTF-8 -/

/-- The names of a path that is UTF-8 and has no backslashes are rendered as they are. -/
theorem encode_renderName_of_mem {s : String} (hs : p.toString? = some s) (hplain : backslash ∉ p.bytes)
    {bytes : List UInt8} (hmem : .name bytes ∈ p.components) : encode (renderName bytes).toList = bytes := by
  have hbytes : p.bytes = encode s.toList := toString?_eq_some_iff.1 hs
  have hsegment : bytes ∈ p.segments := mem_segments_of_name_mem hmem
  rw [segments, hbytes, splitOn_encode] at hsegment
  obtain ⟨t, -, rfl⟩ := List.mem_map.1 hsegment
  rw [renderName_of_plain (plain_of_name_mem hplain hmem), toStringLossy, String.toList_ofList,
    decodeLossy_of_decode (decode_encode t)]

theorem ofString_normalize {s : String} (hs : p.toString? = some s) (hplain : backslash ∉ p.bytes) :
    ofString p.normalize = if p.clean = empty then ofString "." else p.clean := by
  obtain ⟨r, hrooted, hclean, hparts, hnames⟩ := exists_remains p
  have hspell : p.clean = ⟨encode r.text⟩ := by
    rw [clean, hclean, Remains.encode_text fun bytes hb => encode_renderName_of_mem hs hplain (hnames bytes hb)]
  have hempty : p.clean = empty ↔ r.text = [] := by
    rw [hspell, empty, Path.mk.injEq]
    exact ⟨fun h => encode_injective (t := []) h, fun h => h ▸ rfl⟩
  rw [normalize_of_remains hrooted hparts]
  by_cases hnil : r.text = []
  · rw [if_pos hnil, if_pos (hempty.2 hnil)]
  · rw [if_neg hnil, if_neg fun h => hnil (hempty.1 h), hspell, ofString, Text.Utf8.ofString, String.toList_ofList]

/-- Cleaned and normalized paths agree: the normalized text of a path that is UTF-8 and has no backslashes is the
spelling of its cleaned path, or `.` for the empty one. Cleaning a path again leaves it as it is, and what it leaves is
in normal form. -/
theorem clean_agrees (p : Path) :
    (∀ s, p.toString? = some s → backslash ∉ p.bytes →
      ofString p.normalize = if p.clean = empty then ofString "." else p.clean) ∧
    p.clean.clean = p.clean ∧ IsNormal p.clean :=
  ⟨fun _ => ofString_normalize, clean_clean p, clean_eq_self_iff.1 (clean_clean p)⟩

/-- A path that climbs above its start, cleaned and normalized. -/
theorem clean_agrees_climbing :
    ofString (ofString "../a/.././../b/").normalize = ofString "../../b" ∧
      (ofString "../a/.././../b/").clean = ofString "../../b" := by
  have hclean : (ofString "../a/.././../b/").clean = ofString "../../b" := by decide +kernel
  have hagree := (clean_agrees (ofString "../a/.././../b/")).1 "../a/.././../b/" (by decide +kernel) (by decide +kernel)
  rw [hclean] at hagree
  exact ⟨hagree.trans (if_neg (by decide)), hclean⟩

/-! ## Normalizing again -/

/-- The pieces that a component is rendered as: a backslash cuts a name in two. -/
def pieces : Component → List (List Char)
  | .root => [[]]
  | .current => [['.']]
  | .parent => [['.', '.']]
  | .name bytes => (decodeLossy bytes).splitOn '\\'

theorem splitOn_replace {s : List Char} (h : '/' ∉ s) :
    (s.map fun c => if c = '\\' then '/' else c).splitOn '/' = s.splitOn '\\' := by
  induction s with
  | nil => rfl
  | cons c s ih =>
    have hs : '/' ∉ s := fun hmem => h (List.mem_cons_of_mem _ hmem)
    have hc : c ≠ '/' := fun heq => h (heq ▸ List.mem_cons_self)
    rw [List.map_cons, List.splitOn_cons_eq_if_modifyHead, List.splitOn_cons_eq_if_modifyHead, ih hs]
    by_cases hcut : c = '\\'
    · simp [hcut]
    · simp [hcut, hc]

theorem splitOn_renderName {bytes : List UInt8} (h : Inner (.name bytes)) :
    (renderName bytes).toList.splitOn '/' = pieces (.name bytes) := by
  have hslash : '/' ∉ decodeLossy bytes := by
    intro hmem
    rcases mem_decodeLossy hmem with hbad | hsub
    · cases hbad
    · exact h.slash_not_mem (hsub (by decide))
  rw [renderName, String.toList_ofList, splitOn_replace hslash, pieces]

namespace Remains

variable {r : Remains}

theorem flatMap_pieces_components (r : Remains) : r.components.flatMap pieces = (if r.rooted then [[]] else []) ++
    (r.parts.map String.toList).flatMap fun s => s.splitOn '/' := by
  have hnames : r.names.flatMap (fun bytes => (renderName bytes).toList.splitOn '/') =
      r.names.flatMap fun bytes => pieces (.name bytes) :=
    List.flatMap_congr fun bytes hb => splitOn_renderName (r.spelled bytes hb)
  have hclimbs : (List.replicate r.climbs "..").flatMap (fun s => s.toList.splitOn '/') =
      (List.replicate r.climbs Component.parent).flatMap pieces := by
    induction r.climbs with
    | zero => rfl
    | succ n ih =>
      rw [List.replicate_succ, List.replicate_succ, List.flatMap_cons, List.flatMap_cons, ih]
      rfl
  rw [components, parts, List.flatMap_append, List.flatMap_append, List.flatMap_map, List.flatMap_map,
    List.flatMap_append, List.flatMap_map, hnames, hclimbs]
  cases r.rooted <;> rfl

/-- The segments of the text are the pieces that what is left is rendered as. -/
theorem splitOn_text (hne : r.parts ≠ []) : r.text.splitOn '/' = r.components.flatMap pieces := by
  have hsteps := splitOn_intercalate_eq_flatMap '/' (l := r.parts.map String.toList) (by simpa using hne)
  rw [flatMap_pieces_components, ← hsteps, text]
  cases r.rooted with
  | true => exact List.splitOn_append_cons_self [] _
  | false => rfl

theorem part_ne {part : String} (h : part ∈ r.parts) : part ≠ "" ∧ part ≠ "." := by
  rcases List.mem_append.1 h with h | h
  · rw [List.eq_of_mem_replicate h]
    decide
  · obtain ⟨bytes, hb, rfl⟩ := List.mem_map.1 h
    have hne := renderName_ne (r.spelled bytes hb)
    exact ⟨hne.1, hne.2.1⟩

/-- A text without separators is that of one part. -/
theorem mem_parts_of_text (hne : r.parts ≠ []) (hslash : '/' ∉ r.text) : String.ofList r.text ∈ r.parts := by
  obtain ⟨part, more, hparts⟩ := List.exists_cons_of_ne_nil hne
  rw [text] at hslash ⊢
  cases hrooted : r.rooted with
  | true => simp [hrooted] at hslash
  | false =>
    rw [hrooted, if_neg Bool.false_ne_true, List.nil_append, hparts, List.map_cons] at hslash
    by_cases hnil : more = []
    · simp [hparts, hnil]
    · rw [List.intercalate_cons_of_ne_nil (by simpa using hnil)] at hslash
      simp at hslash

/-- What is left has a text that does not stand for nothing. -/
theorem text_ne (hne : r.parts ≠ []) : r.text ≠ [] ∧ r.text ≠ ['.'] := by
  refine ⟨fun heq => ?_, fun heq => ?_⟩
  · have hmem := mem_parts_of_text hne (by rw [heq]; decide)
    rw [heq] at hmem
    exact (part_ne hmem).1 rfl
  · have hmem := mem_parts_of_text hne (by rw [heq]; decide)
    rw [heq] at hmem
    exact (part_ne hmem).2 rfl

end Remains

/-- Nothing can be folded in a text exactly if nothing can be folded in its bytes. -/
theorem foldless_map_encode_iff {segments : List (List Char)} :
    Foldless dot (segments.map encode) ↔ Foldless '.' segments := by
  have hnil : ∀ s, encode s = [] ↔ s = [] := fun s => ⟨fun h => encode_injective (t := []) h, congrArg encode⟩
  have hdot : ∀ s, encode s = [dot] ↔ s = ['.'] := fun s => ⟨fun h => encode_injective (t := ['.']) h, congrArg encode⟩
  have hparent : ∀ s, encode s = [dot, dot] ↔ s = ['.', '.'] := fun s =>
    ⟨fun h => encode_injective (t := ['.', '.']) h, congrArg encode⟩
  have hfront : ∀ front : List (List Char), (front.map encode = [[]] ∨ ∀ s ∈ front.map encode, s = [dot, dot]) ↔
      (front = [[]] ∨ ∀ s ∈ front, s = ['.', '.']) := by
    intro front
    simp only [List.map_eq_singleton_iff, List.forall_mem_map, hparent, hnil, exists_eq_right]
  have hnames : ∀ names : List (List Char), (∀ s ∈ names.map encode, s ≠ [] ∧ s ≠ [dot] ∧ s ≠ [dot, dot]) ↔
      ∀ s ∈ names, s ≠ [] ∧ s ≠ ['.'] ∧ s ≠ ['.', '.'] := by
    intro names
    simp only [List.forall_mem_map, ne_eq, hnil, hdot, hparent]
  have hroot : segments.map encode = [[], []] ↔ segments = [[], []] := by
    constructor
    · exact fun h => List.map_injective_iff.2 (fun _ _ => encode_injective) h
    · rintro rfl
      rfl
  refine or_congr hroot ⟨?_, ?_⟩
  · rintro ⟨front, names, hsegments, hfolded, hnamed⟩
    obtain ⟨front, names, rfl, rfl, rfl⟩ := List.map_eq_append_iff.1 hsegments
    exact ⟨front, names, rfl, (hfront front).1 hfolded, (hnames names).1 hnamed⟩
  · rintro ⟨front, names, rfl, hfolded, hnamed⟩
    exact ⟨front.map encode, names.map encode, List.map_append, (hfront front).2 hfolded, (hnames names).2 hnamed⟩

/-- What is left is written with slashes only, so that its text is UTF-8 without backslashes. -/
theorem Remains.backslash_notMem_text (r : Remains) : '\\' ∉ r.text := by
  have hpart : ∀ part ∈ r.parts, '\\' ∉ part.toList := by
    intro part hpart
    rcases List.mem_append.1 hpart with h | h
    · rw [List.eq_of_mem_replicate h]
      decide
    · obtain ⟨bytes, -, rfl⟩ := List.mem_map.1 h
      rw [renderName, String.toList_ofList]
      intro hmem
      obtain ⟨c, -, hc⟩ := List.mem_map.1 hmem
      split_ifs at hc with heq
      · exact absurd hc (by decide)
      · exact heq hc
  intro hmem
  rw [text] at hmem
  rcases List.mem_append.1 hmem with h | h
  · cases hrooted : r.rooted <;> simp [hrooted] at h
  · rcases mem_of_mem_intercalate h with h | ⟨s, hs, h⟩
    · simp at h
    · obtain ⟨part, hmem, rfl⟩ := List.mem_map.1 hs
      exact hpart part hmem h

theorem ofString_inj {s t : String} : ofString s = ofString t ↔ s = t :=
  ⟨fun h => Text.Utf8.ofString_injective (congrArg Path.bytes h), congrArg ofString⟩

theorem bytes_ofString (s : List Char) : (ofString (String.ofList s)).bytes = encode s := by
  rw [ofString, Text.Utf8.ofString, String.toList_ofList]

/-- A text that stands for something is normalized again to itself exactly if it is in normal form, which is to say that
nothing can be folded in the pieces it was rendered from. -/
theorem normalize_text_iff {r : Remains} (hne : r.parts ≠ []) :
    ((ofString (String.ofList r.text)).normalize = String.ofList r.text ↔ IsNormal (ofString (String.ofList r.text))) ∧
      (IsNormal (ofString (String.ofList r.text)) ↔ Foldless '.' (r.components.flatMap pieces)) := by
  obtain ⟨hnil, hdot⟩ := Remains.text_ne hne
  have hempty : ofString (String.ofList r.text) ≠ ofString "" := fun heq =>
    hnil (String.ofList_injective (ofString_inj.1 heq))
  have hcurrent : ofString (String.ofList r.text) ≠ ofString "." := fun heq =>
    hdot (String.ofList_injective (ofString_inj.1 heq))
  have hplain : backslash ∉ (ofString (String.ofList r.text)).bytes := by
    rw [bytes_ofString]
    exact fun hmem => r.backslash_notMem_text ((mem_encode_iff (d := '\\') (by decide)).1 hmem)
  have hagain := ofString_normalize (p := ofString (String.ofList r.text)) (toString?_eq_some_iff.2 rfl) hplain
  have hclean : (ofString (String.ofList r.text)).normalize = String.ofList r.text ↔
      (ofString (String.ofList r.text)).clean = ofString (String.ofList r.text) := by
    rw [← ofString_inj, hagain]
    split_ifs with h
    · rw [h]
      exact iff_of_false hcurrent.symm hempty.symm
    · rfl
  have hsegments : (ofString (String.ofList r.text)).segments = (r.components.flatMap pieces).map encode := by
    rw [segments, bytes_ofString, splitOn_encode, Remains.splitOn_text hne]
  refine ⟨hclean.trans clean_eq_self_iff, clean_eq_self_iff.symm.trans ?_⟩
  rw [clean_eq_self_iff_foldless, hsegments, foldless_map_encode_iff]

theorem Plain.pieces_eq {bytes : List UInt8} (h : Plain (.name bytes)) : pieces (.name bytes) = [decodeLossy bytes] :=
  List.splitOn_eq_singleton h.backslash_notMem

/-- Names without backslashes are rendered in one piece, which cannot be folded. -/
theorem Remains.foldless_pieces {r : Remains} (h : ∀ bytes ∈ r.names, Plain (.name bytes)) :
    Foldless '.' (r.components.flatMap pieces) := by
  have hpieces : (r.names.map Component.name).flatMap pieces = r.names.map decodeLossy := by
    rw [List.flatMap_map, List.map_eq_flatMap]
    exact List.flatMap_congr fun bytes hb => (h bytes hb).pieces_eq
  have hclimbs : (List.replicate r.climbs Component.parent).flatMap pieces = List.replicate r.climbs ['.', '.'] := by
    rw [List.flatMap_replicate]
    simp [pieces, List.flatten_replicate_singleton]
  have hnames : ∀ s ∈ r.names.map decodeLossy, s ≠ [] ∧ s ≠ ['.'] ∧ s ≠ ['.', '.'] := by
    intro s hs
    obtain ⟨bytes, hb, rfl⟩ := List.mem_map.1 hs
    obtain ⟨hempty, hdot, hparent⟩ := renderName_ne (r.spelled bytes hb)
    rw [renderName_of_plain (h bytes hb), toStringLossy] at hempty hdot hparent
    refine ⟨?_, ?_, ?_⟩ <;> intro heq <;> rw [heq] at hempty hdot hparent
    · exact hempty rfl
    · exact hdot rfl
    · exact hparent rfl
  have hfront : (if r.rooted then [Component.root] else []).flatMap pieces ++
      (List.replicate r.climbs Component.parent).flatMap pieces =
        if r.rooted then [[]] else List.replicate r.climbs ['.', '.'] := by
    cases hrooted : r.rooted with
    | true =>
      rw [r.grounded hrooted]
      rfl
    | false => exact hclimbs
  refine .inr ⟨if r.rooted then [[]] else List.replicate r.climbs ['.', '.'], _, ?_, ?_, hnames⟩
  · rw [components, List.flatMap_append, List.flatMap_append, ← List.append_assoc, hfront, hpieces]
  · cases r.rooted with
    | true => exact .inl rfl
    | false => exact .inr fun s hs => List.eq_of_mem_replicate hs

/-- Normalizing a normalized path again leaves it as it is exactly if nothing can be folded in the pieces that are
rendered, where a name has as many pieces as its backslashes cut it into. These are also the paths whose normalized text
is in normal form or `.`, and every path without backslashes is one of them. -/
theorem normalize_again_iff (p : Path) :
    ((ofString p.normalize).normalize = p.normalize ↔ Foldless '.' ((cleanComponents p.components).flatMap pieces)) ∧
    ((ofString p.normalize).normalize = p.normalize ↔ p.normalize = "." ∨ IsNormal (ofString p.normalize)) ∧
    (backslash ∉ p.bytes → (ofString p.normalize).normalize = p.normalize) := by
  obtain ⟨r, hrooted, hclean, hparts, hnames⟩ := exists_remains p
  have hiff : ((ofString p.normalize).normalize = p.normalize ↔
        Foldless '.' ((cleanComponents p.components).flatMap pieces)) ∧
      ((ofString p.normalize).normalize = p.normalize ↔ p.normalize = "." ∨ IsNormal (ofString p.normalize)) := by
    rw [normalize_of_remains hrooted hparts, hclean]
    by_cases hnil : r.parts = []
    · -- Nothing is left behind the root or the start, and there is no name to cut.
      obtain ⟨hclimbs, hnone⟩ : r.climbs = 0 ∧ r.names = [] := by simpa [Remains.parts] using hnil
      have hfoldless : Foldless '.' (r.components.flatMap pieces) := Remains.foldless_pieces (by simp [hnone])
      have htext : r.text = if r.rooted then ['/'] else [] := by simp [Remains.text, hnil]
      rw [htext]
      cases r.rooted with
      | true =>
        have hroot : (ofString "/").normalize = "/" := by decide +kernel
        have hself : (ofString "/").clean = ofString "/" := by decide +kernel
        exact ⟨iff_of_true hroot hfoldless, iff_of_true hroot (.inr (clean_eq_self_iff.1 hself))⟩
      | false =>
        have hstart : (ofString ".").normalize = "." := by decide +kernel
        exact ⟨iff_of_true hstart hfoldless, iff_of_true hstart (.inl rfl)⟩
    · obtain ⟨htext, hdot⟩ := Remains.text_ne hnil
      obtain ⟨hnormal, hpieces⟩ := normalize_text_iff hnil
      have hother : String.ofList r.text ≠ "." := fun heq => hdot (String.ofList_injective heq)
      rw [if_neg htext]
      exact ⟨hnormal.trans hpieces, hnormal.trans (or_iff_right hother).symm⟩
  refine ⟨hiff.1, hiff.2, fun hplain => hiff.1.2 ?_⟩
  rw [hclean]
  exact Remains.foldless_pieces fun bytes hb => plain_of_name_mem hplain (hnames bytes hb)

/-- In `a\..\b` a name is cut into pieces that can be folded, which happens when its text is normalized. -/
theorem normalize_again_iff_cut :
    ((ofString "a\\..\\b").normalize = "a/../b" ∧ (ofString "a/../b").normalize = "b") ∧
      (ofString "a\\..\\b").normalize ≠ "." ∧ ¬ IsNormal (ofString (ofString "a\\..\\b").normalize) ∧
      backslash ∉ (ofString "a/../b").bytes ∧
      (ofString (ofString "a/../b").normalize).normalize = (ofString "a/../b").normalize := by
  have honce : (ofString "a\\..\\b").normalize = "a/../b" := by decide +kernel
  have hagain : (ofString "a/../b").normalize = "b" := by decide +kernel
  have hchanged : (ofString (ofString "a\\..\\b").normalize).normalize ≠ (ofString "a\\..\\b").normalize := by
    rw [honce, hagain]
    decide
  have hplain : backslash ∉ (ofString "a/../b").bytes := by decide +kernel
  have hcut := (normalize_again_iff (ofString "a\\..\\b")).2.1.not.1 hchanged
  rw [not_or] at hcut
  exact ⟨⟨honce, hagain⟩, hcut.1, hcut.2, hplain, (normalize_again_iff (ofString "a/../b")).2.2 hplain⟩

end StyleTrack.Path
