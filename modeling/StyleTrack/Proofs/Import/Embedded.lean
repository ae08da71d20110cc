/-
What a style sheet asks for. Of the calls of a unit those that name a local file without evaluation reach the locator,
and no others, with the path as it stands in the text. A call whose path depends on evaluation might as well not be
there.
-/
import StyleTrack.Proofs.Import.Agenda
import StyleTrack.Proofs.Source.Static

namespace StyleTrack

open StyleTrack.Source

/-! ## Local files -/

/-- Whether a candidate can only be a file of this system: it names no host and no scheme, in letters of either case,
and no part of a file. -/
structure IsLocalFile (candidate : List Char) : Prop where
  ne_nil : candidate ≠ []
  whole : '#' ∉ candidate
  hostless : ¬ ['/', '/'] <+: candidate
  schemeless : ∀ scheme ∈ [['h', 't', 't', 'p', ':'], ['h', 't', 't', 'p', 's', ':'], ['d', 'a', 't', 'a', ':']],
    ¬ scheme <+: candidate.map Char.toLower

variable {raw candidate word : List Char}

theorem isPrefix_takeWhile_iff (hword : '#' ∉ word) : word <+: raw.takeWhile (· ≠ '#') ↔ word <+: raw := by
  constructor
  · exact fun h => h.trans (List.takeWhile_prefix _)
  · rintro ⟨rest, rfl⟩
    rw [List.takeWhile_append_of_pos (Text.forall_ne_of_notMem hword)]
    exact List.prefix_append word _

theorem map_toLower_takeWhile (raw : List Char) :
    (raw.takeWhile (· ≠ '#')).map Char.toLower = (raw.map Char.toLower).takeWhile (· ≠ '#') := by
  have hlower : ((fun c => decide (c ≠ '#')) ∘ Char.toLower) = fun c => decide (c ≠ '#') := by
    funext c
    rw [Function.comp_apply, decide_eq_decide, ne_eq, ne_eq, toLower_eq_iff (by decide)]
  rw [List.takeWhile_map, hlower]

/-- The local file that a path names is what stands in front of the part. -/
theorem localFile?_eq_some_iff : localFile? raw = some candidate ↔
    candidate = raw.takeWhile (· ≠ '#') ∧ IsLocalFile candidate := by
  have hscheme : ∀ scheme, '#' ∉ scheme →
      (startsWord scheme raw = true ↔ scheme <+: (raw.takeWhile (· ≠ '#')).map Char.toLower) := fun scheme h => by
    rw [startsWord_iff, map_toLower_takeWhile, isPrefix_takeWhile_iff h]
  have hhost : ['/', '/'].isPrefixOf raw = true ↔ ['/', '/'] <+: raw.takeWhile (· ≠ '#') := by
    rw [List.isPrefixOf_iff_prefix, isPrefix_takeWhile_iff (by decide)]
  unfold localFile?
  rw [Option.ite_none_left_eq_some, Bool.or_eq_true, Bool.or_eq_true, Bool.or_eq_true, hhost, hscheme _ (by decide),
    hscheme _ (by decide), hscheme _ (by decide)]
  dsimp only
  rw [Option.ite_none_left_eq_some, Option.some.injEq]
  constructor
  · rintro ⟨hforeign, hne, rfl⟩
    simp only [not_or] at hforeign
    obtain ⟨⟨⟨hhost, hhttp⟩, hhttps⟩, hdata⟩ := hforeign
    exact ⟨rfl, hne, fun hmem => by simpa using List.mem_takeWhile_imp hmem, hhost, List.forall_mem_cons.2
      ⟨hhttp, List.forall_mem_cons.2 ⟨hhttps, List.forall_mem_singleton.2 hdata⟩⟩⟩
  · rintro ⟨rfl, hne, -, hhost, hschemes⟩
    simp only [List.forall_mem_cons] at hschemes
    obtain ⟨hhttp, hhttps, hdata, -⟩ := hschemes
    exact ⟨by simp only [hhost, hhttp, hhttps, hdata, or_self, not_false_eq_true], hne, rfl⟩

/-- A reference depends on a local file if it is to a literal path that names one. -/
theorem Source.Reference.local?_eq_some_iff {r : Source.Reference} {file : String} : r.local? = some file ↔
    ∃ path, r.path = .literal path ∧ file.toList = path.toList.takeWhile (· ≠ '#') ∧ IsLocalFile file.toList := by
  unfold Source.Reference.local?
  cases r.path with
  | dynamic text => simp
  | literal path =>
    dsimp only
    rw [Option.map_eq_some_iff]
    constructor
    · rintro ⟨candidate, hcandidate, rfl⟩
      rw [String.toList_ofList]
      exact ⟨path, rfl, localFile?_eq_some_iff.1 hcandidate⟩
    · rintro ⟨_, ⟨⟩, hfile⟩
      exact ⟨file.toList, localFile?_eq_some_iff.2 hfile, String.ofList_toList⟩

namespace Lister

/-! ## Calls of a unit -/

/-- The embedded resources that some calls of a file name. -/
def embedded (l : Lister) (root : Path) (search : List Path) (file : Path) (calls : List Occurrence) :
    Traced (List Path) := do
  let references ← Traced.lift ((calls.mapM Source.Reference.ofOccurrence).mapError fun call =>
    .processing root (.malformedReference file call))
  let found ← (references.filterMap (·.local?)).mapM (l.resource root file search)
  return found.filterMap id

variable (l : Lister) (root : Path) (search : List Path)

theorem resources_eq_embedded (u : SourceUnit) : l.resources root search u =
    l.embedded root search u.path (Source.Reference.keyword.find (stripComments u.text)) := rfl

/-- A call that names no local file can be left out. -/
theorem embedded_append_cons {o : Occurrence} {r : Source.Reference} (h : Source.Reference.ofOccurrence o = .ok r)
    (hlocal : r.local? = none) (file : Path) (a b : List Occurrence) :
    l.embedded root search file (a ++ o :: b) = l.embedded root search file (a ++ b) := by
  unfold embedded
  rw [List.mapM_append, List.mapM_append, List.mapM_cons, h]
  cases a.mapM Source.Reference.ofOccurrence with
  | error call => rfl
  | ok before =>
    cases b.mapM Source.Reference.ofOccurrence with
    | error call => rfl
    | ok behind =>
      have hfiles : (before ++ r :: behind).filterMap (·.local?) = (before ++ behind).filterMap (·.local?) := by
        rw [List.filterMap_append, List.filterMap_cons_none hlocal, ← List.filterMap_append]
      exact congrArg (fun files => files.mapM (l.resource root file search) >>= fun found => pure (found.filterMap id)) hfiles

/-! ## Questions -/

variable {l root search}

theorem exists_item_of_mem_lookups {q : Lookup} {items : List Item} (h : q ∈ (workOff l root items).trace.lookups) :
    ∃ i ∈ items, q ∈ i.lookups := by
  induction items with
  | nil => cases h
  | cons i items ih =>
    rw [workOff_cons] at h
    cases hi : settle l root i with
    | error e =>
      rw [hi] at h
      exact ⟨i, List.mem_cons_self, h⟩
    | ok x =>
      rw [hi] at h
      rcases List.mem_append.1 h with h | h
      · exact ⟨i, List.mem_cons_self, h⟩
      · obtain ⟨j, hj, hq⟩ := ih h
        exact ⟨j, List.mem_cons_of_mem i hj, hq⟩

/-- A question is put for a reference of the unit that depends on a local file, and for that file. -/
theorem exists_reference_of_mem_lookups {q : Lookup} {u : SourceUnit}
    (h : q ∈ (l.resources root search u).trace.lookups) :
    ∃ o ∈ Source.Reference.keyword.find (stripComments u.text), ∃ r, Source.Reference.ofOccurrence o = .ok r ∧
      r.local? = some q.candidate := by
  rw [resources_eq] at h
  obtain ⟨i, hi, hq⟩ := exists_item_of_mem_lookups h
  unfold itemsOf at hi
  cases hscan : Source.Reference.scan u.text with
  | error call =>
    rw [hscan] at hi
    obtain rfl := List.mem_singleton.1 hi
    cases hq
  | ok references =>
    rw [hscan] at hi
    obtain ⟨candidate, hcandidate, rfl⟩ := List.mem_map.1 hi
    obtain rfl := List.mem_singleton.1 hq
    obtain ⟨r, hr, hlocal⟩ := List.mem_filterMap.1 hcandidate
    obtain ⟨o, ho, hor⟩ := exists_of_forall₂_right (mapM_eq_ok_iff.1 hscan) hr
    exact ⟨o, ho, r, hor, hlocal⟩

theorem lookups_workOff_of_ok {items : List Item} {found : List Path} (h : (workOff l root items).result = .ok found) :
    (workOff l root items).trace.lookups = items.flatMap Item.lookups := by
  induction items generalizing found with
  | nil => rfl
  | cons i items ih =>
    rw [workOff_cons] at h ⊢
    cases hi : settle l root i with
    | error e =>
      rw [hi] at h
      cases h
    | ok x =>
      rw [hi] at h
      cases hrest : (workOff l root items).result with
      | error e =>
        rw [hrest] at h
        cases h
      | ok paths => exact congrArg (i.lookups ++ ·) (ih hrest)

/-- Where the embedded resources of a unit are found, the question has been put for each reference that depends on a
local file. -/
theorem exists_lookup_of_local? {u : SourceUnit} {found : List Path} {o : Occurrence} {r : Source.Reference}
    {file : String} (hfound : (l.resources root search u).result = .ok found)
    (ho : o ∈ Source.Reference.keyword.find (stripComments u.text)) (hr : Source.Reference.ofOccurrence o = .ok r)
    (hlocal : r.local? = some file) : ∃ q ∈ (l.resources root search u).trace.lookups, q.candidate = file := by
  rw [resources_eq, ← workOff] at hfound ⊢
  rw [lookups_workOff_of_ok hfound]
  cases hscan : Source.Reference.scan u.text with
  | error call =>
    rw [itemsOf, hscan] at hfound
    cases hfound
  | ok references =>
    obtain ⟨r', hmem, hr'⟩ := exists_of_forall₂_left (mapM_eq_ok_iff.1 hscan) ho
    obtain rfl : r' = r := Except.ok.inj (hr'.symm.trans hr)
    rw [itemsOf, hscan]
    dsimp only
    rw [List.flatMap_map]
    have hfile : file ∈ references.filterMap (·.local?) := List.mem_filterMap.2 ⟨r', hmem, hlocal⟩
    exact ⟨_, List.mem_flatMap.2 ⟨file, hfile, List.mem_singleton.2 rfl⟩, rfl⟩

/-- Every question that the embedded resources of a unit give rise to is about a local file, whose name stands in the
stripped text, in the path argument of a call: in a string without interpolation or in a token. Unless something fails,
each such call is asked about. The calls of the unit determine everything that is done, and a call whose path is dynamic
changes nothing, be it the result, the questions or the diagnostics. -/
theorem resources_static (l : Lister) (root : Path) (search : List Path) (u : SourceUnit) :
    (∀ q ∈ (l.resources root search u).trace.lookups,
      IsLocalFile q.candidate.toList ∧ q.candidate.toList <:+: stripComments u.text ∧
        ¬ ['@', '{'] <:+: q.candidate.toList ∧
        ∃ o ∈ Source.Reference.keyword.find (stripComments u.text), ∃ argument path, o.HasPath argument ∧
          StaticPath (Text.trim argument) path ∧ q.candidate.toList = path.takeWhile (· ≠ '#')) ∧
      (∀ found, (l.resources root search u).result = .ok found →
        ∀ o ∈ Source.Reference.keyword.find (stripComments u.text), ∀ argument path, o.HasPath argument →
          StaticPath (Text.trim argument) path → IsLocalFile (path.takeWhile (· ≠ '#')) →
          ∃ q ∈ (l.resources root search u).trace.lookups, q.candidate.toList = path.takeWhile (· ≠ '#')) ∧
      l.resources root search u =
        l.embedded root search u.path (Source.Reference.keyword.find (stripComments u.text)) ∧
      ∀ a o b, o.IsDynamic → l.embedded root search u.path (a ++ o :: b) = l.embedded root search u.path (a ++ b) := by
  refine ⟨fun q hq => ?_, fun found hfound o ho argument path hargument hstatic hfile => ?_,
    resources_eq_embedded l root search u, fun a o b ho => ?_⟩
  · obtain ⟨o, ho, r, hr, hlocal⟩ := exists_reference_of_mem_lookups hq
    obtain ⟨path, hpath, hcandidate, hfile⟩ := Source.Reference.local?_eq_some_iff.1 hlocal
    obtain ⟨argument, hargument, hstatic⟩ := Source.Reference.exists_static_of_ofOccurrence hr hpath
    have hstart : q.candidate.toList <+: path.toList := by
      rw [hcandidate]
      exact List.takeWhile_prefix _
    refine ⟨hfile, ?_, fun hwithin => hstatic.not_interpolated (hwithin.trans hstart.isInfix), o, ho, argument,
      path.toList, hargument, hstatic, hcandidate⟩
    calc q.candidate.toList <:+: path.toList := hstart.isInfix
      _ <:+: Text.trim argument := hstatic.isInfix
      _ <:+: argument := Text.trim_isInfix argument
      _ <:+: o.rest := hargument.isInfix
      _ <:+: stripComments u.text := (suffix_of_mem_find ho).isInfix
  · have hclassify := Source.Reference.pathOf_classify_of_static hstatic
    obtain ⟨r, hr, hpath⟩ := Source.Reference.exists_ofOccurrence_iff.2 ⟨argument, hargument, hclassify⟩
    have hlocal : r.local? = some (String.ofList (path.takeWhile (· ≠ '#'))) :=
      Source.Reference.local?_eq_some_iff.2 ⟨_, hpath, by simp only [String.toList_ofList], by rwa [String.toList_ofList]⟩
    obtain ⟨q, hq, hcandidate⟩ := exists_lookup_of_local? hfound ho hr hlocal
    exact ⟨q, hq, by rw [hcandidate, String.toList_ofList]⟩
  · obtain ⟨r, text, hr, hpath⟩ := Source.Reference.isDynamic_iff.1 ho
    refine embedded_append_cons l root search hr ?_ u.path a b
    rw [Source.Reference.local?, hpath]

/-- A unit that embeds a part of a file and a file that a variable names. -/
def mixed : SourceUnit := ⟨.ofString "s/main.less", "data-uri('x#y') /* ' */ data-uri(~\"@{x}\")".toList⟩

theorem resources_static_mixed : ∃ o p, Source.Reference.keyword.find (stripComments mixed.text) = [o, p] ∧
    (beside.resources mixed.path [] mixed).result = .ok [.ofString "s/x"] ∧
    (beside.resources mixed.path [] mixed).trace.lookups = [⟨.ofString "s", "x", []⟩] ∧ IsLocalFile ['x'] ∧
    (∃ q ∈ (beside.resources mixed.path [] mixed).trace.lookups, q.candidate.toList = ['x']) ∧
    p.IsDynamic ∧ beside.resources mixed.path [] mixed = beside.embedded mixed.path [] mixed.path [o] := by
  obtain ⟨hlookups, hasks, hembedded, hleave⟩ := resources_static beside mixed.path [] mixed
  have hfind : Source.Reference.keyword.find (stripComments mixed.text) =
      [⟨1, "'x#y')         data-uri(~\"@{x}\")".toList⟩, ⟨1, "~\"@{x}\")".toList⟩] := by cbv
  have hfound : (beside.resources mixed.path [] mixed).result = .ok [.ofString "s/x"] := by cbv
  have hasked : (beside.resources mixed.path [] mixed).trace.lookups = [⟨.ofString "s", "x", []⟩] := by cbv
  have hmem : (⟨.ofString "s", "x", []⟩ : Lookup) ∈ (beside.resources mixed.path [] mixed).trace.lookups := by
    rw [hasked]
    exact List.mem_cons_self
  have hfile : IsLocalFile ['x'] := (hlookups _ hmem).1
  have hpath : Occurrence.HasPath ⟨1, "'x#y')         data-uri(~\"@{x}\")".toList⟩ "'x#y'".toList :=
    ⟨⟨"'x#y'".toList, [], "         data-uri(~\"@{x}\")".toList⟩, by cbv, .inl rfl,
      List.forall_mem_singleton.2 (by decide)⟩
  have hstatic : StaticPath (Text.trim "'x#y'".toList) "x#y".toList :=
    .string [] '\'' ['x', '#', 'y'] (.inl rfl) rfl
      (.char _ _ (by decide) (by decide) (.char _ _ (by decide) (by decide) (.char _ _ (by decide) (by decide) .nil)))
      (by decide)
  have hdynamic : Occurrence.IsDynamic ⟨1, "~\"@{x}\")".toList⟩ :=
    Source.Reference.isDynamic_iff.2 ⟨⟨.dynamic "@{x}", none, 1⟩, "@{x}", by cbv, rfl⟩
  refine ⟨_, _, hfind, hfound, hasked, hfile, ?_, hdynamic, ?_⟩
  · exact hasks _ hfound _ (by rw [hfind]; exact List.mem_cons_self) _ _ hpath hstatic hfile
  · rw [hembedded, hfind]
    exact hleave [_] _ [] hdynamic

end Lister

end StyleTrack
