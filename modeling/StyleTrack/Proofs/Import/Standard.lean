/-
What the standard lister lists, over one file system and over two. A listing is a run of the processor
and, for every unit, a search for each resource that it embeds; whatever either finds is listed. It can be
repeated in another file system in which the same searches end alike and the same files hold the same
bytes, and two file systems of which one is part of the other differ in a search only where the bigger
one gives a path of its own.
-/
import StyleTrack.Import.Standard
import StyleTrack.Proofs.Import.Listing
import StyleTrack.Proofs.Import.Search
import StyleTrack.Proofs.Import.Walk

namespace StyleTrack

open StyleTrack.Source

namespace Expansion

/-- The surroundings of a walk that searches one file system. -/
def Setting.searching (fs : FileSystem) (options : RenderOptions) : Setting := ⟨fs, .searching fs, options⟩

theorem Task.import?_agrees {small big : FileSystem}
    (hsub : ∀ q, small.contains q = .ok true → big.contains q = .ok true) (hsmall : small.Answers)
    (hbig : big.Answers) (options : RenderOptions) (t : Task) :
    (∃ q, t.import? (.searching big options) = .ok (some q) ∧ small.Lacks big q) ∨
      t.import? (.searching small options) = t.import? (.searching big options) := by
  unfold Task.import? Setting.searching
  dsimp only
  cases (interpolate (options.value? t.declared) t.directive.target).mapError t.fault with
  | error e => exact .inr rfl
  | ok target =>
    dsimp only [bind, Except.bind]
    split
    · exact .inr rfl
    -- plugins answer without the file system, so only the search can differ
    · cases options.claim? (fileOfTarget target) t.file.directory with
      | some found => exact .inr rfl
      | none =>
        rcases Locator.searching_agrees hsub hsmall hbig t.file.directory (fileOfTarget target) options.paths
          with ⟨q, hq, hlacks⟩ | heq
        · exact .inl ⟨q, by rw [hq]; rfl, hlacks⟩
        · exact .inr (by rw [heq])

/-- A directive that leads somewhere in one file system and nowhere in another is optional. -/
theorem Task.isOptional_of_lost {fs fs' : FileSystem} {options : RenderOptions} {t : Task} {q : Path}
    (h : t.import? (.searching fs options) = .ok (some q)) (h' : t.import? (.searching fs' options) = .ok none) :
    t.directive.options.isOptional = true := by
  unfold Task.import? Setting.searching at h h'
  dsimp only at h h'
  cases htarget : (interpolate (options.value? t.declared) t.directive.target).mapError t.fault with
  | error e => rw [htarget] at h; cases h
  | ok target =>
    simp only [htarget, bind, Except.bind] at h h'
    split at h
    · cases h
    · rename_i hlocal
      rw [if_neg hlocal] at h'
      cases hclaim : options.claim? (fileOfTarget target) t.file.directory with
      | some found => rw [hclaim] at h'; cases h'
      | none =>
        rw [hclaim] at h'
        dsimp only at h'
        split at h'
        · cases h'
        · split at h'
          · assumption
          · cases h'
        · cases h'

theorem processor_nil (fs : FileSystem) (locate : Locator) (root : Path) (options : RenderOptions) :
    processor fs locate [] root options = .ok ⟨[], [⟨root, []⟩]⟩ := by
  have htasks : tasksOf root [] = .ok [] := by
    simp [tasksOf, stripComments, Source.segment, Directive.parse, Keyword.find, Keyword.occurrences]
    rfl
  unfold processor
  rw [htasks]
  simp only [bind, Except.bind, run]
  rfl

end Expansion

/-! ## Embedded resources -/

/-- Whether a unit embeds a resource under a name that is known without evaluation. -/
def SourceUnit.Embeds (u : SourceUnit) (candidate : String) : Prop :=
  ∃ references, Reference.scan u.text = .ok references ∧ candidate ∈ references.filterMap (·.local?)

namespace Lister

theorem resource_standard_eq_ok_iff {fs : FileSystem} {options : RenderOptions} {root file : Path}
    {search : List Path} {candidate : String} {found : Option Path} :
    ((standard fs options).resource root file search candidate).result = .ok found ↔
      ∃ q, Locator.searching fs (baseOf file candidate) candidate search = .ok q ∧ found = some q := by
  unfold resource
  simp only [Traced.result_bind, Traced.result_asked, Traced.result_lift, bind_eq_ok_iff, mapError_eq_ok_iff]
  constructor
  · rintro ⟨-, -, q, hq, b, hb, h⟩
    -- what a search has found exists, so the branch that drops a missing resource is dead
    have hexists := Locator.contains_of_searching hq
    rw [show (standard fs options).fs.contains q = .ok true from hexists] at hb
    cases hb
    cases h
    exact ⟨q, hq, rfl⟩
  · rintro ⟨q, hq, rfl⟩
    exact ⟨(), trivial, q, hq, true, Locator.contains_of_searching hq, rfl⟩

theorem resources_standard_eq_ok_iff {fs : FileSystem} {options : RenderOptions} {root : Path}
    {search : List Path} {u : SourceUnit} {found : List Path} :
    ((standard fs options).resources root search u).result = .ok found ↔
      ∃ references, Reference.scan u.text = .ok references ∧
        List.Forall₂ (fun c q => Locator.searching fs (baseOf u.path c) c search = .ok q)
          (references.filterMap (·.local?)) found := by
  have hsearch : ∀ (cs : List String) (located : List (Option Path)),
      List.Forall₂ (fun c q => ((standard fs options).resource root u.path search c).result = .ok q) cs located ↔
        ∃ found, located = found.map some ∧
          List.Forall₂ (fun c q => Locator.searching fs (baseOf u.path c) c search = .ok q) cs found := by
    intro cs located
    simp only [resource_standard_eq_ok_iff]
    constructor
    · intro h
      induction h with
      | nil => exact ⟨[], rfl, .nil⟩
      | cons hq _ ih =>
        obtain ⟨q, hq, rfl⟩ := hq
        obtain ⟨found, rfl, hfound⟩ := ih
        exact ⟨q :: found, rfl, .cons hq hfound⟩
    · rintro ⟨found, rfl, hfound⟩
      rw [List.forall₂_map_right_iff]
      exact hfound.imp fun _ _ hq => ⟨_, hq, rfl⟩
  unfold resources
  simp only [Traced.result_bind, Traced.result_lift, Traced.result_mapM, Traced.result_pure, bind_eq_ok_iff,
    mapError_eq_ok_iff, mapM_eq_ok_iff, hsearch]
  constructor
  · rintro ⟨references, hscan, _, ⟨found', rfl, hfound⟩, h⟩
    cases h
    exact ⟨references, hscan, by simpa using hfound⟩
  · rintro ⟨references, hscan, hfound⟩
    exact ⟨references, hscan, _, ⟨found, rfl, hfound⟩, by simp⟩

end Lister

/-! ## Listings -/

open Expansion Lister

/-- The paths that a processor's answer and the searches for the resources of its units make up. -/
structure Listed (fs : FileSystem) (options : RenderOptions) (root : Path) (text : List Char) (r : Processed)
    (deps : List Path) : Prop where
  processed : processor fs (.searching fs) text root options = .ok r
  embedded : ∃ found, List.Forall₂ (fun u found => ((standard fs options).resources root options.paths u).result
    = .ok found) r.sources found ∧ deps = distinct (r.imports ++ found.flatten)

theorem exists_listed_iff {fs : FileSystem} {options : RenderOptions} {root : Path} {text : List Char}
    {deps : List Path} :
    (∃ r, Listed fs options root text r deps) ↔
      ((standard fs options).listText options root text).result = .ok deps := by
  have hunits : ∀ r, processor fs (.searching fs) text root options = .ok r → units root text r = r.sources := by
    intro r hr
    obtain ⟨st, hst, rfl⟩ := exists_walked_of_processor hr
    unfold units
    rw [if_neg (List.ne_nil_of_mem hst.first)]
  rw [listText_eq_ok_iff]
  constructor
  · rintro ⟨r, hr, found, hfound, hdeps⟩
    exact ⟨r, found, hr, by rw [hunits r hr]; exact hfound, hdeps⟩
  · rintro ⟨r, found, hr, hfound, hdeps⟩
    exact ⟨r, hr, found, by rw [← hunits r hr]; exact hfound, hdeps⟩

theorem exists_listed_nil_iff {fs : FileSystem} {options : RenderOptions} {root : Path} {deps : List Path} :
    (∃ r, Listed fs options root [] r deps) ↔ deps = [] := by
  have hscan : Reference.scan [] = .ok [] := by
    simp [Reference.scan, stripComments, Source.segment, Keyword.find, Keyword.occurrences]
    rfl
  have hnone : ∀ found, ((standard fs options).resources root options.paths ⟨root, []⟩).result = .ok found ↔
      found = [] := by
    intro found
    rw [resources_standard_eq_ok_iff]
    simp [hscan]
  constructor
  · rintro ⟨r, hr, found, hfound, rfl⟩
    rw [processor_nil] at hr
    cases hr
    obtain ⟨none, rest, hn, hrest, rfl⟩ := List.forall₂_cons_left_iff.1 hfound
    rw [(hnone _).1 hn, List.forall₂_nil_left_iff.1 hrest]
    rfl
  · rintro rfl
    exact ⟨_, processor_nil _ _ _ _, [[]], .cons ((hnone []).2 rfl) .nil, rfl⟩

/-- The empty text is not processed at all, but processing it would list nothing either. -/
theorem list_standard_eq_ok_iff {fs : FileSystem} {options : RenderOptions} {root : Path} {contents : Contents}
    {deps : List Path} :
    ((standard fs options).list (some ⟨some root, some contents⟩)).result = .ok deps ↔
      ∃ text r, contents.text = .ok text ∧ Listed fs options root text r deps := by
  have hlisted : ∀ text, (if text = [] then deps = [] else
      ((standard fs options).listText options root text).result = .ok deps) ↔
        ∃ r, Listed fs options root text r deps := by
    intro text
    split
    · rename_i hnil
      rw [hnil, exists_listed_nil_iff]
    · rw [exists_listed_iff]
  rw [list_eq_ok_iff]
  constructor
  · rintro ⟨text, htext, hlist⟩
    obtain ⟨r, hr⟩ := (hlisted text).1 hlist
    exact ⟨text, r, htext, hr⟩
  · rintro ⟨text, r, htext, hr⟩
    exact ⟨text, htext, (hlisted text).2 ⟨r, hr⟩⟩

theorem listPath_standard_eq_ok_iff {fs : FileSystem} {options : RenderOptions} {root : Path} {deps : List Path} :
    ((standard fs options).listPath root).result = .ok deps ↔
      ∃ bytes text r, fs.read root = .ok bytes ∧ Text.Utf8.decode bytes = .ok text ∧
        Listed fs options root text r deps := by
  have hdecode : ∀ bytes text, Contents.text (.buffer bytes) = .ok text ↔ Text.Utf8.decode bytes = .ok text := by
    intro bytes text
    exact mapError_eq_ok_iff
  simp only [listPath_eq_ok_iff, list_standard_eq_ok_iff, hdecode, ← exists_and_left]
  rfl

namespace Listed

variable {fs fs' : FileSystem} {options : RenderOptions} {root : Path} {text : List Char} {r : Processed}
  {deps : List Path}

theorem exists_of_import (h : Listed fs options root text r deps) {p : Path} (hp : p ∈ r.imports) :
    ∃ q ∈ deps, q.components = p.components := by
  obtain ⟨found, -, rfl⟩ := h.embedded
  exact exists_mem_distinct (List.mem_append_left _ hp)

/-- Every directive of a unit is not to be followed, or leads to the root or to a listed path. -/
theorem import_settled (h : Listed fs options root text r deps) {t : Task} (ht : TaskOf r.sources t) :
    t.import? (.searching fs options) = .ok none ∨
      ∃ p, t.import? (.searching fs options) = .ok (some p) ∧
        (p.components = root.components ∨ ∃ q ∈ deps, q.components = p.components) := by
  obtain ⟨st, hst, hr⟩ := exists_walked_of_processor h.processed
  subst hr
  rcases hst.settled t ht with hleft | hnone | ⟨p, hp, hmet⟩
  · cases hleft
  · exact .inl hnone
  · refine .inr ⟨p, hp, ((hst.met _).1 hmet).imp id ?_⟩
    rintro ⟨q, hq, heq⟩
    obtain ⟨q', hq', heq'⟩ := h.exists_of_import hq
    exact ⟨q', hq', heq'.trans heq⟩

/-- Every resource that a unit embeds is found, and what is found is listed. -/
theorem embedded_found (h : Listed fs options root text r deps) {u : SourceUnit} (hu : u ∈ r.sources)
    {candidate : String} (hc : u.Embeds candidate) :
    ∃ p, Locator.searching fs (baseOf u.path candidate) candidate options.paths = .ok p ∧
      ∃ q ∈ deps, q.components = p.components := by
  obtain ⟨found, hfound, rfl⟩ := h.embedded
  obtain ⟨ps, hps, hres⟩ := exists_of_forall₂_left hfound hu
  obtain ⟨references, hscan, hsearch⟩ := resources_standard_eq_ok_iff.1 hres
  obtain ⟨references', hscan', hc⟩ := hc
  rw [hscan] at hscan'
  cases hscan'
  obtain ⟨p, hp, hfind⟩ := exists_of_forall₂_left hsearch hc
  exact ⟨p, hfind, exists_mem_distinct (List.mem_append_right _ (List.mem_flatten.2 ⟨ps, hps, hp⟩))⟩

/-- A listing can be repeated in another file system in which every directive of its units leads to the
same file, every resource is found at the same place, and the imports that can be read read the same. -/
theorem congr (h : Listed fs options root text r deps)
    (himport : ∀ t, TaskOf r.sources t → t.import? (.searching fs' options) = t.import? (.searching fs options))
    (hembed : ∀ u ∈ r.sources, ∀ candidate, u.Embeds candidate →
      Locator.searching fs' (baseOf u.path candidate) candidate options.paths
        = Locator.searching fs (baseOf u.path candidate) candidate options.paths)
    (hread : ∀ p ∈ r.imports, ∀ bytes, fs.read p = .ok bytes → fs'.read p = .ok bytes) :
    Listed fs' options root text r deps := by
  obtain ⟨found, hfound, hdeps⟩ := h.embedded
  refine ⟨processor_congr h.processed himport hread, found, ?_, hdeps⟩
  refine ((List.forall₂_and_left _ _).2 ⟨fun (u : SourceUnit) (hu : u ∈ r.sources) => hu, hfound⟩).imp fun u ps hps => ?_
  obtain ⟨hu, hps⟩ := hps
  obtain ⟨references, hscan, hsearch⟩ := resources_standard_eq_ok_iff.1 hps
  refine resources_standard_eq_ok_iff.2 ⟨references, hscan, ?_⟩
  refine ((List.forall₂_and_left _ _).2 ⟨fun (c : String) (hc : c ∈ references.filterMap (·.local?)) => hc,
    hsearch⟩).imp fun candidate p hp => ?_
  rw [hembed u hu candidate ⟨references, hscan, hp.1⟩]
  exact hp.2

/-! ## A file system within another -/

section Within

variable {small big : FileSystem}

/-- A listing of the bigger file system is one of the smaller if the smaller has the root and all that is listed. -/
theorem restrict (hsub : ∀ q, small.contains q = .ok true → big.contains q = .ok true) (hsmall : small.Answers)
    (hbig : big.Answers) (h : Listed big options root text r deps)
    (hheld : ∀ p, p.components = root.components ∨ (∃ q ∈ deps, q.components = p.components) →
      small.contains p = .ok true)
    (hread : ∀ p ∈ r.imports, ∀ bytes, big.read p = .ok bytes → small.read p = .ok bytes) :
    Listed small options root text r deps := by
  refine h.congr (fun t ht => ?_) (fun u hu candidate hc => ?_) hread
  · rcases Task.import?_agrees hsub hsmall hbig options t with ⟨q, hq, hlacks⟩ | heq
    · rcases h.import_settled ht with hnone | ⟨p, hp, hlisted⟩
      · rw [hq] at hnone; cases hnone
      · rw [hq] at hp
        cases hp
        exact absurd (hheld q hlisted) (by simp [hlacks.1])
    · exact heq
  · obtain ⟨p, hp, hlisted⟩ := h.embedded_found hu hc
    rcases Locator.searching_agrees hsub hsmall hbig (baseOf u.path candidate) candidate options.paths
      with ⟨q, hq, hlacks⟩ | heq
    · rw [hq] at hp
      cases hp
      exact absurd (hheld p (.inr hlisted)) (by simp [hlacks.1])
    · exact heq

/-- A listing of the smaller file system is one of the bigger unless the bigger gives a reference in it
a path of its own. -/
theorem extend_or (hsub : ∀ q, small.contains q = .ok true → big.contains q = .ok true) (hsmall : small.Answers)
    (hbig : big.Answers) (h : Listed small options root text r deps)
    (hread : ∀ p ∈ r.imports, ∀ bytes, small.read p = .ok bytes → big.read p = .ok bytes) :
    Listed big options root text r deps ∨
      (∃ t q, TaskOf r.sources t ∧ t.import? (.searching big options) = .ok (some q) ∧
        small.Lacks big q) ∨
      ∃ u ∈ r.sources, ∃ candidate q, u.Embeds candidate ∧
        Locator.searching big (baseOf u.path candidate) candidate options.paths = .ok q ∧
        small.Lacks big q := by
  by_contra hnone
  rw [not_or, not_or] at hnone
  obtain ⟨hlisted, himport, hembed⟩ := hnone
  refine hlisted (h.congr (fun t ht => ?_) (fun u hu candidate hc => ?_) hread)
  · rcases Task.import?_agrees hsub hsmall hbig options t with ⟨q, hq, hlacks⟩ | heq
    · exact absurd ⟨t, q, ht, hq, hlacks⟩ himport
    · exact heq.symm
  · rcases Locator.searching_agrees hsub hsmall hbig (baseOf u.path candidate) candidate options.paths
      with ⟨q, hq, hlacks⟩ | heq
    · exact absurd ⟨u, hu, candidate, q, hc, hq, hlacks⟩ hembed
    · exact heq.symm

end Within

end Listed

end StyleTrack
