/-
Removed files: which of them a check misses.

A check compares what is listed now, and what is recorded but listed no longer does not count as a
change. So a recorded file that was removed is missed exactly when the listing gets by without it: the
listing still succeeds, names recorded files only, and some reference that led to the removed file is
optional and leads nowhere now, or leads to another recorded file. Every other removal is noticed.
-/
import StyleTrack.Change.Standard
import StyleTrack.Proofs.Change.Decision
import StyleTrack.Proofs.File.Tree
import StyleTrack.Proofs.Import.Standard
import Mathlib

namespace StyleTrack

open Expansion Lister

/-! ## References that get by -/

/-- A reference in some units that leads to a path in the bigger of two file systems and does without it
in the smaller. -/
inductive Detour (small big : FileSystem) (options : RenderOptions) (units : List SourceUnit)
    (known : Path → Prop) : Path → Prop
  /-- An optional import of the path leads nowhere. -/
  | lost {t : Task} {p : Path} (ht : TaskOf units t) (hbig : t.import? (.searching big options) = .ok (some p))
    (hoptional : t.directive.options.isOptional = true) (hsmall : t.import? (.searching small options) = .ok none) :
    Detour small big options units known p
  /-- An import of the path leads to another one. -/
  | redirected {t : Task} {p q : Path} (ht : TaskOf units t)
    (hbig : t.import? (.searching big options) = .ok (some p))
    (hsmall : t.import? (.searching small options) = .ok (some q)) (hknown : known q) :
    Detour small big options units known p
  /-- A resource is found at another path. -/
  | replaced {u : SourceUnit} {candidate : String} {p q : Path} (hu : u ∈ units) (hc : u.Embeds candidate)
    (hbig : Locator.searching big (baseOf u.path candidate) candidate options.paths = .ok p)
    (hsmall : Locator.searching small (baseOf u.path candidate) candidate options.paths = .ok q)
    (hknown : known q) : Detour small big options units known p

variable {small big : FileSystem} {options : RenderOptions}

/-- A listing of the smaller file system is one of the bigger unless one of its references does without a
path that the smaller lacks. -/
theorem Listed.exists_detour_of_not {root : Path} {text : List Char} {r : Processed} {deps : List Path}
    (hsub : ∀ q, small.contains q = .ok true → big.contains q = .ok true) (hsmall : small.Answers)
    (hbig : big.Answers) (h : Listed small options root text r deps)
    (hread : ∀ p ∈ r.imports, ∀ bytes, small.read p = .ok bytes → big.read p = .ok bytes)
    (hnot : ¬ Listed big options root text r deps) :
    ∃ p, small.Lacks big p ∧ Detour small big options r.sources
      (fun q => q.components = root.components ∨ ∃ d ∈ deps, d.components = q.components) p := by
  rcases h.extend_or hsub hsmall hbig hread with hlisted | ⟨t, p, ht, hp, hlacks⟩ | ⟨u, hu, c, p, hc, hp, hlacks⟩
  · exact absurd hlisted hnot
  · refine ⟨p, hlacks, ?_⟩
    rcases h.import_settled ht with hnone | ⟨q, hq, hknown⟩
    · exact .lost ht hp (Task.isOptional_of_lost hp hnone) hnone
    · exact .redirected ht hp hq hknown
  · obtain ⟨q, hq, hknown⟩ := h.embedded_found hu hc
    exact ⟨p, hlacks, .replaced hu hc hp hq (.inr hknown)⟩

theorem Detour.mono {units : List SourceUnit} {known known' : Path → Prop} (hknown : ∀ q, known q → known' q)
    {p : Path} (h : Detour small big options units known p) : Detour small big options units known' p := by
  cases h with
  | lost ht hbig hoptional hsmall => exact .lost ht hbig hoptional hsmall
  | redirected ht hbig hsmall hq => exact .redirected ht hbig hsmall (hknown _ hq)
  | replaced hu hc hbig hsmall hq => exact .replaced hu hc hbig hsmall (hknown _ hq)

/-! ## Removals that are missed -/

/-- Whether a path is recorded and is not the one that was removed. -/
def CacheEntry.Keeps (stored : CacheEntry) (p q : Path) : Prop :=
  q.components ≠ p.components ∧ (stored.dependencies.get? q).isSome = true

/-- Whether a listing gets by without a file: it still succeeds and stays within the record, and some
reference does without the file. -/
def FileTree.Dispensable (t : FileTree) (options : RenderOptions) (root : Path) (stored : CacheEntry)
    (p : Path) : Prop :=
  p.components ≠ root.components ∧ ∃ bytes text r deps, t.system.read root = .ok bytes ∧
    Text.Utf8.decode bytes = .ok text ∧ Listed (t.remove p).system options root text r deps ∧
    (∀ q ∈ deps, stored.Keeps p q) ∧ ∃ p', p'.components = p.components ∧
      Detour (t.remove p).system t.system options r.sources
        (fun q => q.components = root.components ∨ stored.Keeps p q) p'

theorem CacheEntry.Keeps.congr {stored : CacheEntry} {p q q' : Path} (hsame : q.components = q'.components)
    (h : stored.Keeps p q) : stored.Keeps p q' := by
  refine ⟨hsame ▸ h.1, ?_⟩
  rw [← SortedMap.get?_congr (Path.compare_eq_iff.2 hsame)]
  exact h.2

namespace Detector

variable {σ : Type} {store : Store σ} {kind : EvidenceKind} {base : Path} {t : FileTree} {root p : Path}
  {stored : CacheEntry}

theorem dispensable_of_agrees (ht : t.Faultless)
    (hsnap : ((standard t.system options store kind base).snapshot root).result = .ok stored)
    (hp : (stored.dependencies.get? p).isSome = true)
    (hagrees : (standard (t.remove p).system options store kind base).Agrees root stored) :
    t.Dispensable options root stored p := by
  obtain ⟨hroot, deps, hdeps, hall⟩ := agrees_iff.1 hagrees
  obtain ⟨bytes, text, r, hbytes, htext, hlisted⟩ := listPath_standard_eq_ok_iff.1 hdeps
  have hne : root.components ≠ p.components := FileTree.ne_of_collect_remove ht hroot
  have hkeeps : ∀ q ∈ deps, stored.Keeps p q := by
    intro q hq
    obtain ⟨e, hget, he⟩ := hall q hq
    exact ⟨FileTree.ne_of_collect_remove ht he, by rw [hget]; rfl⟩
  have hbytes' : t.system.read root = .ok bytes := (FileTree.read_remove_of_ne ht hne).1 hbytes
  -- the tree with the file lists the file, so it cannot have the same listing
  have hnot : ¬ Listed t.system options root text r deps := by
    intro hlisted'
    have hdeps' := listPath_standard_eq_ok_iff.2 ⟨bytes, text, r, hbytes', htext, hlisted'⟩
    obtain ⟨-, -, deps', hdeps'', -, hrec⟩ := snapshot_spec hsnap
    obtain rfl : deps' = deps := Except.ok.inj (hdeps''.symm.trans hdeps')
    obtain ⟨e, he⟩ := Option.isSome_iff_exists.1 hp
    obtain ⟨q, hq, hsame, -⟩ := hrec p e he
    exact (hkeeps q hq).1 hsame
  have hread : ∀ q ∈ r.imports, ∀ b, (t.remove p).system.read q = .ok b → t.system.read q = .ok b := by
    intro q hq b hb
    obtain ⟨d, hd, hsame⟩ := hlisted.exists_of_import hq
    exact (FileTree.read_remove_of_ne ht ((hkeeps d hd).congr hsame).1).1 hb
  obtain ⟨p', hlacks, hdetour⟩ := hlisted.exists_detour_of_not (fun _ => FileTree.contains_of_remove ht)
    (FileTree.answers_of_faultless (FileTree.faultless_remove ht p)) (FileTree.answers_of_faultless ht) hread hnot
  refine ⟨hne.symm, bytes, text, r, deps, hbytes', htext, hlisted, hkeeps, p',
    ((FileTree.lacks_remove_iff ht).1 hlacks).1, hdetour.mono ?_⟩
  rintro q (hq | ⟨d, hd, hsame⟩)
  · exact .inl hq
  · exact .inr ((hkeeps d hd).congr hsame)

theorem agrees_of_dispensable (ht : t.Faultless)
    (hsnap : ((standard t.system options store kind base).snapshot root).result = .ok stored)
    (h : t.Dispensable options root stored p) :
    (standard (t.remove p).system options store kind base).Agrees root stored := by
  obtain ⟨hne, bytes, text, r, deps, hbytes, htext, hlisted, hkeeps, -⟩ := h
  obtain ⟨-, hroot, _, -, -, hrec⟩ := snapshot_spec hsnap
  refine agrees_iff.2 ⟨(FileTree.collect_remove_of_ne ht hne.symm).2 hroot, deps, ?_, fun q hq => ?_⟩
  · exact listPath_standard_eq_ok_iff.2
      ⟨bytes, text, r, (FileTree.read_remove_of_ne ht hne.symm).2 hbytes, htext, hlisted⟩
  · obtain ⟨hneq, hsome⟩ := hkeeps q hq
    obtain ⟨e, hget⟩ := Option.isSome_iff_exists.1 hsome
    obtain ⟨q', -, hsame, he⟩ := hrec q e hget
    exact ⟨e, hget, (FileTree.collect_remove_of_ne ht hneq).2 ((FileTree.collect_congr ht hsame).1 he)⟩

/-- After a recorded file is removed, a check answers that nothing changed exactly when the listing gets
by without the file. -/
theorem check_remove_eq_false_iff {s : σ} (ht : t.Faultless)
    (hsnap : ((standard t.system options store kind base).snapshot root).result = .ok stored)
    (hload : store.load (.ofRoot base root) s = .ok (some stored))
    (hp : (stored.dependencies.get? p).isSome = true) :
    ((standard (t.remove p).system options store kind base).check root s).result = .ok false ↔
      t.Dispensable options root stored p := by
  rw [check_eq_false_iff_of_load hload]
  constructor
  · intro hagrees
    exact dispensable_of_agrees ht hsnap hp hagrees
  · intro h
    exact agrees_of_dispensable ht hsnap h

/-- A style sheet and the file that it imports if there is one. -/
def optionallyImporting : FileTree :=
  ⟨.ofList [(.ofString "main.less", ⟨Text.Utf8.ofString "@import (optional) \"a\";", ⟨100, 0⟩⟩),
    (.ofString "a.less", ⟨Text.Utf8.ofString "p", ⟨101, 0⟩⟩)], []⟩

theorem check_remove_eq_false_optional :
    ∃ s stored, ((standard optionallyImporting.system {} MemoryStore.store .mtime .empty).snapshot
        (.ofString "main.less")).result = .ok stored ∧
      MemoryStore.store.load (.ofRoot .empty (.ofString "main.less")) s = .ok (some stored) ∧
      (stored.dependencies.get? (.ofString "a.less")).isSome = true ∧
      ((standard (optionallyImporting.remove (.ofString "a.less")).system {} MemoryStore.store .mtime
        .empty).check (.ofString "main.less") s).result = .ok false ∧
      optionallyImporting.Dispensable {} (.ofString "main.less") stored (.ofString "a.less") := by
  let stored : CacheEntry := .ofList (.ofString "main.less") (.modified 100 0) [(.ofString "a.less", .modified 101 0)]
  have hsnap : ((standard optionallyImporting.system {} MemoryStore.store .mtime .empty).snapshot
      (.ofString "main.less")).result = .ok stored := by cbv
  obtain ⟨s, hload⟩ : ∃ s, MemoryStore.store.load (.ofRoot .empty (.ofString "main.less")) s = .ok (some stored) :=
    ⟨_, MemoryStore.load_insert .empty _ stored⟩
  have hp : (stored.dependencies.get? (.ofString "a.less")).isSome = true := by decide +kernel
  have hcheck : ((standard (optionallyImporting.remove (.ofString "a.less")).system {} MemoryStore.store .mtime
      .empty).check (.ofString "main.less") s).result = .ok false := by
    rw [check_of_load hload]
    cbv
  exact ⟨s, stored, hsnap, hload, hp, hcheck,
    (check_remove_eq_false_iff (show optionallyImporting.Faultless from rfl) hsnap hload hp).1 hcheck⟩

end Detector

end StyleTrack
