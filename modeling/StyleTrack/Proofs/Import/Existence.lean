/-
Which listed files exist. A path that a search found exists, and so does one that was read, in a file system
without faults. That leaves one way into a listing for a file that is missing: a plugin claims it for an import
that takes its file as it is, so that nobody looks for it and nobody reads it. Listings name missing files exactly
if a plugin claims one in this way.
-/
import StyleTrack.Proofs.File.Tree
import StyleTrack.Proofs.Import.Standard
import Mathlib

namespace StyleTrack

open StyleTrack.Source Expansion

/-! ## File systems without faults -/

/-- Whether a file system has every file that it gives to read, and tells paths apart by their components only. -/
structure FileSystem.Sound (fs : FileSystem) : Prop where
  contains_of_read : ∀ {p bytes}, fs.read p = .ok bytes → fs.contains p = .ok true
  contains_congr : ∀ {p q : Path}, p.components = q.components → fs.contains p = fs.contains q

theorem FileTree.Faultless.sound {t : FileTree} (h : t.Faultless) : t.system.Sound := by
  refine ⟨fun hread => contains_of_read h hread, fun hsame => ?_⟩
  rw [contains_of_faultless h, contains_of_faultless h, get?_congr hsame]

/-! ## Claims -/

/-- Whether a plugin claims a path for a directive that is to be followed. -/
def Expansion.Task.Claimed (options : RenderOptions) (t : Task) (p : Path) : Prop :=
  ∃ target, interpolate (options.value? t.declared) t.directive.target = .ok target ∧
    (isRemote target.toList || isPlainCss target.toList t.directive.options) = false ∧
    options.claim? (fileOfTarget target) t.file.directory = some p

variable {fs : FileSystem} {options : RenderOptions} {t : Task} {p : Path}

theorem Expansion.Task.Claimed.import? (h : t.Claimed options p) : t.import? (.searching fs options) = .ok (some p) := by
  obtain ⟨target, htarget, hlocal, hclaim⟩ := h
  unfold Task.import? Setting.searching
  simp [htarget, Except.mapError, bind, Except.bind, hlocal, hclaim, pure, Except.pure]

/-- A directive leads to a path that a plugin claims or a search found. -/
theorem Expansion.Task.claimed_or_contains (h : t.import? (.searching fs options) = .ok (some p)) :
    t.Claimed options p ∨ fs.contains p = .ok true := by
  unfold Task.import? Setting.searching at h
  obtain ⟨target, htarget, h⟩ := bind_eq_ok_iff.1 h
  dsimp only at h
  split at h
  · cases h
  · rename_i hlocal
    split at h
    · rename_i found hclaim
      cases h
      exact .inl ⟨target, mapError_eq_ok_iff.1 htarget, by simpa using hlocal, hclaim⟩
    · split at h
      · rename_i found hsearch
        cases h
        exact .inr (Locator.contains_of_searching hsearch)
      · split at h <;> cases h
      · cases h

/-! ## Listings -/

/-- Whether a plugin claims a path for an import of some units that takes its file as it is. -/
def ClaimedAsIs (options : RenderOptions) (units : List SourceUnit) (p : Path) : Prop :=
  ∃ t, TaskOf units t ∧ t.directive.options.isInline = true ∧ t.Claimed options p

namespace Listed

variable {root : Path} {text : List Char} {r : Processed} {deps : List Path}

/-- A listed path exists, unless a plugin claims it for an import that takes its file as it is. -/
theorem contains_or_claimed (hfs : fs.Sound) (h : Listed fs options root text r deps) (hp : p ∈ deps) :
    fs.contains p = .ok true ∨ p.components ≠ root.components ∧ ClaimedAsIs options r.sources p := by
  obtain ⟨found, hfound, rfl⟩ := h.embedded
  rcases List.mem_append.1 (mem_of_mem_distinct hp) with himport | hresource
  · obtain ⟨st, hst, hr⟩ := exists_walked_of_processor h.processed
    subst hr
    obtain ⟨hne, t, ht, hleads, htaken⟩ := hst.origin p himport
    rcases Task.claimed_or_contains hleads with hclaimed | hexists
    · rcases htaken with hinline | ⟨u, hu, rfl⟩
      · exact .inr ⟨hne, t, ht, hinline, hclaimed⟩
      -- a path that became a unit was read
      · rcases hst.unit u hu with rfl | ⟨-, bytes, hread, -⟩
        · exact absurd rfl hne
        · exact .inl (hfs.contains_of_read hread)
    · exact .inl hexists
  · obtain ⟨ps, hps, hmem⟩ := List.mem_flatten.1 hresource
    obtain ⟨u, -, hres⟩ := exists_of_forall₂_right hfound hps
    obtain ⟨references, -, hsearch⟩ := Lister.resources_standard_eq_ok_iff.1 hres
    obtain ⟨candidate, -, hq⟩ := exists_of_forall₂_right hsearch hmem
    exact .inl (Locator.contains_of_searching hq)

/-- What a plugin claims for an import of a unit is the root or is listed. -/
theorem root_or_listed_of_claimed (h : Listed fs options root text r deps) (hp : ClaimedAsIs options r.sources p) :
    p.components = root.components ∨ ∃ q ∈ deps, q.components = p.components := by
  obtain ⟨t, ht, -, hclaimed⟩ := hp
  rcases h.import_settled ht with hnone | ⟨q, hq, hlisted⟩
  · rw [hclaimed.import?] at hnone
    cases hnone
  · rw [hclaimed.import?] at hq
    cases hq
    exact hlisted

end Listed

namespace Lister

/-- Every file that a style sheet is listed to depend on exists, if and only if that is so of every path other than
the root that a plugin claims for an import that takes its file as it is. -/
theorem contains_of_list_iff (hfs : fs.Sound) {root : Path} {contents : Contents} {deps : List Path}
    (hlist : ((standard fs options).list (some ⟨some root, some contents⟩)).result = .ok deps) :
    ∃ text r, contents.text = .ok text ∧ Expansion.processor fs (.searching fs) text root options = .ok r ∧
      ((∀ p ∈ deps, fs.contains p = .ok true) ↔ ∀ p, ClaimedAsIs options r.sources p →
        p.components = root.components ∨ fs.contains p = .ok true) := by
  obtain ⟨text, r, htext, hlisted⟩ := list_standard_eq_ok_iff.1 hlist
  refine ⟨text, r, htext, hlisted.processed, fun hall p hp => ?_, fun hall p hp => ?_⟩
  · refine (hlisted.root_or_listed_of_claimed hp).imp id ?_
    rintro ⟨q, hq, hsame⟩
    rw [← hfs.contains_congr hsame]
    exact hall q hq
  · rcases hlisted.contains_or_claimed hfs hp with hexists | ⟨hne, hclaimed⟩
    · exact hexists
    · exact (hall p hclaimed).resolve_left hne

/-- A plugin that has a place of its own for one file. -/
def vendor : Plugin where
  name := "vendor"
  claim candidate _ := if candidate = "b.less" then some (.ofString "/vendor/b.less") else none

/-- A file system without the file in that place, and a style sheet that imports the file and another one. -/
def unvendored : FileTree := ⟨.ofList [(.ofString "a.less", ⟨[], ⟨100, 0⟩⟩)], []⟩

def importer : Contents := .buffer (Text.Utf8.ofString "@import (inline) \"a\";@import (inline) \"b\";")

theorem contains_of_list_iff_vendor :
    unvendored.system.Sound ∧ ∃ deps units,
      ((standard unvendored.system { plugins := [vendor] }).list
        (some ⟨some (.ofString "main.less"), some importer⟩)).result = .ok deps ∧
      deps = [.ofString "a.less", .ofString "/vendor/b.less"] ∧
      unvendored.system.contains (.ofString "/vendor/b.less") = .ok false ∧
      ¬ ∀ p, ClaimedAsIs { plugins := [vendor] } units p →
        p.components = (Path.ofString "main.less").components ∨ unvendored.system.contains p = .ok true := by
  have hsound : unvendored.system.Sound := FileTree.Faultless.sound (show unvendored.Faultless from rfl)
  have hlist : ((standard unvendored.system { plugins := [vendor] }).list
      (some ⟨some (.ofString "main.less"), some importer⟩)).result
        = .ok [.ofString "a.less", .ofString "/vendor/b.less"] := by cbv
  have hmissing : unvendored.system.contains (.ofString "/vendor/b.less") = .ok false := by
    rw [FileTree.contains_of_faultless (show unvendored.Faultless from rfl)]
    exact congrArg Except.ok (by decide +kernel)
  obtain ⟨text, r, -, -, hiff⟩ := contains_of_list_iff hsound hlist
  refine ⟨hsound, _, r.sources, hlist, rfl, hmissing, fun hclaimed => ?_⟩
  have hexists := hiff.2 hclaimed (.ofString "/vendor/b.less") (by simp)
  rw [hmissing] at hexists
  cases hexists

end Lister

end StyleTrack
