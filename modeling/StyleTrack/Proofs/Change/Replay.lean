/-
No edit is skipped: what a check that answers "unchanged" says about the files.

A snapshot is taken in one tree and checked in a later one, in which files were edited and added but none
is gone. The check lists in the later tree only; that this listing is also the recorded one is not
compared by anyone. It follows by carrying the later listing back: every path that it names has recorded
evidence, so it was there before with the same bytes, and a search that finds an old path in the later
tree cannot have ended elsewhere before, for all places that it passed over are missing in both trees.
-/
import StyleTrack.Change.Standard
import StyleTrack.Proofs.Change.Decision
import StyleTrack.Proofs.File.Tree
import StyleTrack.Proofs.Import.Standard
import Mathlib

namespace StyleTrack

/-! ## Edited trees -/

/-- Whether a tree comes from another by edits and new files, all of which evidence of a kind shows. -/
structure FileTree.Edited (kind : EvidenceKind) (t t' : FileTree) : Prop where
  before : t.Faultless
  after : t'.Faultless
  /-- No file is gone. -/
  kept : ∀ p, t.system.contains p = .ok true → t'.system.contains p = .ok true
  /-- Equal evidence means equal bytes. -/
  honest : ∀ p e bytes bytes', Evidence.collect kind t.system p = .ok e →
    Evidence.collect kind t'.system p = .ok e → t.system.read p = .ok bytes → t'.system.read p = .ok bytes' →
    bytes = bytes'

namespace FileTree

variable {t t' : FileTree} {kind : EvidenceKind}

theorem Edited.read_eq (h : t.Edited kind t') {p : Path} {e : Evidence}
    (he : Evidence.collect kind t.system p = .ok e) (he' : Evidence.collect kind t'.system p = .ok e) :
    ∃ bytes, t.system.read p = .ok bytes ∧ t'.system.read p = .ok bytes := by
  obtain ⟨f, hf, -⟩ := (collect_eq_ok_iff h.before).1 he
  obtain ⟨f', hf', -⟩ := (collect_eq_ok_iff h.after).1 he'
  have hread := (read_eq_ok_iff h.before).2 ⟨f, hf, rfl⟩
  have hread' := (read_eq_ok_iff h.after).2 ⟨f', hf', rfl⟩
  exact ⟨f.content, hread, by rw [hread', h.honest p e _ _ he he' hread hread']⟩

/-- Writing a file is an edit unless it hides what was there before. -/
theorem edited_write (h : t.Faultless) {p : Path} {f : StoredFile}
    (hshown : ∀ g, t.files.get? p = some g → g.evidence kind = f.evidence kind → g.content = f.content) :
    t.Edited kind (t.write p f) := by
  have hafter : (t.write p f).Faultless := h
  refine ⟨h, hafter, fun q hq => ?_, fun q e bytes bytes' he he' hb hb' => ?_⟩
  · obtain ⟨g, hg⟩ := (contains_eq_true_iff h).1 hq
    rw [contains_eq_true_iff hafter, get?_write]
    split
    · exact ⟨f, rfl⟩
    · exact ⟨g, hg⟩
  · obtain ⟨g, hg, rfl⟩ := (read_eq_ok_iff h).1 hb
    obtain ⟨g', hg', rfl⟩ := (read_eq_ok_iff hafter).1 hb'
    rw [collect_eq_ok_iff h, hg] at he
    rw [collect_eq_ok_iff hafter, hg'] at he'
    obtain ⟨_, hsome, rfl⟩ := he
    obtain ⟨_, hsome', heq⟩ := he'
    cases hsome
    cases hsome'
    rw [get?_write] at hg'
    split at hg'
    · rename_i hsame
      rw [get?_congr hsame] at hg
      cases hg'
      exact hshown g hg heq.symm
    · rw [hg] at hg'
      cases hg'
      rfl

end FileTree

namespace Detector

variable {σ : Type} {store : Store σ} {kind : EvidenceKind} {base : Path} {options : RenderOptions}
  {t t' : FileTree} {root : Path} {stored : CacheEntry}

theorem read_eq_of_agrees (hedit : t.Edited kind t')
    (hsnap : ((standard t.system options store kind base).snapshot root).result = .ok stored)
    (hagrees : (standard t'.system options store kind base).Agrees root stored) :
    ∃ deps, ((Lister.standard t'.system options).listPath root).result = .ok deps ∧
      ∀ p, p = root ∨ p ∈ deps → ∃ bytes, t.system.read p = .ok bytes ∧ t'.system.read p = .ok bytes := by
  obtain ⟨-, he, _, -, -, hrec⟩ := snapshot_spec hsnap
  obtain ⟨he', deps, hdeps, hall⟩ := agrees_iff.1 hagrees
  refine ⟨deps, hdeps, ?_⟩
  rintro p (rfl | hp)
  · exact hedit.read_eq he he'
  · obtain ⟨e, hget, hev⟩ := hall p hp
    -- the snapshot has the evidence of another spelling, if any
    obtain ⟨q, -, hsame, hqe⟩ := hrec p e hget
    exact hedit.read_eq ((FileTree.collect_congr hedit.before hsame).1 hqe) hev

/-- A listing of the later tree is one of the earlier tree if all that it names was there and reads the same. -/
theorem listPath_of_read_eq (hedit : t.Edited kind t') {deps : List Path}
    (hdeps : ((Lister.standard t'.system options).listPath root).result = .ok deps)
    (hread : ∀ p, p = root ∨ p ∈ deps → ∃ bytes, t.system.read p = .ok bytes ∧ t'.system.read p = .ok bytes) :
    ((Lister.standard t.system options).listPath root).result = .ok deps := by
  obtain ⟨bytes, text, r, hroot, htext, hlisted⟩ := listPath_standard_eq_ok_iff.1 hdeps
  obtain ⟨bytes', hroot', hroot''⟩ := hread root (.inl rfl)
  rw [hroot] at hroot''
  cases hroot''
  have hheld : ∀ p, p.components = root.components ∨ (∃ q ∈ deps, q.components = p.components) →
      ∃ bytes, t.system.read p = .ok bytes ∧ t'.system.read p = .ok bytes := by
    intro p hp
    have hspelled : ∃ q, (q = root ∨ q ∈ deps) ∧ q.components = p.components := by
      rcases hp with hsame | ⟨q, hq, hsame⟩
      · exact ⟨root, .inl rfl, hsame.symm⟩
      · exact ⟨q, .inr hq, hsame⟩
    obtain ⟨q, hq, hsame⟩ := hspelled
    obtain ⟨bytes, hb, hb'⟩ := hread q hq
    exact ⟨bytes, (FileTree.read_congr hedit.before hsame).1 hb, (FileTree.read_congr hedit.after hsame).1 hb'⟩
  refine listPath_standard_eq_ok_iff.2 ⟨bytes, text, r, hroot', htext, ?_⟩
  refine hlisted.restrict hedit.kept (FileTree.answers_of_faultless hedit.before)
    (FileTree.answers_of_faultless hedit.after) (fun p hp => ?_) (fun p hp bytes hb => ?_)
  · obtain ⟨bytes, hb, -⟩ := hheld p hp
    exact FileTree.contains_of_read hedit.before hb
  · obtain ⟨q, hq, hsame⟩ := hlisted.exists_of_import hp
    obtain ⟨bytes', hb', hb''⟩ := hheld p (.inr ⟨q, hq, hsame⟩)
    rw [hb] at hb''
    cases hb''
    exact hb'

/-- No edit and no new file is skipped: when a check answers that nothing changed since a snapshot, the
listing of the root is the one that the snapshot saw, path by path, and the root and every listed file
have the bytes that they had. -/
theorem listPath_eq_of_check_eq_false {s : σ} (hedit : t.Edited kind t')
    (hsnap : ((standard t.system options store kind base).snapshot root).result = .ok stored)
    (hload : store.load (.ofRoot base root) s = .ok (some stored))
    (hcheck : ((standard t'.system options store kind base).check root s).result = .ok false) :
    ∃ deps, ((Lister.standard t.system options).listPath root).result = .ok deps ∧
      ((Lister.standard t'.system options).listPath root).result = .ok deps ∧
      ∀ p, p = root ∨ p ∈ deps → ∃ bytes, t.system.read p = .ok bytes ∧ t'.system.read p = .ok bytes := by
  have hagrees := (check_eq_false_iff_of_load hload).1 hcheck
  obtain ⟨deps, hdeps, hread⟩ := read_eq_of_agrees hedit hsnap hagrees
  exact ⟨deps, listPath_of_read_eq hedit hdeps hread, hdeps, hread⟩

/-- A style sheet and the file that it imports. -/
def importing : FileTree :=
  ⟨.ofList [(.ofString "main.less", ⟨Text.Utf8.ofString "@import \"a\";", ⟨100, 0⟩⟩),
    (.ofString "a.less", ⟨Text.Utf8.ofString "p", ⟨101, 0⟩⟩)], []⟩

/-- The same with one more file, to which nothing refers. -/
def extended : FileTree := importing.write (.ofString "b.less") ⟨Text.Utf8.ofString "q", ⟨102, 0⟩⟩

theorem listPath_eq_of_check_eq_false_extended :
    ∃ s stored, importing.Edited .mtime extended ∧
      ((standard importing.system {} MemoryStore.store .mtime .empty).snapshot
        (.ofString "main.less")).result = .ok stored ∧
      MemoryStore.store.load (.ofRoot .empty (.ofString "main.less")) s = .ok (some stored) ∧
      ((standard extended.system {} MemoryStore.store .mtime .empty).check
        (.ofString "main.less") s).result = .ok false ∧
      ∃ deps, ((Lister.standard importing.system {}).listPath (.ofString "main.less")).result = .ok deps ∧
        ((Lister.standard extended.system {}).listPath (.ofString "main.less")).result = .ok deps ∧
        ∀ p, p = .ofString "main.less" ∨ p ∈ deps →
          ∃ bytes, importing.system.read p = .ok bytes ∧ extended.system.read p = .ok bytes := by
  let stored : CacheEntry := .ofList (.ofString "main.less") (.modified 100 0) [(.ofString "a.less", .modified 101 0)]
  have hedit : importing.Edited .mtime extended := by
    refine FileTree.edited_write (show importing.Faultless from rfl) fun g hg => ?_
    rw [show importing.files.get? (.ofString "b.less") = none by decide +kernel] at hg
    cases hg
  have hsnap : ((standard importing.system {} MemoryStore.store .mtime .empty).snapshot
      (.ofString "main.less")).result = .ok stored := by cbv
  obtain ⟨s, hload⟩ : ∃ s, MemoryStore.store.load (.ofRoot .empty (.ofString "main.less")) s = .ok (some stored) :=
    ⟨_, MemoryStore.load_insert .empty _ stored⟩
  have hcheck : ((standard extended.system {} MemoryStore.store .mtime .empty).check
      (.ofString "main.less") s).result = .ok false := by
    rw [check_of_load hload]
    cbv
  exact ⟨s, stored, hedit, hsnap, hload, hcheck, listPath_eq_of_check_eq_false hedit hsnap hload hcheck⟩

end Detector

end StyleTrack
