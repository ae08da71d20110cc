/-
Checks of a root under another spelling than the one that was recorded. The two share their entry, but the paths
in it go back to the directory of the root as it was spelled. So a check answers that nothing changed exactly if
the listing from the other spelling names recorded paths only: that is so in a directory that is cleaned alike, if
no import leads back to the root, and is not so in general. All other spellings make the root count as changed,
even where the file system does not tell two spellings of any path apart.
-/
import StyleTrack.Change.Standard
import StyleTrack.File.Disk
import StyleTrack.Proofs.Change.Decision
import StyleTrack.Proofs.Import.Spelling
import Mathlib

namespace StyleTrack

open Expansion

/-! ## File systems that do not tell two paths apart -/

namespace FileSystem

/-- Whether a file system answers alike about two paths, apart from the words of a failure. -/
structure Alike (fs : FileSystem) (p q : Path) : Prop where
  read : ∀ bytes, fs.read p = .ok bytes ↔ fs.read q = .ok bytes
  contains : ∀ b, fs.contains p = .ok b ↔ fs.contains q = .ok b
  modified : ∀ t, fs.modified p = .ok t ↔ fs.modified q = .ok t

variable {fs : FileSystem} {p q : Path}

theorem Alike.collect (h : fs.Alike p q) (kind : EvidenceKind) (e : Evidence) :
    Evidence.collect kind fs p = .ok e ↔ Evidence.collect kind fs q = .ok e := by
  cases kind with
  | mtime => simp only [Evidence.collect, map_eq_ok_iff, h.modified]
  | content => simp only [Evidence.collect, map_eq_ok_iff, h.read]

/-- Whether no import of the files that a root pulls in leads to a path. -/
def NeverImports (fs : FileSystem) (options : RenderOptions) (root p : Path) : Prop :=
  ∀ bytes text r, fs.read root = .ok bytes → Text.Utf8.decode bytes = .ok text →
    processor fs (.searching fs) text root options = .ok r → Avoids (.searching fs options) r.sources p

end FileSystem

/-! ## Listings -/

section Listings

variable {fs : FileSystem} {options : RenderOptions} {root root' : Path} {deps : List Path}

theorem Lister.listPath_respell (hplugins : options.plugins = []) (hdir : root.directory.clean = root'.directory.clean)
    (halike : fs.Alike root root') (hroot : fs.NeverImports options root root) (hroot' : fs.NeverImports options root root')
    (h : ((standard fs options).listPath root).result = .ok deps) :
    ((standard fs options).listPath root').result = .ok deps := by
  obtain ⟨bytes, text, r, hread, htext, hlisted⟩ := listPath_standard_eq_ok_iff.1 h
  have hlisted' := hlisted.respell hplugins hdir (hroot bytes text r hread htext hlisted.processed)
    (hroot' bytes text r hread htext hlisted.processed)
  exact listPath_standard_eq_ok_iff.2 ⟨bytes, text, _, (halike.read bytes).1 hread, htext, hlisted'⟩

theorem Lister.exists_clean_of_listPath (hplugins : options.plugins = [])
    (h : ((standard fs options).listPath root).result = .ok deps) {p : Path} (hp : p ∈ deps) : ∃ q : Path, p = q.clean := by
  obtain ⟨bytes, text, r, -, -, hlisted⟩ := listPath_standard_eq_ok_iff.1 h
  exact hlisted.exists_clean hplugins hp

end Listings

/-! ## Checks -/

namespace Detector

variable {σ : Type}

/-- A check of a root under another spelling than the recorded one answers that nothing changed exactly if the
listing from there names recorded paths only. It does in a directory that is cleaned alike, if no import leads back
to the root. -/
theorem check_of_other_spelling {fs : FileSystem} {options : RenderOptions} (store : Store σ) (kind : EvidenceKind)
    {base root root' : Path} {entry : CacheEntry} {s : σ} (hplugins : options.plugins = [])
    (halike : fs.Alike root root') (hkey : CacheKey.ofRoot base root = .ofRoot base root')
    (hsnap : ((standard fs options store kind base).snapshot root).result = .ok entry)
    (hload : store.load (.ofRoot base root) s = .ok (some entry)) :
    (((standard fs options store kind base).check root' s).result = .ok false ↔
      ∃ deps, ((Lister.standard fs options).listPath root').result = .ok deps ∧
        ∀ p ∈ deps, (entry.dependencies.get? p).isSome) ∧
    (root.directory.clean = root'.directory.clean → fs.NeverImports options root root →
      fs.NeverImports options root root' → ((standard fs options store kind base).check root' s).result = .ok false) := by
  obtain ⟨-, hevidence, deps, hdeps, hrecorded, hmade⟩ := snapshot_spec hsnap
  have hload' : store.load ((standard fs options store kind base).key root') s = .ok (some entry) := by
    rw [hkey] at hload
    exact hload
  have hverdict : ((standard fs options store kind base).check root' s).result = .ok false ↔
      ∃ deps, ((Lister.standard fs options).listPath root').result = .ok deps ∧
        ∀ p ∈ deps, (entry.dependencies.get? p).isSome := by
    rw [check_eq_false_iff_of_load hload', agrees_iff]
    constructor
    · rintro ⟨-, deps', hdeps', hall⟩
      refine ⟨deps', hdeps', fun p hp => ?_⟩
      obtain ⟨e, hget, -⟩ := hall p hp
      rw [hget]
      rfl
    · rintro ⟨deps', hdeps', hall⟩
      refine ⟨(halike.collect kind _).1 hevidence, deps', hdeps', fun p hp => ?_⟩
      obtain ⟨e, hget⟩ := Option.isSome_iff_exists.1 (hall p hp)
      obtain ⟨q, hq, hsame, hqe⟩ := hmade p e hget
      -- both paths are cleaned, so the file system is asked about one path only
      obtain ⟨p', rfl⟩ := Lister.exists_clean_of_listPath hplugins hdeps' hp
      obtain ⟨q', rfl⟩ := Lister.exists_clean_of_listPath hplugins hdeps hq
      rw [Path.eq_of_clean hsame] at hqe
      exact ⟨e, hget, hqe⟩
  refine ⟨hverdict, fun hdir hroot hroot' => hverdict.2 ⟨deps, ?_, fun p hp => ?_⟩⟩
  · exact Lister.listPath_respell hplugins hdir halike hroot hroot' hdeps
  · obtain ⟨e, -, hget⟩ := hrecorded p hp
    rw [hget]
    rfl

end Detector

/-! ## Spellings of a root that imports -/

/-- The file system in which every path leads to a file with one text, unless it is longer than a path can be. -/
def FileSystem.everywhere (text : String) : FileSystem where
  read p := if p.bytes.length < Disk.pathLimit then .ok (Text.Utf8.ofString text) else .error (.notFound p)
  contains p := .ok (decide (p.bytes.length < Disk.pathLimit))
  modified p := if p.bytes.length < Disk.pathLimit then .ok ⟨100, 0⟩ else .error (.notFound p)
  finite := by
    obtain ⟨all, hall⟩ := Disk.exists_lists Disk.pathLimit
    refine ⟨all.map fun bytes => (Path.mk bytes).components, fun p bytes h _ => ?_⟩
    refine List.mem_map.2 ⟨p.bytes, hall _ ?_, rfl⟩
    by_contra hlong
    rw [if_neg fun hshort => hlong (le_of_lt hshort)] at h
    cases h

theorem FileSystem.everywhere_alike (text : String) {p q : Path} (hp : p.bytes.length < Disk.pathLimit)
    (hq : q.bytes.length < Disk.pathLimit) : (everywhere text).Alike p q := by
  refine ⟨fun bytes => ?_, fun b => ?_, fun t => ?_⟩ <;> simp [everywhere, hp, hq]

/-- The one import there is leads to `a.less`, from wherever in the directory. -/
theorem FileSystem.everywhere_neverImports {p : Path} (hp : p.components ≠ (Path.ofString "a.less").components) :
    (everywhere "@import \"a\";").NeverImports {} (.ofString "main.less") p := by
  intro bytes text r hread htext hprocessed
  obtain rfl : bytes = Text.Utf8.ofString "@import \"a\";" := (Except.ok.inj hread).symm
  obtain rfl : text = "@import \"a\";".toList := Except.ok.inj (htext.symm.trans (by cbv))
  have hr : processor (everywhere "@import \"a\";") (.searching (everywhere "@import \"a\";")) "@import \"a\";".toList
      (.ofString "main.less") {} = .ok ⟨[.ofString "a.less"], [⟨.ofString "main.less", "@import \"a\";".toList⟩,
        ⟨.ofString "a.less", "@import \"a\";".toList⟩]⟩ := by cbv
  obtain rfl := Except.ok.inj (hr.symm.trans hprocessed)
  rintro t q ⟨u, hu, tasks, htasks, ht⟩ himport
  have hleads : t.import? (.searching (everywhere "@import \"a\";") {}) = .ok (some (.ofString "a.less")) := by
    simp only [List.mem_cons, List.not_mem_nil, or_false] at hu
    rcases hu with rfl | rfl
    · obtain rfl : [⟨.ofString "main.less", .empty, ⟨"a", {}, 1⟩⟩] = tasks := Except.ok.inj (Eq.trans (by cbv) htasks)
      obtain rfl := List.mem_singleton.1 ht
      cbv
    · obtain rfl : [⟨.ofString "a.less", .empty, ⟨"a", {}, 1⟩⟩] = tasks := Except.ok.inj (Eq.trans (by cbv) htasks)
      obtain rfl := List.mem_singleton.1 ht
      cbv
  obtain rfl := Option.some.inj (Except.ok.inj (hleads.symm.trans himport))
  exact hp.symm

/-- A root and the same root after a leading `.`. -/
theorem Detector.check_of_current_spelling :
    let fs := FileSystem.everywhere "@import \"a\";"
    let d := Detector.standard fs {} MemoryStore.store .mtime (.ofString "/p")
    ∃ entry s, fs.Alike (.ofString "main.less") (.ofString "./main.less") ∧
      CacheKey.ofRoot (.ofString "/p") (.ofString "main.less") = .ofRoot (.ofString "/p") (.ofString "./main.less") ∧
      (d.snapshot (.ofString "main.less")).result = .ok entry ∧
      MemoryStore.store.load (.ofRoot (.ofString "/p") (.ofString "main.less")) s = .ok (some entry) ∧
      fs.NeverImports {} (.ofString "main.less") (.ofString "main.less") ∧
      fs.NeverImports {} (.ofString "main.less") (.ofString "./main.less") ∧
      (d.check (.ofString "./main.less") s).result = .ok false := by
  let fs := FileSystem.everywhere "@import \"a\";"
  let entry : CacheEntry := .ofList (.ofString "main.less") (.modified 100 0) [(.ofString "a.less", .modified 100 0)]
  have halike : fs.Alike (.ofString "main.less") (.ofString "./main.less") :=
    FileSystem.everywhere_alike _ (by decide) (by decide)
  have hkey : CacheKey.ofRoot (.ofString "/p") (.ofString "main.less")
      = .ofRoot (.ofString "/p") (.ofString "./main.less") := by decide +kernel
  have hsnap : ((Detector.standard fs {} MemoryStore.store .mtime (.ofString "/p")).snapshot
      (.ofString "main.less")).result = .ok entry := by cbv
  obtain ⟨s, hload⟩ : ∃ s, MemoryStore.store.load (.ofRoot (.ofString "/p") (.ofString "main.less")) s
      = .ok (some entry) := ⟨_, MemoryStore.load_insert .empty _ entry⟩
  have hroot : fs.NeverImports {} (.ofString "main.less") (.ofString "main.less") :=
    FileSystem.everywhere_neverImports (by decide)
  have hroot' : fs.NeverImports {} (.ofString "main.less") (.ofString "./main.less") :=
    FileSystem.everywhere_neverImports (by decide)
  have hcheck := (check_of_other_spelling MemoryStore.store .mtime rfl halike hkey hsnap hload).2 (by decide) hroot hroot'
  exact ⟨entry, s, halike, hkey, hsnap, hload, hroot, hroot', hcheck⟩

/-- With an import that leads back to the root, the same two spellings make a difference. -/
example :
    let d := Detector.standard (.everywhere "@import \"main\";") {} MemoryStore.store .mtime .empty
    let entry : CacheEntry := .ofList (.ofString "main.less") (.modified 100 0) []
    (d.snapshot (.ofString "main.less")).result = .ok entry ∧
      (d.checkEntry (.ofString "./main.less") entry).result = .ok true := by
  constructor <;> cbv

/-! ## Spellings of a root that embeds a file -/

namespace FileSystem

/-- Whether nothing but a missing file makes a query fail. -/
structure Faultless (fs : FileSystem) : Prop where
  contains : ∀ p, ∃ b, fs.contains p = .ok b
  read : ∀ p e, fs.read p = .error e → e = .notFound p ∧ fs.contains p = .ok false
  modified : ∀ p e, fs.modified p = .error e → e = .notFound p ∧ fs.contains p = .ok false

/-- The file system in which a path leads to the file that its normal form against a base names. A file is there
under every spelling of its path, however long that is, which is why no file may import others. -/
def ofNormalForms (base : Path) (file? : String → Option (List UInt8))
    (himports : ∀ name bytes, file? name = some bytes → ¬ ImportsSomething bytes) : FileSystem where
  read p :=
    match file? (p.normalizeIn base) with
    | some bytes => .ok bytes
    | none => .error (.notFound p)
  contains p := .ok (file? (p.normalizeIn base)).isSome
  modified p :=
    match file? (p.normalizeIn base) with
    | some _ => .ok ⟨100, 0⟩
    | none => .error (.notFound p)
  finite := by
    refine ⟨[], fun p bytes h himport => ?_⟩
    split at h
    · rename_i found hfound
      cases h
      exact absurd himport (himports _ _ hfound)
    · cases h

section NormalForms

variable {base : Path} {file? : String → Option (List UInt8)}
  {himports : ∀ name bytes, file? name = some bytes → ¬ ImportsSomething bytes}

theorem read_ofNormalForms_eq_ok_iff {p : Path} {bytes : List UInt8} :
    (ofNormalForms base file? himports).read p = .ok bytes ↔ file? (p.normalizeIn base) = some bytes := by
  dsimp only [ofNormalForms]
  cases file? (p.normalizeIn base) <;> simp

theorem modified_ofNormalForms_eq_ok_iff {p : Path} {t : Instant} :
    (ofNormalForms base file? himports).modified p = .ok t ↔ (file? (p.normalizeIn base)).isSome ∧ ⟨100, 0⟩ = t := by
  dsimp only [ofNormalForms]
  cases file? (p.normalizeIn base) <;> simp

theorem ofNormalForms_alike {p q : Path} (h : p.normalizeIn base = q.normalizeIn base) :
    (ofNormalForms base file? himports).Alike p q where
  read bytes := by rw [read_ofNormalForms_eq_ok_iff, read_ofNormalForms_eq_ok_iff, h]
  contains b := by
    have hsame : (ofNormalForms base file? himports).contains p = (ofNormalForms base file? himports).contains q :=
      congrArg (fun name => Except.ok (file? name).isSome) h
    rw [hsame]
  modified t := by rw [modified_ofNormalForms_eq_ok_iff, modified_ofNormalForms_eq_ok_iff, h]

theorem ofNormalForms_faultless : (ofNormalForms base file? himports).Faultless := by
  refine ⟨fun p => ⟨_, rfl⟩, fun p e he => ?_, fun p e he => ?_⟩ <;> dsimp only [ofNormalForms] at he ⊢
  all_goals
    cases hfile : file? (p.normalizeIn base) with
    | some bytes =>
      rw [hfile] at he
      cases he
    | none =>
      rw [hfile] at he
      cases he
      exact ⟨rfl, rfl⟩

end NormalForms

/-- The files of a directory `/p`: a style sheet that embeds an image, and the image. -/
def embeddingFile? (name : String) : Option (List UInt8) :=
  if name = "/p/main.less" then some (Text.Utf8.ofString "@icon: data-uri('b.png');")
  else if name = "/p/b.png" then some []
  else none

theorem not_importsSomething_of_embeddingFile? {name : String} {bytes : List UInt8}
    (h : embeddingFile? name = some bytes) : ¬ ImportsSomething bytes := by
  rintro ⟨text, directives, htext, hparse, hne⟩
  unfold embeddingFile? at h
  split_ifs at h
  · cases h
    obtain rfl : "@icon: data-uri('b.png');".toList = text := Except.ok.inj (Eq.trans (by cbv) htext)
    exact hne (Except.ok.inj (hparse.symm.trans (by cbv)))
  · cases h
    obtain rfl : [] = text := Except.ok.inj (Eq.trans (by cbv) htext)
    exact hne (Except.ok.inj (hparse.symm.trans (by cbv)))

/-- The file system of that directory, in which a file is there under every spelling of its path. -/
def embedding : FileSystem :=
  ofNormalForms (.ofString "/p") embeddingFile? fun _ _ => not_importsSomething_of_embeddingFile?

end FileSystem

/-- A relative root that embeds a file, and the same root as an absolute path, in a file system that answers alike
under all spellings of a path. -/
theorem Detector.check_of_absolute_spelling :
    let fs := FileSystem.embedding
    let d := Detector.standard fs {} MemoryStore.store .mtime (.ofString "/p")
    fs.Faultless ∧ (∀ p q : Path, p.normalizeIn (.ofString "/p") = q.normalizeIn (.ofString "/p") → fs.Alike p q) ∧
    CacheKey.ofRoot (.ofString "/p") (.ofString "main.less")
      = .ofRoot (.ofString "/p") (.ofString "/p/main.less") ∧
    ∃ entry, (d.snapshot (.ofString "main.less")).result = .ok entry ∧
      (d.record entry .empty).1 = .ok () ∧
      (d.check (.ofString "/p/main.less") (d.record entry .empty).2).result = .ok true := by
  let d := Detector.standard .embedding {} MemoryStore.store .mtime (.ofString "/p")
  let entry : CacheEntry := .ofList (.ofString "main.less") (.modified 100 0) [(.ofString "b.png", .modified 100 0)]
  have hkey : CacheKey.ofRoot (.ofString "/p") (.ofString "main.less")
      = .ofRoot (.ofString "/p") (.ofString "/p/main.less") := by decide +kernel
  have hload : MemoryStore.store.load (d.key (.ofString "/p/main.less")) (d.record entry .empty).2
      = .ok (some entry) := by
    show MemoryStore.store.load (.ofRoot (.ofString "/p") (.ofString "/p/main.less")) _ = _
    rw [← hkey]
    exact MemoryStore.load_insert .empty _ entry
  refine ⟨FileSystem.ofNormalForms_faultless, fun p q => FileSystem.ofNormalForms_alike, hkey, entry, ?_, rfl, ?_⟩
  · cbv
  · rw [check_of_load hload]
    cbv

end StyleTrack
