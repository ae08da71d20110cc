/-
The store in a directory as a map from keys to documents. A usable directory holds one document for each key; a
save replaces the one of its key or, if the entry cannot be written down, nothing; and a delete takes it away.
Only the empty path, which names no directory although files can be put behind it, keeps what it holds.
-/
import StyleTrack.Proofs.Cache.Record
import StyleTrack.Proofs.Cache.Store
import StyleTrack.Proofs.File.Folder

namespace StyleTrack

open Component (slash dot)

namespace DirectoryStore

open Digest.Sha256 (digits)
open Text.Utf8 (ofString encode)

/-! ## File names from keys -/

/-- The name of a file of a key. -/
def fileName (key : CacheKey) (extension : String) : FileName := ofString (key.digest ++ extension)

theorem fileOf_eq (dir : Path) (key : CacheKey) (extension : String) :
    fileOf dir key extension = dir.join ⟨fileName key extension⟩ := rfl

/-- Whether a file in the directory belongs to the store. -/
def IsStored (name : FileName) : Prop :=
  ∃ key extension, key.OfRoot ∧ (extension = ".toml" ∨ extension = ".lock") ∧ name = fileName key extension

variable {key other : CacheKey} {extension : String} {dir : Path} {d : Disk}

theorem isStored_entry (h : key.OfRoot) : IsStored (fileName key ".toml") := ⟨key, _, h, .inl rfl, rfl⟩

theorem isStored_lock (h : key.OfRoot) : IsStored (fileName key ".lock") := ⟨key, _, h, .inr rfl, rfl⟩

/-- A file name is one byte for each of its characters, none of them a separator or zero. -/
theorem encode_fileName {s : List Char} (h : ∀ c ∈ s, c ∈ digits ++ ".tomlck".toList) :
    (encode s).length = s.length ∧ slash ∉ encode s ∧ 0 ∉ encode s := by
  have hchars : (digits ++ ".tomlck".toList).all (fun c => (String.utf8EncodeChar c).length = 1 ∧
      slash ∉ String.utf8EncodeChar c ∧ 0 ∉ String.utf8EncodeChar c) = true := by decide
  induction s with
  | nil => exact ⟨rfl, by simp [encode], by simp [encode]⟩
  | cons c s ih =>
    obtain ⟨hlength, hslash, hzero⟩ := ih fun c' hc' => h c' (List.mem_cons_of_mem _ hc')
    obtain ⟨hlength', hslash', hzero'⟩ := of_decide_eq_true (List.all_eq_true.1 hchars c (h c List.mem_cons_self))
    have hcons : encode (c :: s) = String.utf8EncodeChar c ++ encode s := rfl
    rw [hcons]
    refine ⟨?_, ?_, ?_⟩
    · rw [List.length_append, hlength, hlength', List.length_cons]
      omega
    · simp [hslash, hslash']
    · simp [hzero, hzero']

theorem fileName_spec (hkey : key.OfRoot) (hextension : extension = ".toml" ∨ extension = ".lock") :
    (fileName key extension).length = 69 ∧ slash ∉ fileName key extension ∧ 0 ∉ fileName key extension := by
  obtain ⟨base, root, rfl⟩ := hkey
  have hdigits : ∀ c ∈ (CacheKey.ofRoot base root).digest.toList, c ∈ digits := fun c hc =>
    Digest.Sha256.mem_digits_of_mem_hex hc
  have hlength : (CacheKey.ofRoot base root).digest.toList.length = 64 := Digest.Sha256.length_hex _
  have hchars : extension.toList ⊆ ".tomlck".toList := by
    rcases hextension with rfl | rfl <;> decide
  have hfive : extension.toList.length = 5 := by
    rcases hextension with rfl | rfl <;> decide
  have hname := encode_fileName (s := ((CacheKey.ofRoot base root).digest ++ extension).toList) (by
    intro c hc
    rw [String.toList_append] at hc
    rcases List.mem_append.1 hc with hc | hc
    · exact List.mem_append_left _ (hdigits c hc)
    · exact List.mem_append_right _ (hchars hc))
  rw [String.toList_append, List.length_append, hlength, hfive] at hname
  rw [fileName, ofString, String.toList_append]
  exact hname

/-- The names of the store can be put behind any path that leaves room for them. -/
theorem fits_of_isStored (hzero : 0 ∉ dir.bytes) (hlength : dir.bytes.length + 70 < Disk.pathLimit) {name : FileName}
    (hname : IsStored name) : Disk.Fits dir name := by
  obtain ⟨key, extension, hkey, hextension, rfl⟩ := hname
  obtain ⟨hlen, hslash, hzero'⟩ := fileName_spec hkey hextension
  have hshort : ∀ s : List UInt8, s.length < 69 → fileName key extension ≠ s := by
    rintro s hs rfl
    omega
  exact {
    isName := {
      ne_nil := hshort _ (by decide)
      ne_current := hshort _ (by decide)
      ne_parent := hshort _ (by decide)
      length_le := by rw [hlen]; decide }
    slash_not_mem := hslash
    zero_not_mem := ⟨hzero, hzero'⟩
    length_lt := by omega }

/-- Files of different digests have different names, and so have entries and locks. -/
theorem fileName_inj {extension' : String} (hlength : extension.toList.length = extension'.toList.length)
    (h : fileName key extension = fileName other extension') : key.digest = other.digest ∧ extension = extension' := by
  have hstring := Text.Utf8.ofString_injective h
  have hlist := congrArg String.toList hstring
  rw [String.toList_append, String.toList_append] at hlist
  obtain ⟨hdigest, hext⟩ := List.append_inj' hlist hlength
  exact ⟨String.toList_inj.1 hdigest, String.toList_inj.1 hext⟩

theorem entry_ne_of_digest_ne (h : key.digest ≠ other.digest) : fileName key ".toml" ≠ fileName other ".toml" :=
  fun heq => h (fileName_inj rfl heq).1

theorem entry_ne_lock : fileName key ".toml" ≠ fileName other ".lock" := by
  intro heq
  have hlength : ".toml".toList.length = ".lock".toList.length := by decide
  have hextension : ".toml" ≠ ".lock" := by decide
  exact hextension (fileName_inj hlength heq).2

/-! ## Documents -/

/-- Whether the store can work in a directory: it is one already, or can be made one that is free of documents. -/
def Works (dir : Path) (d : Disk) : Prop := Disk.Usable IsStored dir d

/-- The document of a key, if there is one. -/
def documentAt (dir : Path) (key : CacheKey) (d : Disk) : Option (List UInt8) := d.held dir (fileName key ".toml")

/-- A store works in a new directory, and has no documents there. -/
theorem works_of_fresh (hlength : dir.bytes.length + 70 < Disk.pathLimit) (hfresh : Disk.Fresh dir d) :
    Works dir d ∧ ∀ key, key.OfRoot → documentAt dir key d = none := by
  obtain ⟨hworks, hheld⟩ := hfresh.usable fun name hname => fits_of_isStored hfresh.plain.1 hlength hname
  exact ⟨hworks, fun key hkey => hheld _ (isStored_entry hkey)⟩

/-- What a load makes of a document. -/
def answer (dir : Path) (key : CacheKey) : Option (List UInt8) → Except StoreError (Option CacheEntry)
  | none => .ok none
  | some bytes =>
    match Text.Utf8.decode bytes with
    | .error _ => .error (access Disk.notText)
    | .ok text => interpret (entryPath dir key) key text

theorem load_eq (hworks : Works dir d) (hkey : key.OfRoot) : load dir key d = answer dir key (documentAt dir key d) := by
  have hcontent := Disk.Usable.contentOf hworks (isStored_entry hkey)
  unfold load documentAt
  rw [Disk.readText, entryPath, fileOf_eq, hcontent]
  cases d.held dir (fileName key ".toml") with
  | none => rfl
  | some bytes =>
    dsimp only [bind, Except.bind, answer]
    cases Text.Utf8.decode bytes <;> rfl

/-! ## Changes -/

theorem locked_spec (hworks : Works dir d) (hkey : key.OfRoot) : ∃ d', locked dir key d = (.ok (), d') ∧
    Disk.Opened IsStored dir d' ∧ ∀ other, other.OfRoot → documentAt dir other d' = documentAt dir other d := by
  obtain ⟨d', hmade, hopened, hheld⟩ := Disk.Usable.ensureDirectories hworks (isStored_lock hkey)
  obtain ⟨d'', hset, hopened', -, hother⟩ := hopened.setFile hworks.fits (isStored_lock hkey) [] ⟨0, 0⟩
  refine ⟨d'', ?_, hopened', fun other hkey' => ?_⟩
  · unfold locked
    rw [hmade]
    dsimp only
    rw [lockPath, fileOf_eq, hset]
  · rw [documentAt, documentAt, hother _ (isStored_entry hkey') entry_ne_lock, hheld _ (isStored_entry hkey')]

/-- What a save does: nothing if the entry cannot be written down, and else it replaces the document of its key. -/
theorem save_spec (hworks : Works dir d) (hkey : key.OfRoot) (now : String) (entry : CacheEntry) :
    ∃ d', save dir now key entry d = ((document now key entry).map fun _ => (), d') ∧ Works dir d' ∧
      (∀ other, other.OfRoot → documentAt dir other d' =
        match document now key entry with
        | .error _ => documentAt dir other d
        | .ok bytes => if key.digest = other.digest then some bytes else documentAt dir other d) := by
  obtain ⟨d', hlocked, hopened, hsame⟩ := locked_spec hworks hkey
  unfold save
  rw [hlocked]
  dsimp only
  cases hdocument : document now key entry with
  | error fault => exact ⟨d', rfl, ⟨hworks.fits, .inl hopened⟩, hsame⟩
  | ok bytes =>
    obtain ⟨d'', hset, hopened', hheld, hother⟩ := hopened.setFile hworks.fits (isStored_entry hkey) bytes ⟨0, 0⟩
    dsimp only
    rw [entryPath, fileOf_eq, hset]
    refine ⟨d'', rfl, ⟨hworks.fits, .inl hopened'⟩, fun other hkey' => ?_⟩
    by_cases hdigest : key.digest = other.digest
    · rw [if_pos hdigest, documentAt, fileName, ← hdigest]
      exact hheld
    · rw [if_neg hdigest, ← hsame other hkey']
      exact hother _ (isStored_entry hkey') (entry_ne_of_digest_ne (Ne.symm hdigest))

/-- What a delete does: it takes away the document of its key, unless the path of the store is empty. -/
theorem delete_spec (hworks : Works dir d) (hkey : key.OfRoot) :
    ∃ d', delete dir key d = (.ok (), d') ∧ Works dir d' ∧ ∀ other, other.OfRoot → documentAt dir other d' =
      if dir.bytes ≠ [] ∧ key.digest = other.digest then none else documentAt dir other d := by
  unfold delete
  by_cases hcontains : d.contains dir = true
  · obtain ⟨d', hlocked, hopened, hsame⟩ := locked_spec hworks hkey
    have hne : dir.bytes ≠ [] := by
      intro hnil
      have hempty : d.contains dir = false := by
        rw [Disk.contains, Disk.stat, Disk.locate, Disk.origin, hnil]
        rfl
      rw [hempty] at hcontains
      cases hcontains
    rw [hcontains, hlocked]
    dsimp only
    rw [Bool.not_true, if_neg Bool.false_ne_true, entryPath, fileOf_eq]
    rcases hopened.eraseFile hworks.fits (isStored_entry hkey) with ⟨hnone, herase⟩ | ⟨d'', herase, hopened', hheld, hother⟩
    · rw [herase]
      refine ⟨d', by simp [Disk.noEntry], ⟨hworks.fits, .inl hopened⟩, fun other hkey' => ?_⟩
      by_cases hdigest : key.digest = other.digest
      · rw [if_pos ⟨hne, hdigest⟩, documentAt, fileName, ← hdigest]
        exact hnone
      · rw [if_neg fun h => hdigest h.2, hsame other hkey']
    · rw [herase]
      refine ⟨d'', rfl, ⟨hworks.fits, .inl hopened'⟩, fun other hkey' => ?_⟩
      by_cases hdigest : key.digest = other.digest
      · rw [if_pos ⟨hne, hdigest⟩, documentAt, fileName, ← hdigest]
        exact hheld
      · rw [if_neg fun h => hdigest h.2, ← hsame other hkey']
        exact hother _ (isStored_entry hkey') (entry_ne_of_digest_ne (Ne.symm hdigest))
  · rw [Bool.not_eq_true] at hcontains
    rw [hcontains]
    refine ⟨d, rfl, hworks, fun other hkey' => ?_⟩
    split_ifs with h
    · -- nothing is there that could hold a document
      rcases hworks.ready with ⟨n, hleads, hshelf⟩ | hmake
      · have hthere := Disk.contains_of_leads hleads (hworks.fits _ (isStored_entry hkey)) h.1
        rw [hthere] at hcontains
        cases hcontains
      · have hnone := Disk.contentOf_of_absent hmake.ne_nil hmake.absent (hworks.fits _ (isStored_entry hkey'))
        rw [documentAt, Disk.held, hnone]
        rfl
    · rfl

/-! ## Entries -/

theorem interpret_eq {path : Path} {text : List Char} {r : CacheRecord} (hread : CacheRecord.read text = some r)
    (hversion : r.version = CacheRecord.currentVersion) (key : CacheKey) :
    interpret path key text = .ok (if r.root = key.path then some r.toEntry else none) := by
  rw [interpret, hread]
  dsimp only
  rw [if_neg (not_not_intro hversion)]
  by_cases hroot : r.root = key.path
  · rw [if_neg (not_not_intro hroot), if_pos hroot]
  · rw [if_pos hroot, if_neg hroot]

/-- The document of an entry that can be written down says the entry to its own key, and nothing to others. -/
theorem document_spec {now : String} {entry : CacheEntry} (key : CacheKey) (hentry : entry.IsProper)
    (hnow : Text.Timestamp.isStamp now.toList = true) :
    (entry.Writable ∧ ∃ bytes, document now key entry = .ok bytes ∧
      ∀ dir other, answer dir other (some bytes) = .ok (if key.path = other.path then some entry else none)) ∨
      ¬ entry.Writable ∧ ∃ fault, document now key entry = .error (.serialization fault) := by
  rcases CacheRecord.ofEntry_spec key hentry hnow with ⟨hpaths, r, hr, hproper, hversion, hroot, hback, hfits⟩ | ⟨hpaths, fault, hfault⟩
  · rcases CacheRecord.text_spec hproper with ⟨hearly, text, htext, hread⟩ | ⟨hlate, fault, hfault⟩
    · refine .inl ⟨⟨hpaths.1, hpaths.2, hfits.1 hearly⟩, encode text, ?_, fun dir other => ?_⟩
      · simp only [document, hr, Except.bind, htext, Except.mapError]
        rfl
      · rw [answer, Text.Utf8.decode_encode]
        dsimp only
        rw [interpret_eq hread hversion, hroot, hback]
    · refine .inr ⟨fun h => hlate (hfits.2 h.fits), fault, ?_⟩
      simp only [document, hr, Except.bind, hfault, Except.mapError]
      rfl
  · refine .inr ⟨fun h => hpaths ⟨h.root, h.dependencies⟩, fault, ?_⟩
    simp only [document, hfault, Except.bind, Except.mapError]
    rfl

end DirectoryStore

end StyleTrack
