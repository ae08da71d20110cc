/-
Paths of files in a directory that a path names. As long as the path leads to a directory, the files in it are
written, read and removed by name; as long as nothing is at the path, no file is found behind it.
-/
import StyleTrack.Proofs.File.Disk

namespace StyleTrack.Disk

open Component (slash dot)

variable {d d' : Disk} {dir : Path} {name : FileName} {n : Nat}

/-! ## Where a directory leads -/

/-- Where the segments of a path are followed from. -/
def start (d : Disk) (p : Path) : Nat := if p.isAbsolute then 0 else d.working

/-- Whether the files that are named behind a path are those of the directory with a number. The empty path
stands for the working directory here. -/
def Leads (d : Disk) (dir : Path) (n : Nat) : Prop := d.follow (d.start dir) (dir.segments ++ [[]]) = .ok (.found n)

theorem Leads.keeps (h : d.Leads dir n) (hkeeps : Keeps d d') : d'.Leads dir n := by
  unfold Leads start at h ⊢
  obtain ⟨-, hdir⟩ := follow_append_nil.1 h
  rw [hkeeps.working]
  exact hkeeps.follow hdir h

/-- Whether a name can be put behind a path. -/
structure Fits (dir : Path) (name : FileName) : Prop where
  isName : IsName name
  slash_not_mem : slash ∉ name
  zero_not_mem : 0 ∉ dir.bytes ∧ 0 ∉ name
  length_lt : dir.bytes.length + name.length + 1 < pathLimit

theorem Fits.isAbsolute (h : Fits dir name) : (⟨name⟩ : Path).isAbsolute = false := by
  obtain ⟨b, rest, rfl⟩ := List.exists_cons_of_ne_nil h.isName.ne_nil
  have hb : b ≠ slash := fun hb => h.slash_not_mem (by rw [hb]; exact List.mem_cons_self)
  simp [Path.isAbsolute, hb]

/-- The segments of a path with a name put behind it: the segments of the path, but for what is behind its last
separator, and the name. -/
theorem segments_join (h : Fits dir name) : ∃ segments, (dir.join ⟨name⟩).segments = segments ++ [name] ∧
    (dir.segments = segments ∨ dir.segments = segments ++ [[]]) := by
  have hname := List.splitOn_eq_singleton h.slash_not_mem
  unfold Path.join Path.segments
  rw [h.isAbsolute, if_neg Bool.false_ne_true]
  split_ifs with hlast
  · rcases hlast with hnil | hlast
    · refine ⟨[], ?_, .inr ?_⟩
      · show (dir.bytes ++ name).splitOn slash = _
        rw [hnil, List.nil_append, hname]
        rfl
      · rw [hnil]
        rfl
    · obtain ⟨pre, hpre⟩ := List.getLast?_eq_some_iff.1 hlast
      refine ⟨pre.splitOn slash, ?_, .inr ?_⟩
      · show (dir.bytes ++ name).splitOn slash = _
        rw [hpre, List.append_assoc, List.singleton_append, List.splitOn_append_cons_self, hname]
      · rw [hpre, List.splitOn_append_cons_self]
        rfl
  · refine ⟨dir.bytes.splitOn slash, ?_, .inl rfl⟩
    show (dir.bytes ++ slash :: name).splitOn slash = _
    rw [List.splitOn_append_cons_self, hname]

theorem start_join (h : Fits dir name) : d.start (dir.join ⟨name⟩) = d.start dir := by
  unfold start
  congr 2
  unfold Path.join
  rw [h.isAbsolute, if_neg Bool.false_ne_true]
  split_ifs with hlast
  · by_cases hnil : dir.bytes = []
    · have hname := h.isAbsolute
      simpa [Path.isAbsolute, hnil] using hname
    · exact Path.isAbsolute_append hnil name
  · exact Path.isAbsolute_append (fun hnil => hlast (.inl hnil)) (slash :: name)

theorem origin_eq {p : Path} (hzero : 0 ∉ p.bytes) (hne : p.bytes ≠ []) (hlength : p.bytes.length < pathLimit) :
    d.origin p = .ok (d.start p) := by
  unfold origin
  rw [if_neg (by simpa using hzero), if_neg hne, if_neg (by omega)]
  rfl

theorem origin_join (h : Fits dir name) : d.origin (dir.join ⟨name⟩) = .ok (d.start dir) := by
  rw [← start_join h]
  have hslash : (0 : UInt8) ≠ slash := by decide
  have hlength := h.length_lt
  have hne := h.isName.ne_nil
  refine origin_eq ?_ ?_ ?_
  all_goals unfold Path.join; rw [h.isAbsolute, if_neg Bool.false_ne_true]
  · split_ifs <;> simp [h.zero_not_mem, hslash]
  · split_ifs <;> simp [hne]
  · split_ifs <;> simp <;> omega

section Leading

variable (hleads : d.Leads dir n) (hfits : Fits dir name)
include hleads hfits

theorem follow_join : ∃ segments, (dir.join ⟨name⟩).segments = segments ++ [name] ∧
    d.follow (d.start dir) segments = .ok (.found n) ∧ (d.directory? n).isSome := by
  obtain ⟨segments, hjoin, hdir⟩ := segments_join hfits
  refine ⟨segments, hjoin, ?_⟩
  obtain ⟨hfollow, hisdir⟩ := follow_append_nil.1 hleads
  rcases hdir with hdir | hdir
  · rw [hdir] at hfollow
    exact ⟨hfollow, hisdir⟩
  · rw [hdir] at hfollow
    exact follow_append_nil.1 hfollow

/-- A file that is named behind a path stands in the directory that the path leads to. -/
theorem site_join : d.site (dir.join ⟨name⟩) = .ok ⟨n, name, false⟩ := by
  obtain ⟨segments, hjoin, hfollow, hisdir⟩ := follow_join hleads hfits
  have hne := hfits.isName.ne_nil
  have hnames : ((segments ++ [name]).reverse.dropWhile (· = [])).reverse = segments ++ [name] := by
    rw [List.reverse_append, List.reverse_singleton, List.singleton_append,
      List.dropWhile_cons_of_neg (by simpa using hne)]
    simp
  have hparent : d.follow (d.start dir) (segments ++ [[]]) = .ok (.found n) := follow_append_nil.2 ⟨hfollow, hisdir⟩
  simp only [site, bind, Except.bind, origin_join hfits, hjoin, hnames, List.dropLast_concat, hparent,
    List.getLast?_concat]
  simp [pure, Except.pure, hne]

theorem locate_join : d.locate (dir.join ⟨name⟩) = d.follow n [name] := by
  obtain ⟨segments, hjoin, hfollow, hisdir⟩ := follow_join hleads hfits
  unfold locate
  rw [origin_join hfits, hjoin]
  exact follow_append hfollow [name]

end Leading

/-! ## Nothing there -/

/-- Whether following a path ends at a name that is not there. -/
def Absent (place : Except IoFault Place) : Prop := place = .error noEntry ∨ ∃ m name, place = .ok (.missing m name)

theorem not_absent_of_ne {fault : IoFault} (hne : fault ≠ noEntry) : ¬ Absent (.error fault) := by
  rintro (h | ⟨m, name, h⟩)
  · cases h
    exact hne rfl
  · cases h

/-- What is not there holds nothing. -/
theorem follow_append_of_absent {here : Nat} {segments rest : List FileName} (h : Absent (d.follow here segments))
    (hrest : ∃ segment ∈ rest, segment ≠ []) : d.follow here (segments ++ rest) = .error noEntry := by
  induction segments generalizing here with
  | nil => rcases h with h | ⟨m, name, h⟩ <;> cases h
  | cons segment segments ih =>
    cases hnext : d.next? here segment with
    | some next =>
      rw [follow_cons_of_next? hnext] at h
      rw [List.cons_append, follow_cons_of_next? hnext, ih h]
    | none =>
      rcases follow_cons_of_next?_eq_none hnext with ⟨fault, hne, hfault⟩ | hmissing
      · rw [hfault] at h
        exact absurd h (not_absent_of_ne hne)
      · obtain ⟨name, hmem, hne⟩ := hrest
        rw [List.cons_append, hmissing, if_neg]
        intro hall
        exact hne (by simpa using List.all_eq_true.1 hall name (List.mem_append_right _ hmem))

/-- What is not a directory is not absent, even with a separator behind it. -/
theorem absent_of_append_nil {here : Nat} {segments : List FileName} (h : Absent (d.follow here (segments ++ [[]]))) :
    Absent (d.follow here segments) := by
  induction segments generalizing here with
  | nil =>
    rw [List.nil_append] at h
    cases hhere : d.directory? here with
    | none =>
      rw [follow, hhere] at h
      exact absurd h (not_absent_of_ne (by decide))
    | some there =>
      have hfound : d.follow here [[]] = .ok (.found here) := follow_nil_segment.2 ⟨rfl, by rw [hhere]; rfl⟩
      rw [hfound] at h
      rcases h with h | ⟨m, name, h⟩ <;> cases h
  | cons segment segments ih =>
    rw [List.cons_append] at h
    cases hnext : d.next? here segment with
    | some next =>
      rw [follow_cons_of_next? hnext] at h ⊢
      exact ih h
    | none =>
      rcases follow_cons_of_next?_eq_none hnext with ⟨fault, hne, hfault⟩ | hmissing
      · rw [hfault] at h
        exact absurd h (not_absent_of_ne hne)
      · rw [hmissing]
        split_ifs
        · exact .inr ⟨here, segment, rfl⟩
        · exact .inl rfl

/-! ## Directories that are there, and those that can be made -/

theorem locate_eq (hfits : Fits dir name) (hne : dir.bytes ≠ []) :
    d.locate dir = d.follow (d.start dir) dir.segments := by
  have hlength := hfits.length_lt
  rw [locate, origin_eq hfits.zero_not_mem.1 hne (by omega)]

theorem locate_of_leads (hleads : d.Leads dir n) (hfits : Fits dir name) (hne : dir.bytes ≠ []) :
    d.locate dir = .ok (.found n) ∧ (d.directory? n).isSome := by
  rw [locate_eq hfits hne]
  exact follow_append_nil.1 hleads

theorem stat_of_leads (hleads : d.Leads dir n) (hfits : Fits dir name) (hne : dir.bytes ≠ []) :
    ∃ parent entries, d.stat dir = .ok (.directory parent entries) := by
  obtain ⟨hlocate, hisdir⟩ := locate_of_leads hleads hfits hne
  obtain ⟨⟨parent, entries⟩, hdir⟩ := Option.isSome_iff_exists.1 hisdir
  refine ⟨parent, entries, ?_⟩
  rw [stat, hlocate]
  dsimp only
  rw [directory?_eq_some_iff.1 hdir]

theorem contains_of_leads (hleads : d.Leads dir n) (hfits : Fits dir name) (hne : dir.bytes ≠ []) :
    d.contains dir = true := by
  obtain ⟨parent, entries, hstat⟩ := stat_of_leads hleads hfits hne
  rw [contains, hstat]
  rfl

theorem follow_current (hhere : (d.directory? n).isSome) : d.follow n [[dot]] = .ok (.found n) := by
  obtain ⟨there, hthere⟩ := Option.isSome_iff_exists.1 hhere
  have hnext : d.next? n [dot] = some n := by
    rw [next?, hthere]
    simp
  exact follow_cons_eq_found.2 ⟨n, hnext, rfl⟩

/-- The last name of a path that leads to a directory stands in a directory, and is taken there. -/
theorem site_of_leads (hleads : d.Leads dir n) (hfits : Fits dir name) (hne : dir.bytes ≠ []) :
    ∃ site k, d.site dir = .ok site ∧ d.occupant site = .ok (.found k) := by
  have hlength := hfits.length_lt
  obtain ⟨trailing, hsegments⟩ : ∃ trailing, dir.segments = (dir.segments.reverse.dropWhile (· = [])).reverse ++ trailing := by
    refine ⟨(dir.segments.reverse.takeWhile (· = [])).reverse, ?_⟩
    rw [← List.reverse_append, List.takeWhile_append_dropWhile, List.reverse_reverse]
  unfold Leads at hleads
  rw [hsegments] at hleads
  generalize hnames : (dir.segments.reverse.dropWhile (· = [])).reverse = names at hleads
  -- trailing separators aside, the last name stands where the others lead; without a name it is `.`
  have hparent : ∃ m k, d.follow (d.start dir) (names.dropLast ++ [[]]) = .ok (.found m) ∧
      d.follow m [names.getLast?.getD [dot]] = .ok (.found k) := by
    rcases List.eq_nil_or_concat names with rfl | ⟨init, last, rfl⟩
    · rw [List.nil_append] at hleads
      have hstart : d.follow (d.start dir) ([] ++ (trailing ++ [[]])) = .ok (.found n) := hleads
      obtain ⟨between, hbetween, hisdir, -⟩ := exists_of_follow_append (by simp) hstart
      cases hbetween
      exact ⟨_, _, follow_nil_segment.2 ⟨rfl, hisdir⟩, follow_current hisdir⟩
    · rw [List.concat_eq_append, List.append_assoc, List.append_assoc] at hleads
      obtain ⟨m, hm, hisdir, hrest⟩ := exists_of_follow_append (by simp) hleads
      obtain ⟨k, hk, -⟩ := follow_cons_eq_found.1 hrest
      refine ⟨m, k, ?_, ?_⟩
      · rw [List.concat_eq_append, List.dropLast_concat]
        exact follow_append_nil.2 ⟨hm, hisdir⟩
      · rw [List.concat_eq_append, List.getLast?_concat]
        exact follow_cons_eq_found.2 ⟨k, hk, rfl⟩
  obtain ⟨m, k, hm, hk⟩ := hparent
  refine ⟨⟨m, names.getLast?.getD [dot], decide (dir.segments.getLast? = some [])⟩, k, ?_, hk⟩
  simp only [site, bind, Except.bind, origin_eq hfits.zero_not_mem.1 hne (by omega), hnames, hm]
  rfl

/-- A directory that is there is as good as one that is made. -/
theorem ensureDirectories_of_leads (hleads : d.Leads dir n) (hfits : Fits dir name) :
    d.ensureDirectories dir = (.ok (), d) := by
  unfold ensureDirectories ensureDirectoriesFrom
  by_cases hne : dir.bytes = []
  · rw [if_pos hne]
  · obtain ⟨site, k, hsite, hoccupant⟩ := site_of_leads hleads hfits hne
    have hmake : d.makeDirectory dir = .error entryExists := by
      simp only [makeDirectory, bind, Except.bind, hsite, hoccupant]
      rfl
    have hhas : d.hasDirectory dir = true := by
      obtain ⟨parent, entries, hstat⟩ := stat_of_leads hleads hfits hne
      rw [hasDirectory, hstat]
    rw [if_neg hne, hmake]
    dsimp only
    rw [if_pos (by decide), hhas]
    rfl

/-! ## Files behind a path -/

section Files

variable {names : FileName → Prop} {content : List UInt8} {modified : Instant}
  (hleads : d.Leads dir n) (hshelf : Shelf names d n) (hfits : Fits dir name) (hname : names name)
include hleads hshelf hfits hname

/-- A file behind a path is read by its name in the directory. -/
theorem contentOf_join : d.contentOf (dir.join ⟨name⟩) =
    match d.fileAt n name with
    | some content => .ok content
    | none => .error noEntry := by
  obtain ⟨⟨parent, entries⟩, hdir⟩ := Option.isSome_iff_exists.1 hshelf.isSome
  rw [contentOf, stat, locate_join hleads hfits, follow_name hfits.isName hdir, fileAt_eq hdir]
  cases hget : entries.get? name with
  | none => rfl
  | some k =>
    obtain ⟨content, modified, hnode⟩ := hshelf.file parent entries name k hdir hname hget
    simp [hnode, content?]

/-- Writing a file behind a path changes the file with its name. -/
theorem setFile_join : ∃ d', d.setFile (dir.join ⟨name⟩) content modified = .ok d' ∧
    Changed names d n name (some content) d' := by
  obtain ⟨⟨parent, entries⟩, hdir⟩ := Option.isSome_iff_exists.1 hshelf.isSome
  have hoccupant := follow_name hfits.isName hdir
  cases hget : entries.get? name with
  | none =>
    rw [hget] at hoccupant
    refine ⟨d.add n name (.file content modified), ?_, changed_add hdir hshelf hget⟩
    simp only [setFile, bind, Except.bind, site_join hleads hfits, occupant, hoccupant]
    rfl
  | some k =>
    rw [hget] at hoccupant
    obtain ⟨c, t, hnode⟩ := hshelf.file parent entries name k hdir hname hget
    have hfile : (d.directory? k).isSome = false := by rw [directory?, hnode]; rfl
    refine ⟨d.replace k (.file content modified), ?_, changed_replace hdir hshelf hname hget⟩
    simp only [setFile, bind, Except.bind, site_join hleads hfits, occupant, hoccupant, hfile]
    rfl

/-- Removing a file behind a path takes away the file with its name. -/
theorem eraseFile_join : (d.fileAt n name = none ∧ d.eraseFile (dir.join ⟨name⟩) = .error noEntry) ∨
    ∃ d', d.eraseFile (dir.join ⟨name⟩) = .ok d' ∧ Changed names d n name none d' := by
  obtain ⟨⟨parent, entries⟩, hdir⟩ := Option.isSome_iff_exists.1 hshelf.isSome
  have hoccupant := follow_name hfits.isName hdir
  cases hget : entries.get? name with
  | none =>
    rw [hget] at hoccupant
    refine .inl ⟨by rw [fileAt_eq hdir, hget]; rfl, ?_⟩
    simp only [eraseFile, bind, Except.bind, site_join hleads hfits, occupant, hoccupant]
    rfl
  | some k =>
    rw [hget] at hoccupant
    obtain ⟨c, t, hnode⟩ := hshelf.file parent entries name k hdir hname hget
    have hfile : (d.directory? k).isSome = false := by rw [directory?, hnode]; rfl
    refine .inr ⟨_, ?_, changed_erase hdir hshelf hname hget⟩
    simp only [eraseFile, bind, Except.bind, site_join hleads hfits, occupant, hoccupant, hfile]
    rfl

end Files

/-! ## Directories that can be used -/

/-- The content of a file behind a path, if there is one. -/
def held (d : Disk) (dir : Path) (name : FileName) : Option (List UInt8) := (d.contentOf (dir.join ⟨name⟩)).toOption

/-- Whether a path leads to a directory in which some names are free or those of files of their own. -/
def Opened (names : FileName → Prop) (dir : Path) (d : Disk) : Prop := ∃ n, d.Leads dir n ∧ Shelf names d n

/-- Whether nothing is at a path, and making a directory there gives one in which some names are free. -/
structure Makeable (names : FileName → Prop) (dir : Path) (d : Disk) : Prop where
  ne_nil : dir.bytes ≠ []
  absent : Absent (d.locate dir)
  made : ∃ d', d.ensureDirectories dir = (.ok (), d') ∧ Opened names dir d' ∧
    ∀ name, names name → d'.held dir name = none

/-- Whether files with some names can be kept behind a path. -/
structure Usable (names : FileName → Prop) (dir : Path) (d : Disk) : Prop where
  fits : ∀ name, names name → Fits dir name
  ready : Opened names dir d ∨ Makeable names dir d

variable {names : FileName → Prop}

theorem contentOf_of_absent (hne : dir.bytes ≠ []) (habsent : Absent (d.locate dir)) (hfits : Fits dir name) :
    d.contentOf (dir.join ⟨name⟩) = .error noEntry := by
  obtain ⟨segments, hjoin, hdir⟩ := segments_join hfits
  rw [locate_eq hfits hne] at habsent
  have hsegments : Absent (d.follow (d.start dir) segments) := by
    rcases hdir with hdir | hdir
    · rwa [hdir] at habsent
    · rw [hdir] at habsent
      exact absent_of_append_nil habsent
  have hlocate : d.locate (dir.join ⟨name⟩) = .error noEntry := by
    rw [locate, origin_join hfits]
    dsimp only
    rw [hjoin]
    exact follow_append_of_absent hsegments ⟨name, by simp, hfits.isName.ne_nil⟩
  rw [contentOf, stat, hlocate]

theorem Usable.contentOf (h : Usable names dir d) (hname : names name) : d.contentOf (dir.join ⟨name⟩) =
    match d.held dir name with
    | some content => .ok content
    | none => .error noEntry := by
  have hfits := h.fits name hname
  unfold held
  rcases h.ready with ⟨n, hleads, hshelf⟩ | hmake
  · rw [contentOf_join hleads hshelf hfits hname]
    cases d.fileAt n name <;> rfl
  · rw [contentOf_of_absent hmake.ne_nil hmake.absent hfits]
    rfl

/-- A usable directory is there after it was made, with the files that it had. -/
theorem Usable.ensureDirectories (h : Usable names dir d) (hname : names name) :
    ∃ d', d.ensureDirectories dir = (.ok (), d') ∧ Opened names dir d' ∧
      ∀ other, names other → d'.held dir other = d.held dir other := by
  rcases h.ready with ⟨n, hleads, hshelf⟩ | hmake
  · exact ⟨d, ensureDirectories_of_leads hleads (h.fits name hname), ⟨n, hleads, hshelf⟩, fun _ _ => rfl⟩
  · obtain ⟨d', hmade, hopened, hfree⟩ := hmake.made
    refine ⟨d', hmade, hopened, fun other hother => ?_⟩
    rw [hfree other hother, held, contentOf_of_absent hmake.ne_nil hmake.absent (h.fits other hother)]
    rfl

/-- What a change of one file leaves, said of the files behind the path. -/
theorem Changed.held {content : Option (List UInt8)} (hchanged : Changed names d n name content d')
    (hleads : d.Leads dir n) (hshelf : Shelf names d n) (hfits : ∀ name, names name → Fits dir name) (hname : names name) :
    Opened names dir d' ∧ d'.held dir name = content ∧
      ∀ other, names other → other ≠ name → d'.held dir other = d.held dir other := by
  have hleads' := hleads.keeps hchanged.keeps
  have hheld : ∀ d'', Leads d'' dir n → Shelf names d'' n → ∀ other, names other → d''.held dir other = d''.fileAt n other := by
    intro d'' hl hs other hother
    rw [Disk.held, contentOf_join hl hs (hfits other hother) hother]
    cases d''.fileAt n other <;> rfl
  refine ⟨⟨n, hleads', hchanged.shelf⟩, ?_, fun other hother hne => ?_⟩
  · rw [hheld d' hleads' hchanged.shelf name hname, hchanged.fileAt]
  · rw [hheld d' hleads' hchanged.shelf other hother, hheld d hleads hshelf other hother,
      hchanged.fileAt_other other hother hne]

theorem Opened.setFile (h : Opened names dir d) (hfits : ∀ name, names name → Fits dir name) (hname : names name)
    (content : List UInt8) (modified : Instant) : ∃ d', d.setFile (dir.join ⟨name⟩) content modified = .ok d' ∧
      Opened names dir d' ∧ d'.held dir name = some content ∧
      ∀ other, names other → other ≠ name → d'.held dir other = d.held dir other := by
  obtain ⟨n, hleads, hshelf⟩ := h
  obtain ⟨d', hset, hchanged⟩ := setFile_join hleads hshelf (hfits name hname) hname
  exact ⟨d', hset, hchanged.held hleads hshelf hfits hname⟩

theorem Opened.eraseFile (h : Opened names dir d) (hfits : ∀ name, names name → Fits dir name) (hname : names name) :
    (d.held dir name = none ∧ d.eraseFile (dir.join ⟨name⟩) = .error noEntry) ∨
      ∃ d', d.eraseFile (dir.join ⟨name⟩) = .ok d' ∧ Opened names dir d' ∧ d'.held dir name = none ∧
        ∀ other, names other → other ≠ name → d'.held dir other = d.held dir other := by
  obtain ⟨n, hleads, hshelf⟩ := h
  rcases eraseFile_join hleads hshelf (hfits name hname) hname with ⟨hnone, herase⟩ | ⟨d', herase, hchanged⟩
  · refine .inl ⟨?_, herase⟩
    rw [held, contentOf_join hleads hshelf (hfits name hname) hname, hnone]
    rfl
  · exact .inr ⟨d', herase, hchanged.held hleads hshelf hfits hname⟩

/-! ## Directories to start with -/

/-- Whether an empty directory is at a path. -/
def IsEmptyDirectory (d : Disk) (p : Path) : Prop := ∃ parent, d.stat p = .ok (.directory parent .empty)

/-- Whether a path can be that of a new directory: an empty one is there, or nothing is and one can be made. -/
def Fresh (dir : Path) (d : Disk) : Prop :=
  d.IsEmptyDirectory dir ∨
    Absent (d.locate dir) ∧ ∃ d', d.ensureDirectories dir = (.ok (), d') ∧ d'.IsEmptyDirectory dir

theorem leads_of_stat {parent : Nat} {entries : SortedMap FileName Nat} (h : d.stat dir = .ok (.directory parent entries)) :
    (0 ∉ dir.bytes ∧ dir.bytes ≠ []) ∧ ∃ n, d.Leads dir n ∧ d.directory? n = some (parent, entries) := by
  unfold stat locate at h
  cases horigin : d.origin dir with
  | error fault => simp [horigin] at h
  | ok here =>
    have hplain : (0 ∉ dir.bytes ∧ dir.bytes ≠ []) ∧ here = d.start dir := by
      have hlength := length_lt_of_origin horigin
      by_cases hzero : 0 ∈ dir.bytes
      · simp [origin, hzero] at horigin
      by_cases hnil : dir.bytes = []
      · simp [origin, hnil] at horigin
      rw [origin_eq hzero hnil hlength] at horigin
      exact ⟨⟨hzero, hnil⟩, (Except.ok.inj horigin).symm⟩
    obtain ⟨hplain, rfl⟩ := hplain
    refine ⟨hplain, ?_⟩
    rw [horigin] at h
    dsimp only at h
    cases hfollow : d.follow (d.start dir) dir.segments with
    | error fault => simp [hfollow] at h
    | ok place =>
      cases place with
      | missing m name => simp [hfollow] at h
      | found n =>
        have hnode : d.nodes[n]? = some (.directory parent entries) := by
          rw [hfollow] at h
          dsimp only at h
          cases hn : d.nodes[n]? with
          | none => simp [hn] at h
          | some node =>
            rw [hn] at h
            rw [Except.ok.inj h]
        have hdir : d.directory? n = some (parent, entries) := directory?_eq_some_iff.2 hnode
        exact ⟨n, follow_append_nil.2 ⟨hfollow, by rw [hdir]; rfl⟩, hdir⟩

theorem IsEmptyDirectory.opened (h : d.IsEmptyDirectory dir) (hfits : ∀ name, names name → Fits dir name) :
    Opened names dir d ∧ ∀ name, names name → d.held dir name = none := by
  obtain ⟨parent, hstat⟩ := h
  obtain ⟨-, n, hleads, hdir⟩ := leads_of_stat hstat
  have hshelf : Shelf names d n := by
    refine ⟨by rw [hdir]; rfl, ?_, ?_⟩
    · intro p entries name k hentries _ hget
      rw [hdir] at hentries
      cases hentries
      cases hget
    · intro p entries name name' k hentries _ _ hget
      rw [hdir] at hentries
      cases hentries
      cases hget
  refine ⟨⟨n, hleads, hshelf⟩, fun name hname => ?_⟩
  rw [held, contentOf_join hleads hshelf (hfits name hname) hname, fileAt_eq hdir]
  rfl

/-- A new directory can be used, and holds nothing. -/
theorem Fresh.usable (h : Fresh dir d) (hfits : ∀ name, names name → Fits dir name) :
    Usable names dir d ∧ ∀ name, names name → d.held dir name = none := by
  rcases h with hempty | ⟨habsent, d', hmade, hempty⟩
  · obtain ⟨hopened, hheld⟩ := hempty.opened hfits
    exact ⟨⟨hfits, .inl hopened⟩, hheld⟩
  · have hne : dir.bytes ≠ [] := by
      obtain ⟨parent, hstat⟩ := hempty
      exact (leads_of_stat hstat).1.2
    obtain ⟨hopened, hheld⟩ := hempty.opened hfits
    refine ⟨⟨hfits, .inr ⟨hne, habsent, d', hmade, hopened, hheld⟩⟩, fun name hname => ?_⟩
    rw [held, contentOf_of_absent hne habsent (hfits name hname)]
    rfl

theorem Fresh.plain (h : Fresh dir d) : 0 ∉ dir.bytes ∧ dir.bytes ≠ [] := by
  rcases h with ⟨parent, hstat⟩ | ⟨-, d', -, parent, hstat⟩
  · exact (leads_of_stat hstat).1
  · exact (leads_of_stat hstat).1

end StyleTrack.Disk
