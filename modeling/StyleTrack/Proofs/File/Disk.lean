/-
Files in one directory of a disk. A path that leads to a directory leads there still after any change that keeps
the directories, however often it passes through the directory that was changed; and writing or removing a
file in a directory keeps them. So the files of one directory are a map by name, as long as no name of interest
is taken by a directory and no two of them by one file.
-/
import StyleTrack.File.Disk
import StyleTrack.Proofs.Path.Join
import Mathlib.Tactic

namespace StyleTrack.Disk

open Component (slash dot)

variable {d d' : Disk} {here number next parent : Nat} {entries : SortedMap FileName Nat} {segment : FileName}

/-! ## One segment -/

/-- Where a segment leads from what is there under a number, if it leads to something that is there. -/
def next? (d : Disk) (here : Nat) (segment : FileName) : Option Nat :=
  match d.directory? here with
  | none => none
  | some (parent, entries) =>
    if segment = [] ∨ segment = [dot] then some here
    else if segment = [dot, dot] then some parent
    else if longestName < segment.length then none
    else entries.get? segment

theorem follow_cons_of_next? (h : d.next? here segment = some next) (rest : List FileName) :
    d.follow here (segment :: rest) = d.follow next rest := by
  unfold next? at h
  rw [follow]
  cases hhere : d.directory? here with
  | none => rw [hhere] at h; cases h
  | some there =>
    rw [hhere] at h
    dsimp only at h ⊢
    split_ifs at h ⊢ <;> simp_all

/-- A segment that leads nowhere is refused, or its name is missing where it stands. -/
theorem follow_cons_of_next?_eq_none (h : d.next? here segment = none) :
    (∃ fault, fault ≠ noEntry ∧ ∀ rest, d.follow here (segment :: rest) = .error fault) ∨
      ∀ rest, d.follow here (segment :: rest) =
        if rest.all (· = []) then .ok (.missing here segment) else .error noEntry := by
  unfold next? at h
  cases hhere : d.directory? here with
  | none => exact .inl ⟨notDirectory, by decide, fun rest => by rw [follow, hhere]⟩
  | some there =>
    rw [hhere] at h
    dsimp only at h
    split_ifs at h with hcurrent hparent hlong
    · refine .inl ⟨nameTooLong, by decide, fun rest => ?_⟩
      rw [follow, hhere]
      simp [hcurrent, hparent, hlong]
    · refine .inr fun rest => ?_
      rw [follow, hhere]
      simp [hcurrent, hparent, hlong, h]

theorem isSome_directory?_of_next? (h : d.next? here segment = some next) : (d.directory? here).isSome := by
  unfold next? at h
  cases hhere : d.directory? here with
  | none => rw [hhere] at h; cases h
  | some there => rfl

/-- A path that leads to something is followed segment by segment through what is there. -/
theorem follow_cons_eq_found {rest : List FileName} : d.follow here (segment :: rest) = .ok (.found number) ↔
    ∃ next, d.next? here segment = some next ∧ d.follow next rest = .ok (.found number) := by
  constructor
  · intro h
    cases hnext : d.next? here segment with
    | none =>
      rcases follow_cons_of_next?_eq_none hnext with ⟨fault, -, hfault⟩ | hmissing
      · rw [hfault] at h
        cases h
      · rw [hmissing] at h
        split_ifs at h
        cases h
    | some next => exact ⟨next, rfl, by rwa [← follow_cons_of_next? hnext]⟩
  · rintro ⟨next, hnext, h⟩
    rwa [follow_cons_of_next? hnext]

/-! ## Following -/

theorem follow_append {segments : List FileName} (h : d.follow here segments = .ok (.found number))
    (rest : List FileName) : d.follow here (segments ++ rest) = d.follow number rest := by
  induction segments generalizing here with
  | nil => cases h; rfl
  | cons segment segments ih =>
    obtain ⟨next, hnext, h⟩ := follow_cons_eq_found.1 h
    rw [List.cons_append, follow_cons_of_next? hnext, ih h]

/-- Where segments lead somewhere through more segments, they lead to a directory on the way. -/
theorem exists_of_follow_append {segments rest : List FileName} (hrest : rest ≠ [])
    (h : d.follow here (segments ++ rest) = .ok (.found number)) :
    ∃ between, d.follow here segments = .ok (.found between) ∧ (d.directory? between).isSome ∧
      d.follow between rest = .ok (.found number) := by
  induction segments generalizing here with
  | nil =>
    obtain ⟨segment, rest, rfl⟩ := List.exists_cons_of_ne_nil hrest
    obtain ⟨next, hnext, -⟩ := follow_cons_eq_found.1 h
    exact ⟨here, rfl, isSome_directory?_of_next? hnext, h⟩
  | cons segment segments ih =>
    obtain ⟨next, hnext, h⟩ := follow_cons_eq_found.1 h
    obtain ⟨between, hbetween, hrest⟩ := ih h
    exact ⟨between, by rwa [follow_cons_of_next? hnext], hrest⟩

/-- An empty segment leads nowhere else, but what it stands behind must be a directory. -/
theorem follow_nil_segment : d.follow here [[]] = .ok (.found number) ↔ here = number ∧ (d.directory? here).isSome := by
  rw [follow_cons_eq_found]
  unfold next?
  cases d.directory? here with
  | none => simp
  | some there => simp [follow]

/-- What leads to a directory leads to it with a separator behind it, and nothing else does. -/
theorem follow_append_nil {segments : List FileName} : d.follow here (segments ++ [[]]) = .ok (.found number) ↔
    d.follow here segments = .ok (.found number) ∧ (d.directory? number).isSome := by
  constructor
  · intro h
    obtain ⟨between, hbetween, hdir, hend⟩ := exists_of_follow_append (by simp) h
    obtain ⟨rfl, -⟩ := follow_nil_segment.1 hend
    exact ⟨hbetween, hdir⟩
  · rintro ⟨h, hdir⟩
    rw [follow_append h, follow_nil_segment]
    exact ⟨rfl, hdir⟩

/-! ## Names -/

/-- Whether a segment can be the name of something in a directory. -/
structure IsName (segment : FileName) : Prop where
  ne_nil : segment ≠ []
  ne_current : segment ≠ [dot]
  ne_parent : segment ≠ [dot, dot]
  length_le : segment.length ≤ longestName

/-- What a name in a directory leads to. -/
theorem follow_name {name : FileName} (hname : IsName name) (hhere : d.directory? here = some (parent, entries)) :
    d.follow here [name] =
      .ok (match entries.get? name with | some number => .found number | none => .missing here name) := by
  have hlength := Nat.not_lt.2 hname.length_le
  rw [follow, hhere]
  dsimp only
  rw [if_neg (by simp [hname.ne_nil, hname.ne_current]), if_neg hname.ne_parent, if_neg hlength]
  cases entries.get? name <;> rfl

/-! ## Changes that keep the directories -/

/-- Whether every directory of a disk is a directory of another one, with the same parent and the same
directories in it. -/
structure Keeps (d d' : Disk) : Prop where
  working : d'.working = d.working
  directories : ∀ n parent entries, d.directory? n = some (parent, entries) →
    ∃ entries', d'.directory? n = some (parent, entries') ∧
      ∀ name k, entries.get? name = some k → (d.directory? k).isSome → entries'.get? name = some k

theorem Keeps.next? (h : Keeps d d') (hnext : d.next? here segment = some next) (hdir : (d.directory? next).isSome) :
    d'.next? here segment = some next := by
  unfold Disk.next? at hnext ⊢
  cases hhere : d.directory? here with
  | none => rw [hhere] at hnext; cases hnext
  | some there =>
    obtain ⟨parent, entries⟩ := there
    obtain ⟨entries', hhere', hentries⟩ := h.directories here parent entries hhere
    rw [hhere] at hnext
    rw [hhere']
    dsimp only at hnext ⊢
    split_ifs at hnext ⊢
    · exact hnext
    · exact hnext
    · exact hentries segment next hnext hdir

/-- What leads to a directory leads there still. -/
theorem Keeps.follow (h : Keeps d d') {segments : List FileName} {n : Nat} (hn : (d.directory? n).isSome)
    (hfollow : d.follow here segments = .ok (.found n)) : d'.follow here segments = .ok (.found n) := by
  induction segments generalizing here with
  | nil => exact hfollow
  | cons segment segments ih =>
    obtain ⟨next, hnext, hrest⟩ := follow_cons_eq_found.1 hfollow
    have hdir : (d.directory? next).isSome := by
      -- it is passed through, or it is what is led to
      cases segments with
      | nil => cases hrest; exact hn
      | cons segment' segments =>
        obtain ⟨next', hnext', -⟩ := follow_cons_eq_found.1 hrest
        exact isSome_directory?_of_next? hnext'
    rw [follow_cons_of_next? (h.next? hnext hdir), ih hrest]

/-! ## Files of one directory -/

/-- The content of a node that is a file. -/
def content? : DiskNode → Option (List UInt8)
  | .file content _ => some content
  | .directory .. => none

/-- The content of the file under a name in a directory, if there is one. -/
def fileAt (d : Disk) (n : Nat) (name : FileName) : Option (List UInt8) :=
  (d.directory? n).bind fun there => (there.2.get? name).bind fun k => d.nodes[k]?.bind content?

theorem fileAt_eq (h : d.directory? number = some (parent, entries)) (name : FileName) :
    d.fileAt number name = (entries.get? name).bind fun k => d.nodes[k]?.bind content? := by
  rw [fileAt, h]
  rfl

/-- Whether some names in a directory are those of files only, each with a file of its own. -/
structure Shelf (names : FileName → Prop) (d : Disk) (n : Nat) : Prop where
  isSome : (d.directory? n).isSome
  file : ∀ parent entries name k, d.directory? n = some (parent, entries) → names name →
    entries.get? name = some k → ∃ content modified, d.nodes[k]? = some (.file content modified)
  apart : ∀ parent entries name name' k, d.directory? n = some (parent, entries) → names name → names name' →
    entries.get? name = some k → entries.get? name' = some k → name = name'

theorem directory?_eq_some_iff {n : Nat} :
    d.directory? n = some (parent, entries) ↔ d.nodes[n]? = some (.directory parent entries) := by
  unfold directory?
  split
  · rename_i h
    simp [h]
  · rename_i h
    refine ⟨fun hn => (by cases hn), fun hn => absurd hn (h parent entries)⟩

theorem getElem?_replace (d : Disk) (k : Nat) (node : DiskNode) (n : Nat) :
    (d.replace k node).nodes[n]? = if k = n then (if k < d.nodes.size then some node else none) else d.nodes[n]? :=
  Array.getElem?_setIfInBounds

theorem withEntries_eq (h : d.directory? number = some (parent, entries))
    (change : SortedMap FileName Nat → SortedMap FileName Nat) :
    d.withEntries number change = d.replace number (.directory parent (change entries)) := by
  rw [withEntries, h]

theorem getElem?_withEntries (h : d.directory? number = some (parent, entries))
    (change : SortedMap FileName Nat → SortedMap FileName Nat) (n : Nat) : (d.withEntries number change).nodes[n]? =
      if number = n then some (.directory parent (change entries)) else d.nodes[n]? := by
  have hnode := directory?_eq_some_iff.1 h
  obtain ⟨hlt, -⟩ := Array.getElem?_eq_some_iff.1 hnode
  rw [withEntries_eq h, getElem?_replace, if_pos hlt]

theorem getElem?_add (h : d.directory? number = some (parent, entries)) (name : FileName) (node : DiskNode) (n : Nat) :
    (d.add number name node).nodes[n]? =
      if number = n then some (.directory parent (entries.insert name d.nodes.size))
      else if n = d.nodes.size then some node else d.nodes[n]? := by
  have hnode := directory?_eq_some_iff.1 h
  obtain ⟨hlt, -⟩ := Array.getElem?_eq_some_iff.1 hnode
  have hsize : (d.withEntries number (·.insert name d.nodes.size)).nodes.size = d.nodes.size := by
    rw [withEntries_eq h, replace, Array.size_setIfInBounds]
  show ((d.withEntries number (·.insert name d.nodes.size)).nodes.push node)[n]? = _
  rw [Array.getElem?_push, hsize, getElem?_withEntries h]
  split_ifs <;> first | rfl | omega

theorem get?_insert_name (entries : SortedMap FileName Nat) (name name' : FileName) (k : Nat) :
    (entries.insert name k).get? name' = if name' = name then some k else entries.get? name' := by
  rw [SortedMap.get?_insert]
  exact if_congr Std.LawfulEqOrd.compare_eq_iff_eq rfl rfl

theorem get?_erase_name (entries : SortedMap FileName Nat) (name name' : FileName) :
    (entries.erase name).get? name' = if name' = name then none else entries.get? name' := by
  rw [SortedMap.get?_erase]
  exact if_congr Std.LawfulEqOrd.compare_eq_iff_eq rfl rfl

/-- What a change of one file in a directory leaves: the directories, the other files of interest, and that no two
of them are one. -/
structure Changed (names : FileName → Prop) (d : Disk) (n : Nat) (name : FileName) (content : Option (List UInt8))
    (d' : Disk) : Prop where
  keeps : Keeps d d'
  shelf : Shelf names d' n
  fileAt : d'.fileAt n name = content
  fileAt_other : ∀ other, names other → other ≠ name → d'.fileAt n other = d.fileAt n other

section Changes

variable {names : FileName → Prop} {name : FileName} {content : List UInt8} {modified : Instant} {k : Nat}
  (hdir : d.directory? number = some (parent, entries)) (hshelf : Shelf names d number)
include hdir

theorem keeps_add (hget : entries.get? name = none) : Keeps d (d.add number name (.file content modified)) := by
  refine ⟨?_, fun n p es hn => ?_⟩
  · show (d.withEntries number _).working = d.working
    rw [withEntries_eq hdir]
    rfl
  · have hnode := directory?_eq_some_iff.1 hn
    have hlt := (Array.getElem?_eq_some_iff.1 hnode).1
    by_cases hnumber : number = n
    · subst hnumber
      rw [hdir] at hn
      cases hn
      refine ⟨entries.insert name d.nodes.size, directory?_eq_some_iff.2 ?_, fun name' k hk _ => ?_⟩
      · rw [getElem?_add hdir, if_pos rfl]
      · rw [get?_insert_name, if_neg, hk]
        rintro rfl
        rw [hget] at hk
        cases hk
    · refine ⟨es, directory?_eq_some_iff.2 ?_, fun name' k hk _ => hk⟩
      rw [getElem?_add hdir, if_neg hnumber, if_neg (by omega), hnode]

omit hdir in
theorem keeps_replace (hfile : d.directory? k = none) : Keeps d (d.replace k (.file content modified)) := by
  refine ⟨rfl, fun n p es hn => ⟨es, directory?_eq_some_iff.2 ?_, fun name' k hk _ => hk⟩⟩
  rw [getElem?_replace, if_neg, directory?_eq_some_iff.1 hn]
  rintro rfl
  rw [hfile] at hn
  cases hn

theorem keeps_erase (hget : entries.get? name = some k) (hfile : d.directory? k = none) :
    Keeps d (d.withEntries number (·.erase name)) := by
  refine ⟨by rw [withEntries_eq hdir]; rfl, fun n p es hn => ?_⟩
  by_cases hnumber : number = n
  · subst hnumber
    rw [hdir] at hn
    cases hn
    refine ⟨entries.erase name, directory?_eq_some_iff.2 ?_, fun name' k' hk' hsome => ?_⟩
    · rw [getElem?_withEntries hdir, if_pos rfl]
    · rw [get?_erase_name, if_neg, hk']
      rintro rfl
      rw [hget] at hk'
      cases hk'
      rw [hfile] at hsome
      cases hsome
  · refine ⟨es, directory?_eq_some_iff.2 ?_, fun name' k hk _ => hk⟩
    rw [getElem?_withEntries hdir, if_neg hnumber, directory?_eq_some_iff.1 hn]

include hshelf

theorem changed_add (hget : entries.get? name = none) :
    Changed names d number name (some content) (d.add number name (.file content modified)) := by
  have hdir' : (d.add number name (.file content modified)).directory? number =
      some (parent, entries.insert name d.nodes.size) :=
    directory?_eq_some_iff.2 (by rw [getElem?_add hdir, if_pos rfl])
  have hlt : number < d.nodes.size := (Array.getElem?_eq_some_iff.1 (directory?_eq_some_iff.1 hdir)).1
  -- a file that is there already is neither the new one nor the directory
  have hold : ∀ other k, names other → entries.get? other = some k → k < d.nodes.size ∧ number ≠ k := by
    intro other k hother hk
    obtain ⟨c, t, hnode⟩ := hshelf.file parent entries other k hdir hother hk
    refine ⟨(Array.getElem?_eq_some_iff.1 hnode).1, ?_⟩
    rintro rfl
    rw [directory?_eq_some_iff.1 hdir] at hnode
    cases hnode
  refine ⟨keeps_add hdir hget, ⟨by rw [hdir']; rfl, ?_, ?_⟩, ?_, ?_⟩
  · intro p es other k hes hother hk
    rw [hdir'] at hes
    cases hes
    rw [get?_insert_name] at hk
    split_ifs at hk
    · cases hk
      exact ⟨content, modified, by rw [getElem?_add hdir, if_neg (by omega), if_pos rfl]⟩
    · obtain ⟨c, t, hnode⟩ := hshelf.file parent entries other k hdir hother hk
      obtain ⟨hk', hne⟩ := hold other k hother hk
      exact ⟨c, t, by rw [getElem?_add hdir, if_neg hne, if_neg (by omega), hnode]⟩
  · intro p es other other' k hes hother hother' hk hk'
    rw [hdir'] at hes
    cases hes
    rw [get?_insert_name] at hk hk'
    split_ifs at hk hk' with h1 h2 h2
    · rw [h1, h2]
    · cases hk
      exact absurd (hold other' _ hother' hk').1 (by omega)
    · cases hk'
      exact absurd (hold other _ hother hk).1 (by omega)
    · exact hshelf.apart parent entries other other' k hdir hother hother' hk hk'
  · rw [fileAt_eq hdir', get?_insert_name, if_pos rfl]
    show Option.bind _ content? = _
    rw [getElem?_add hdir, if_neg (by omega), if_pos rfl]
    rfl
  · intro other hother hne
    rw [fileAt_eq hdir', fileAt_eq hdir, get?_insert_name, if_neg hne]
    cases hk : entries.get? other with
    | none => rfl
    | some k =>
      obtain ⟨hk', hne'⟩ := hold other k hother hk
      show Option.bind _ content? = Option.bind _ content?
      rw [getElem?_add hdir, if_neg hne', if_neg (by omega)]

theorem changed_replace (hname : names name) (hget : entries.get? name = some k) :
    Changed names d number name (some content) (d.replace k (.file content modified)) := by
  obtain ⟨c, t, hnode⟩ := hshelf.file parent entries name k hdir hname hget
  have hlt := (Array.getElem?_eq_some_iff.1 hnode).1
  have hfile : d.directory? k = none := by rw [directory?, hnode]
  have hne : k ≠ number := by
    rintro rfl
    rw [hfile] at hdir
    cases hdir
  have hdir' : (d.replace k (.file content modified)).directory? number = some (parent, entries) :=
    directory?_eq_some_iff.2 (by rw [getElem?_replace, if_neg hne, directory?_eq_some_iff.1 hdir])
  refine ⟨keeps_replace hfile, ⟨by rw [hdir']; rfl, ?_, ?_⟩, ?_, ?_⟩
  · intro p es other k' hes hother hk'
    rw [hdir'] at hes
    cases hes
    rw [getElem?_replace]
    split_ifs
    · exact ⟨content, modified, rfl⟩
    · exact hshelf.file parent entries other k' hdir hother hk'
  · intro p es other other' k' hes
    rw [hdir'] at hes
    cases hes
    exact hshelf.apart parent entries other other' k' hdir
  · rw [fileAt_eq hdir', hget]
    show Option.bind _ content? = _
    rw [getElem?_replace, if_pos rfl, if_pos hlt]
    rfl
  · intro other hother hother'
    rw [fileAt_eq hdir', fileAt_eq hdir]
    cases hk' : entries.get? other with
    | none => rfl
    | some k' =>
      have hne' : k ≠ k' := by
        rintro rfl
        exact hother' (hshelf.apart parent entries other name k hdir hother hname hk' hget)
      show Option.bind _ content? = Option.bind _ content?
      rw [getElem?_replace, if_neg hne']

theorem changed_erase (hname : names name) (hget : entries.get? name = some k) :
    Changed names d number name none (d.withEntries number (·.erase name)) := by
  obtain ⟨c, t, hnode⟩ := hshelf.file parent entries name k hdir hname hget
  have hfile : d.directory? k = none := by rw [directory?, hnode]
  have hdir' : (d.withEntries number (·.erase name)).directory? number = some (parent, entries.erase name) :=
    directory?_eq_some_iff.2 (by rw [getElem?_withEntries hdir, if_pos rfl])
  have hold : ∀ other k', names other → entries.get? other = some k' → number ≠ k' := by
    rintro other k' hother hk' rfl
    obtain ⟨c', t', hnode'⟩ := hshelf.file parent entries other _ hdir hother hk'
    rw [directory?_eq_some_iff.1 hdir] at hnode'
    cases hnode'
  refine ⟨keeps_erase hdir hget hfile, ⟨by rw [hdir']; rfl, ?_, ?_⟩, ?_, ?_⟩
  · intro p es other k' hes hother hk'
    rw [hdir'] at hes
    cases hes
    rw [get?_erase_name] at hk'
    split_ifs at hk'
    rw [getElem?_withEntries hdir, if_neg (hold other k' hother hk')]
    exact hshelf.file parent entries other k' hdir hother hk'
  · intro p es other other' k' hes hother hother' hk' hk''
    rw [hdir'] at hes
    cases hes
    rw [get?_erase_name] at hk' hk''
    split_ifs at hk' hk''
    exact hshelf.apart parent entries other other' k' hdir hother hother' hk' hk''
  · rw [fileAt_eq hdir', get?_erase_name, if_pos rfl]
    rfl
  · intro other hother hne
    rw [fileAt_eq hdir', fileAt_eq hdir, get?_erase_name, if_neg hne]
    cases hk' : entries.get? other with
    | none => rfl
    | some k' =>
      show Option.bind _ content? = Option.bind _ content?
      rw [getElem?_withEntries hdir, if_neg (hold other k' hother hk')]

end Changes

end StyleTrack.Disk
