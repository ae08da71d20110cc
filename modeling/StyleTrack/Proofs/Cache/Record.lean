/-
Records and their documents. What is written down for a record reads back as the record, whatever texts its
paths are, and the record of an entry gives back the entry, with the paths in the spelling that they had. An
entry can be written down just if its paths are text and its times are not too late.
-/
import StyleTrack.Cache.Directory
import StyleTrack.Proofs.Map.Entries
import StyleTrack.Proofs.Text.Utf8
import StyleTrack.Proofs.Toml.Document

namespace StyleTrack

/-! ## Digests and evidence -/

namespace Digest.Sha256

theorem length_hex (message : List UInt8) : (hex message).toList.length = 64 := by
  simp [hex, hexDigits, Sha256State.words]

/-- The digits of a digest. -/
def digits : List Char := "0123456789abcdef".toList

theorem mem_digits_of_mem_hex {message : List UInt8} {c : Char} (h : c ∈ (hex message).toList) : c ∈ digits := by
  have hdigit : ∀ n < 16, Nat.digitChar n ∈ digits := by decide
  rw [hex, String.toList_ofList, List.mem_flatMap] at h
  obtain ⟨w, -, hc⟩ := h
  obtain ⟨i, -, rfl⟩ := List.mem_map.1 hc
  exact hdigit _ (Nat.mod_lt _ (by decide))

end Digest.Sha256

namespace ContentHash

/-- Whether a digest was made: of a content, or of a text that was stored. -/
def IsMade (h : ContentHash) : Prop := (∃ bytes, h = ofBytes bytes) ∨ ∃ text, h = ofStored text

theorem toLower_toLower (c : Char) : c.toLower.toLower = c.toLower := by
  unfold Char.toLower
  grind

theorem IsMade.toLower {h : ContentHash} (hmade : h.IsMade) : ∀ c ∈ h.digest.toList, c.toLower = c := by
  intro c hc
  rcases hmade with ⟨bytes, rfl⟩ | ⟨text, rfl⟩
  · have hdigits : Digest.Sha256.digits.all (fun c => c.toLower = c) = true := by decide
    exact of_decide_eq_true (List.all_eq_true.1 hdigits c (Digest.Sha256.mem_digits_of_mem_hex hc))
  · rw [ofStored, String.toList_ofList] at hc
    obtain ⟨c', -, rfl⟩ := List.mem_map.1 hc
    exact toLower_toLower c'

/-- A digest is stored under its name and found again. -/
theorem ofStored_text {h : ContentHash} (hmade : h.IsMade) : ofStored h.text = h := by
  have hdrop : dropScheme h.text.toList = h.digest.toList := by
    rw [dropScheme, text, String.toList_append, if_pos (by simp)]
    exact List.drop_left' rfl
  have hlower : h.digest.toList.map Char.toLower = h.digest.toList :=
    (List.map_congr_left hmade.toLower).trans (List.map_id' _)
  rw [ofStored, hdrop, hlower, String.ofList_toList]

end ContentHash

namespace Evidence

/-- Whether evidence has the ranges of its parts: 32 bits for nanoseconds, and a digest that was made. -/
def IsProper : Evidence → Prop
  | modified _ nanos => nanos < 0x100000000
  | content hash => hash.IsMade

/-- Whether a time is early enough to be written down. -/
def Fits : Evidence → Prop
  | modified secs _ => secs < Toml.integerLimit
  | content _ => True

end Evidence

namespace CacheRecord

open Toml

/-! ## Lines of evidence -/

/-- The keys and values of evidence. -/
def fieldsOf : Evidence → Table
  | .modified secs nanos => [("kind", .string "mtime"), ("secs", .integer secs), ("nanos", .integer nanos)]
  | .content hash => [("kind", .string "content"), ("hash", .string hash.text)]

theorem isDistinct_fieldsOf (e : Evidence) : IsDistinct (fieldsOf e) := by
  cases e <;> simp [fieldsOf, IsDistinct]

theorem natural?_ofNat (n : Nat) : natural? (.integer n) = some n := by
  rw [natural?, if_pos (Int.natCast_nonneg n), Int.toNat_natCast]

theorem shortNatural?_ofNat {n : Nat} (h : n < 0x100000000) : shortNatural? (.integer n) = some n := by
  rw [shortNatural?, natural?_ofNat]
  simpa using h

theorem evidence?_fieldsOf {e : Evidence} (he : e.IsProper) : evidence? (.table (fieldsOf e)) = some e := by
  cases e with
  | modified secs nanos =>
    have hnanos : shortNatural? (.integer nanos) = some nanos := shortNatural?_ofNat he
    simp [evidence?, fieldsOf, evidenceOf?, Value.string?, natural?_ofNat, hnanos, List.lookup_cons]
  | content hash =>
    simp [evidence?, fieldsOf, evidenceOf?, Value.string?, ContentHash.ofStored_text he, List.lookup_cons]

theorem spelled_string {k : String} (hk : IsBare k) (s : String) :
    Spelled (stringLine k s) (entryLines [(k, .string s)]) := by
  rw [stringLine]
  exact (reads_entry hk (written_string s)).spelled

theorem spelled_number {k : String} (hk : IsBare k) {n : Nat} (hn : n < integerLimit) :
    Spelled (numberLine k n) (entryLines [(k, .integer n)]) := by
  rw [numberLine]
  exact (reads_entry hk (written_number hn)).spelled

/-- A time that is not too late, or a digest, is written down as its keys and values. -/
theorem evidenceLines_spec {e : Evidence} (he : e.IsProper) :
    (e.Fits ∧ ∃ w, evidenceLines e = .ok w ∧ Spelled w (entryLines (fieldsOf e))) ∨
      ¬ e.Fits ∧ ∃ fault, evidenceLines e = .error fault := by
  cases e with
  | modified secs nanos =>
    by_cases hsecs : secs < integerLimit
    · have hnanos : nanos < integerLimit := by
        have hle : (0x100000000 : Nat) ≤ integerLimit := by decide
        exact Nat.lt_of_lt_of_le he hle
      have hkind := spelled_string (k := "kind") (isBare_of_all (by decide)) "mtime"
      refine .inl ⟨hsecs, _, if_pos hsecs, ?_⟩
      exact (hkind.append (spelled_number (isBare_of_all (by decide)) hsecs)).append
        (spelled_number (isBare_of_all (by decide)) hnanos)
    · exact .inr ⟨hsecs, _, if_neg hsecs⟩
  | content hash =>
    have hkind := spelled_string (k := "kind") (isBare_of_all (by decide)) "content"
    exact .inl ⟨trivial, _, rfl, hkind.append (spelled_string (isBare_of_all (by decide)) hash.text)⟩

/-! ## Documents -/

/-- The tables of dependencies. -/
def dependencyTables (dependencies : List (String × Evidence)) : List (String × Table) :=
  dependencies.map fun d => (d.1, fieldsOf d.2)

theorem dependencyLines_spec {d : String × Evidence} (hd : d.2.IsProper) :
    (d.2.Fits ∧ ∃ w, dependencyLines d = .ok w ∧ Spelled w (Draft.tableLines "dependencies" (d.1, fieldsOf d.2))) ∨
      ¬ d.2.Fits ∧ ∃ fault, dependencyLines d = .error fault := by
  have hheader := reads_empty.spelled.append
    (@reads_header_below "dependencies" (isBare_of_all (by decide)) d.1).spelled
  rcases evidenceLines_spec hd with ⟨hfits, w, hw, hspelled⟩ | ⟨hfits, fault, hfault⟩
  · refine .inl ⟨hfits, _, by simp only [dependencyLines, hw]; rfl, ?_⟩
    have hname : "dependencies.".toList = "dependencies".toList ++ ['.'] := by decide
    rw [header, hname, List.append_assoc]
    exact hheader.append hspelled
  · exact .inr ⟨hfits, fault, by simp only [dependencyLines, hfault]; rfl⟩

theorem mapM_dependencyLines_spec {l : List (String × Evidence)} (hl : ∀ d ∈ l, d.2.IsProper) :
    ((∀ d ∈ l, d.2.Fits) ∧ ∃ ws, l.mapM dependencyLines = .ok ws ∧ ws.length = l.length ∧
      Spelled ws.flatten ((dependencyTables l).flatMap (Draft.tableLines "dependencies"))) ∨
      (¬ ∀ d ∈ l, d.2.Fits) ∧ ∃ fault, l.mapM dependencyLines = .error fault := by
  induction l with
  | nil => exact .inl ⟨by simp, [], rfl, rfl, .nil⟩
  | cons d l ih =>
    rw [List.forall_mem_cons, List.mapM_cons]
    rcases dependencyLines_spec (hl d List.mem_cons_self) with ⟨hfits, w, hw, hspelled⟩ | ⟨hfits, fault, hfault⟩
    · rcases ih fun d' hd' => hl d' (List.mem_cons_of_mem _ hd') with ⟨hrest, ws, hws, hlength, hmore⟩ | ⟨hrest, fault, hfault⟩
      · refine .inl ⟨⟨hfits, hrest⟩, w :: ws, by rw [hw, hws]; rfl, by simp [hlength], ?_⟩
        exact hspelled.append hmore
      · exact .inr ⟨fun h => hrest h.2, fault, by rw [hw, hfault]; rfl⟩
    · exact .inr ⟨fun h => hfits h.1, fault, by rw [hfault]; rfl⟩

/-- The time of a record under its key, if there is one. -/
def timeFields : Option String → Table
  | some time => [("recorded_at", .string time)]
  | none => []

/-- The keys and values in front of a record. -/
def frontOf (r : CacheRecord) : Table :=
  [("version", .integer r.version), ("root", .string r.root), ("path", .string r.path)] ++ timeFields r.recordedAt

theorem isDistinct_frontOf (r : CacheRecord) : IsDistinct (frontOf r) := by
  cases htime : r.recordedAt <;> simp [frontOf, timeFields, htime, IsDistinct]

/-- The lines of a record. -/
def linesOf (r : CacheRecord) : List Line :=
  entryLines (frontOf r) ++ (.empty :: .table [] "root_evidence" :: entryLines (fieldsOf r.evidence)) ++
    if r.dependencies.entries = [] then [.empty, .table [] "dependencies"]
    else (dependencyTables r.dependencies.entries).flatMap (Draft.tableLines "dependencies")

/-- The table that the document of a record is. -/
def tableOf (r : CacheRecord) : Table :=
  frontOf r ++ [("root_evidence", .table (fieldsOf r.evidence)),
    ("dependencies", .table ((dependencyTables r.dependencies.entries).map fun t => (t.1, .table t.2)))]

/-- The lines of a record make up its table. -/
theorem finish_of_linesOf (r : CacheRecord) :
    ∃ d nodes, (linesOf r).foldlM Draft.add .empty = some d ∧ d.finish = some nodes ∧ toTable nodes = tableOf r := by
  obtain ⟨d, hfront, hd⟩ := Draft.finish_of_front (isDistinct_frontOf r)
  have hkeys : ∀ k, (∀ f ∈ frontOf r, f.1 ≠ k) → (valueNodes (frontOf r)).get? k = none := fun k h =>
    get?_valueNodes_eq_none h
  have hevidence : (valueNodes (frontOf r)).get? "root_evidence" = none := by
    refine hkeys _ ?_
    cases htime : r.recordedAt <;> simp [frontOf, timeFields, htime]
  obtain ⟨d', hfold, hd'⟩ := Draft.finish_of_table hd hevidence (isDistinct_fieldsOf r.evidence)
  have hdependencies : Nodes.get? (valueNodes (frontOf r) ++
      [("root_evidence", .table .header (valueNodes (fieldsOf r.evidence)))]) "dependencies" = none := by
    rw [Nodes.get?_eq_none_iff]
    cases htime : r.recordedAt <;> simp [frontOf, timeFields, valueNodes, htime]
  have hboth : (entryLines (frontOf r) ++ (.empty :: .table [] "root_evidence" ::
      entryLines (fieldsOf r.evidence))).foldlM Draft.add .empty = some d' := by
    rw [List.foldlM_append, hfront]
    exact hfold
  by_cases hnone : r.dependencies.entries = []
  · -- without dependencies their table has a header of its own, otherwise it is implied by those of its tables
    obtain ⟨d'', hlast, hd''⟩ := @Draft.finish_of_table _ _ [] hd' _ hdependencies .nil
    refine ⟨d'', _, ?_, hd'', ?_⟩
    · rw [linesOf, if_pos hnone, List.foldlM_append, hboth]
      exact hlast
    · simp [toTable_append, toTable_valueNodes, toTable, Node.toValue, tableOf, hnone, dependencyTables]
  · have hnames : IsDistinct (dependencyTables r.dependencies.entries) := by
      refine List.pairwise_map.2 (r.dependencies.isApart_entries.imp fun hne heq => hne ?_)
      exact Std.LawfulEqOrd.compare_eq_iff_eq.2 heq
    have hfields : ∀ t ∈ dependencyTables r.dependencies.entries, IsDistinct t.2 := by
      intro t ht
      obtain ⟨e, -, rfl⟩ := List.mem_map.1 ht
      exact isDistinct_fieldsOf e.2
    obtain ⟨d'', hlast, hd''⟩ := Draft.finish_of_tables (.inr ⟨rfl, hd'⟩) hdependencies (fun _ _ => rfl) hnames hfields
    rw [List.nil_append] at hd''
    rcases hd'' with hd'' | ⟨hnil, -⟩
    · refine ⟨d'', _, ?_, hd'', ?_⟩
      · rw [linesOf, if_neg hnone, List.foldlM_append, hboth]
        exact hlast
      · simp [toTable_append, toTable_valueNodes, toTable, Node.toValue, tableOf, toTable_tableNode]
    · simp [dependencyTables, hnone] at hnil

/-- Whether the parts of a record have their ranges. -/
structure IsProper (r : CacheRecord) : Prop where
  version_lt : r.version < 0x100000000
  isStamp : ∀ time, r.recordedAt = some time → Text.Timestamp.isStamp time.toList = true
  evidence : r.evidence.IsProper
  dependencies : ∀ d ∈ r.dependencies.entries, d.2.IsProper

/-- Whether every time in a record is early enough to be written down. -/
def Fits (r : CacheRecord) : Prop := r.evidence.Fits ∧ ∀ d ∈ r.dependencies.entries, d.2.Fits

theorem mapM_evidence? {l : List (String × Evidence)} (hl : ∀ d ∈ l, d.2.IsProper) :
    ((dependencyTables l).map fun t => (t.1, Value.table t.2)).mapM (fun e => do return (e.1, ← evidence? e.2)) =
      some l := by
  induction l with
  | nil => rfl
  | cons d l ih =>
    have hrest := ih fun d' hd' => hl d' (List.mem_cons_of_mem _ hd')
    rw [dependencyTables, List.map_cons, List.map_cons, List.mapM_cons, evidence?_fieldsOf (hl d List.mem_cons_self)]
    exact congrArg (fun found => found.bind fun found => some (d :: found)) hrest

theorem recordedAt?_timeFields {time : Option String} (h : ∀ t, time = some t → Text.Timestamp.isStamp t.toList = true) :
    recordedAt? ((timeFields time).lookup "recorded_at") = some time := by
  cases time with
  | none => rfl
  | some t => simp [timeFields, recordedAt?, Value.string?, h t rfl]

/-- The table of a record is read as the record. -/
theorem ofTable?_tableOf {r : CacheRecord} (hr : r.IsProper) : ofTable? (tableOf r) = some r := by
  have htime := recordedAt?_timeFields hr.isStamp
  have hversion := shortNatural?_ofNat hr.version_lt
  have hevidence := evidence?_fieldsOf hr.evidence
  have hdependencies : dependencies? (some (.table ((dependencyTables r.dependencies.entries).map fun t =>
      (t.1, .table t.2)))) = some r.dependencies := by
    have hfound := mapM_evidence? hr.dependencies
    rw [dependencies?]
    dsimp only [Value.entries?, Option.bind_eq_bind, Option.bind_some] at hfound ⊢
    rw [hfound]
    exact congrArg some (SortedMap.ofList_of_perm (List.Perm.refl _))
  have hlookup : (tableOf r).lookup "version" = some (.integer r.version) ∧
      (tableOf r).lookup "root" = some (.string r.root) ∧ (tableOf r).lookup "path" = some (.string r.path) ∧
      (tableOf r).lookup "recorded_at" = (timeFields r.recordedAt).lookup "recorded_at" ∧
      (tableOf r).lookup "root_evidence" = some (.table (fieldsOf r.evidence)) ∧
      (tableOf r).lookup "dependencies" = some (.table ((dependencyTables r.dependencies.entries).map fun t =>
        (t.1, .table t.2))) := by
    cases h : r.recordedAt <;> simp [tableOf, frontOf, timeFields, h, List.lookup_cons]
  obtain ⟨h1, h2, h3, h4, h5, h6⟩ := hlookup
  simp only [ofTable?, h1, h2, h3, h4, h5, h6, htime, hversion, hevidence, hdependencies, Value.string?,
    Option.bind_eq_bind, Option.bind_some]
  rfl

theorem spelled_front {r : CacheRecord} (hr : r.IsProper) :
    Spelled (numberLine "version" r.version ++ stringLine "root" r.root ++ stringLine "path" r.path ++
      timeLine r.recordedAt) (entryLines (frontOf r)) := by
  have hversion : r.version < integerLimit := by
    have hle : (0x100000000 : Nat) ≤ integerLimit := by decide
    exact Nat.lt_of_lt_of_le hr.version_lt hle
  have htime : Spelled (timeLine r.recordedAt) (entryLines (timeFields r.recordedAt)) := by
    cases r.recordedAt with
    | none => exact .nil
    | some time => exact spelled_string (isBare_of_all (by decide)) time
  have hnumber := spelled_number (k := "version") (isBare_of_all (by decide)) hversion
  have hroot := spelled_string (k := "root") (isBare_of_all (by decide)) r.root
  have hpath := spelled_string (k := "path") (isBare_of_all (by decide)) r.path
  exact ((hnumber.append hroot).append hpath).append htime

theorem spelled_header {k : String} (hk : IsBare k) : Spelled (header k.toList) [.empty, .table [] k] :=
  reads_empty.spelled.append (reads_header hk).spelled

/-- Lines that spell a record are read as the record. -/
theorem read_of_spelled_linesOf {r : CacheRecord} (hr : r.IsProper) {w : List Char} (h : Spelled w (linesOf r))
    (hmark : w.head? ≠ some '\uFEFF') : read w = some r := by
  obtain ⟨d, nodes, hfold, hfinish, htable⟩ := finish_of_linesOf r
  have hread := read_of_spelled h hmark hfold hfinish
  rw [read, hread, Option.bind_eq_bind, Option.bind_some, htable, ofTable?_tableOf hr]

theorem text_eq {r : CacheRecord} {w : List Char} {ws : List (List Char)} (hw : evidenceLines r.evidence = .ok w)
    (hws : r.dependencies.entries.mapM dependencyLines = .ok ws) :
    text r = .ok (numberLine "version" r.version ++ stringLine "root" r.root ++ stringLine "path" r.path ++
      timeLine r.recordedAt ++ header "root_evidence".toList ++ w ++
        if ws = [] then header "dependencies".toList else ws.flatten) := by
  simp only [text, hw, hws]
  rfl

theorem head?_numberLine (n : Nat) (rest : List Char) : (numberLine "version" n ++ rest).head? = some 'v' := by
  have hkey : "version".toList = 'v' :: "ersion".toList := by decide
  rw [numberLine, hkey]
  rfl

/-- A record is written down just if its times are not too late, and what is written reads back as it. -/
theorem text_spec {r : CacheRecord} (hr : r.IsProper) :
    (r.Fits ∧ ∃ w, text r = .ok w ∧ read w = some r) ∨ ¬ r.Fits ∧ ∃ fault, text r = .error fault := by
  rcases evidenceLines_spec hr.evidence with ⟨hfits, w, hw, hspelled⟩ | ⟨hfits, fault, hfault⟩
  · rcases mapM_dependencyLines_spec hr.dependencies with ⟨hall, ws, hws, hlength, hspelled'⟩ | ⟨hall, fault, hfault⟩
    · have htables : Spelled (if ws = [] then header "dependencies".toList else ws.flatten)
          (if r.dependencies.entries = [] then [.empty, .table [] "dependencies"]
            else (dependencyTables r.dependencies.entries).flatMap (Draft.tableLines "dependencies")) := by
        have hiff : ws = [] ↔ r.dependencies.entries = [] := by
          rw [← List.length_eq_zero_iff, hlength, List.length_eq_zero_iff]
        by_cases hnone : r.dependencies.entries = []
        · rw [if_pos (hiff.2 hnone), if_pos hnone]
          exact spelled_header (isBare_of_all (by decide))
        · rw [if_neg (hiff.not.2 hnone), if_neg hnone]
          exact hspelled'
      have hheader := spelled_header (k := "root_evidence") (isBare_of_all (by decide))
      have hlines := ((spelled_front hr).append (hheader.append hspelled)).append htables
      refine .inl ⟨⟨hfits, hall⟩, _, text_eq hw hws, read_of_spelled_linesOf hr ?_ ?_⟩
      · rw [← List.append_assoc] at hlines
        exact hlines
      · simp only [List.append_assoc]
        rw [head?_numberLine]
        decide
    · exact .inr ⟨fun h => hall h.2, fault, by simp only [text, hw, hfault]; rfl⟩
  · exact .inr ⟨fun h => hfits h.1, fault, by simp only [text, hfault]; rfl⟩

end CacheRecord

/-! ## Entries -/

theorem Path.toString?_eq_some_iff {p : Path} {s : String} : p.toString? = some s ↔ Path.ofString s = p := by
  rw [Path.toString?, Text.Utf8.toString?_eq_some_iff]
  constructor
  · intro h
    rw [Path.ofString, ← h]
  · rintro rfl
    rfl

namespace CacheEntry

/-- Whether all evidence in an entry has the ranges of its parts. -/
def IsProper (entry : CacheEntry) : Prop :=
  entry.evidence.IsProper ∧ ∀ d ∈ entry.dependencies.entries, d.2.IsProper

/-- Whether an entry can be written down: its paths are text, and its times are early enough. -/
structure Writable (entry : CacheEntry) : Prop where
  root : entry.root.toString?.isSome
  dependencies : ∀ d ∈ entry.dependencies.entries, d.1.toString?.isSome
  fits : entry.evidence.Fits ∧ ∀ d ∈ entry.dependencies.entries, d.2.Fits

end CacheEntry

namespace CacheRecord

theorem mapM_dependencyText_spec (l : List (Path × Evidence)) :
    ((∀ d ∈ l, d.1.toString?.isSome) ∧ ∃ names, l.mapM dependencyText = .ok names ∧
      names.map (fun d => (Path.ofString d.1, d.2)) = l) ∨
      (¬ ∀ d ∈ l, d.1.toString?.isSome) ∧ ∃ fault, l.mapM dependencyText = .error fault := by
  induction l with
  | nil => exact .inl ⟨by simp, [], rfl, rfl⟩
  | cons d l ih =>
    rw [List.forall_mem_cons, List.mapM_cons]
    cases hname : d.1.toString? with
    | none => exact .inr ⟨by simp, _, by rw [dependencyText, hname]; rfl⟩
    | some name =>
      rcases ih with ⟨hall, names, hnames, hl⟩ | ⟨hall, fault, hfault⟩
      · refine .inl ⟨⟨rfl, hall⟩, (name, d.2) :: names, by rw [dependencyText, hname, hnames]; rfl, ?_⟩
        rw [List.map_cons, hl, Path.toString?_eq_some_iff.1 hname]
      · exact .inr ⟨fun h => hall h.2, fault, by rw [dependencyText, hname, hfault]; rfl⟩

/-- The names of dependencies stand for paths of their own, so none is lost among them. -/
theorem ofList_names {m : SortedMap Path Evidence} {names : List (String × Evidence)}
    (h : names.map (fun d => (Path.ofString d.1, d.2)) = m.entries) :
    (SortedMap.ofList names).entries.Perm names ∧
      .ofList ((SortedMap.ofList names).entries.map fun d => (Path.ofString d.1, d.2)) = m := by
  have hapart : SortedMap.IsApart names := by
    have hpaths := m.isApart_entries
    rw [← h] at hpaths
    refine (List.pairwise_map.1 hpaths).imp fun hne heq => hne ?_
    rw [Std.LawfulEqOrd.compare_eq_iff_eq.1 heq]
    exact Std.ReflCmp.compare_self
  have hperm := SortedMap.entries_ofList_perm hapart
  exact ⟨hperm, SortedMap.ofList_of_perm (h ▸ hperm.map _)⟩

/-- The record of an entry, which there is if its paths are text, gives back the entry. -/
theorem ofEntry_spec {now : String} (key : CacheKey) {entry : CacheEntry} (hentry : entry.IsProper)
    (hnow : Text.Timestamp.isStamp now.toList = true) :
    (entry.root.toString?.isSome ∧ ∀ d ∈ entry.dependencies.entries, d.1.toString?.isSome) ∧
        (∃ r, ofEntry now key entry = .ok r ∧ r.IsProper ∧ r.version = currentVersion ∧ r.root = key.path ∧
          r.toEntry = entry ∧ (r.Fits ↔ entry.evidence.Fits ∧ ∀ d ∈ entry.dependencies.entries, d.2.Fits)) ∨
      ¬ (entry.root.toString?.isSome ∧ ∀ d ∈ entry.dependencies.entries, d.1.toString?.isSome) ∧
        ∃ fault, ofEntry now key entry = .error fault := by
  rcases mapM_dependencyText_spec entry.dependencies.entries with ⟨hall, names, hnames, hmap⟩ | ⟨hall, fault, hfault⟩
  · cases hroot : entry.root.toString? with
    | none => exact .inr ⟨by simp, _, by rw [ofEntry, hnames, hroot]; rfl⟩
    | some path =>
      obtain ⟨hperm, hmade⟩ := ofList_names hmap
      have hevidence : ∀ P : Evidence → Prop, (∀ d ∈ (SortedMap.ofList names).entries, P d.2) ↔
          ∀ d ∈ entry.dependencies.entries, P d.2 := by
        intro P
        rw [← hmap, List.forall_mem_map]
        exact forall_congr' fun d => by rw [hperm.mem_iff]
      refine .inl ⟨⟨rfl, hall⟩, ⟨currentVersion, key.path, path, some now, entry.evidence, .ofList names⟩,
        by rw [ofEntry, hnames, hroot]; rfl, ?_, rfl, rfl, ?_, ?_⟩
      · exact {
          version_lt := (by decide : currentVersion < 0x100000000)
          isStamp := fun time htime => Option.some.inj htime ▸ hnow
          evidence := hentry.1
          dependencies := (hevidence _).2 hentry.2 }
      · rw [toEntry, CacheEntry.ofList, hmade, Path.toString?_eq_some_iff.1 hroot]
      · exact and_congr_right fun _ => hevidence _
  · exact .inr ⟨fun h => hall h.2, fault, by rw [ofEntry, hfault]; rfl⟩

end CacheRecord

end StyleTrack
