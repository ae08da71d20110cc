/-
The verdict of a check, said through the snapshot that could be taken at the same moment: nothing
changed exactly when the stored entry agrees with such a snapshot on the root and on every dependency
that the snapshot has, a check fails exactly for a malformed call, and every other case, whatever the
store or the file system answers, counts as a change.

The two sides list the dependencies in different ways: a check reads and lists by itself and stops at
the first difference, a snapshot fills a map by path. They meet in what both ask about the single file,
its evidence and the record of it.
-/
import StyleTrack.Change.Detector
import StyleTrack.Proofs.Import.Listing
import StyleTrack.Proofs.Map.Entries

namespace StyleTrack

/-- What was put under a key in memory is found there. -/
theorem MemoryStore.load_insert (m : MemoryStore) (key : CacheKey) (entry : CacheEntry) :
    MemoryStore.store.load key (m.insert key.digest entry) = .ok (some entry) := by
  show Except.ok (SortedMap.get? _ _) = _
  rw [SortedMap.get?_insert, if_pos Std.ReflCmp.compare_self]

namespace Detector

variable {σ : Type} {d : Detector σ} {root : Path}

/-! ## Snapshots -/

theorem required_eq_ok_iff {p : Path} {e : Evidence} : d.required p = .ok e ↔ d.evidence p = .ok e :=
  mapError_eq_ok_iff

/-- A snapshot has the evidence of the root and of every path that the listing of the root gives. -/
theorem snapshot_eq_ok_iff {entry : CacheEntry} :
    (d.snapshot root).result = .ok entry ↔
      ∃ e deps found, d.evidence root = .ok e ∧ (d.lister.listPath root).result = .ok deps ∧
        List.Forall₂ (fun p f => d.evidence p = .ok f.2 ∧ f.1 = p) deps found ∧ entry = .ofList root e found := by
  have hpair : ∀ (p : Path) (f : Path × Evidence),
      (do return (p, ← d.required p) : Except CacheError (Path × Evidence)) = .ok f ↔
        d.evidence p = .ok f.2 ∧ f.1 = p := by
    intro p f
    simp only [bind_eq_ok_iff, required_eq_ok_iff]
    constructor
    · rintro ⟨e, he, h⟩; cases h; exact ⟨he, rfl⟩
    · rintro ⟨he, rfl⟩; exact ⟨f.2, he, rfl⟩
  unfold snapshot
  cases he : d.required root with
  | error fault =>
    constructor
    · intro h; cases h
    · rintro ⟨e, _, _, h, -⟩
      rw [required_eq_ok_iff.2 h] at he
      cases he
  | ok e =>
    simp only [bind_eq_ok_iff, mapError_eq_ok_iff, mapM_eq_ok_iff, hpair]
    constructor
    · rintro ⟨deps, hdeps, found, hf, h⟩
      cases h
      exact ⟨e, deps, found, required_eq_ok_iff.1 he, hdeps, hf, rfl⟩
    · rintro ⟨e', deps, found, h, hdeps, hf, rfl⟩
      rw [required_eq_ok_iff.2 h] at he
      cases he
      exact ⟨deps, hdeps, found, hf, rfl⟩

/-- What a snapshot holds: the evidence of the root, of each listed path, and of nothing else. -/
theorem snapshot_spec {entry : CacheEntry} (h : (d.snapshot root).result = .ok entry) :
    entry.root = root ∧ d.evidence root = .ok entry.evidence ∧
      ∃ deps, (d.lister.listPath root).result = .ok deps ∧
        (∀ p ∈ deps, ∃ e, d.evidence p = .ok e ∧ entry.dependencies.get? p = some e) ∧
        (∀ p e, entry.dependencies.get? p = some e →
          ∃ q ∈ deps, q.components = p.components ∧ d.evidence q = .ok e) := by
  obtain ⟨e, deps, found, he, hdeps, hfound, rfl⟩ := snapshot_eq_ok_iff.1 h
  have hstored : ∀ p e, (SortedMap.ofList found).get? p = some e →
      ∃ q ∈ deps, q.components = p.components ∧ d.evidence q = .ok e := by
    intro p e hp
    obtain ⟨q, hq, heq⟩ := SortedMap.exists_mem_of_get?_ofList hp
    obtain ⟨q', hq', hev, rfl⟩ := exists_of_forall₂_right hfound hq
    exact ⟨_, hq', (Path.compare_eq_iff.1 heq).symm, hev⟩
  refine ⟨rfl, he, deps, hdeps, fun p hp => ?_, hstored⟩
  obtain ⟨bytes, -, hlist⟩ := Lister.listPath_eq_ok_iff.1 hdeps
  obtain ⟨paths, rfl⟩ := Lister.exists_distinct_of_list_buffer hlist
  obtain ⟨f, hf, hev, rfl⟩ := exists_of_forall₂_left hfound hp
  obtain ⟨e', he'⟩ := SortedMap.exists_get?_ofList hf
  -- the map could hold the evidence of another spelling, but no two listed paths are the same
  obtain ⟨q, hq, heq, hev'⟩ := hstored _ _ he'
  rw [eq_of_mem_distinct hq hp heq, hev] at hev'
  cases hev'
  exact ⟨_, hev, he'⟩

theorem exists_snapshot {e : Evidence} {deps : List Path} (he : d.evidence root = .ok e)
    (hdeps : (d.lister.listPath root).result = .ok deps) (hev : ∀ p ∈ deps, ∃ e, d.evidence p = .ok e) :
    ∃ entry, (d.snapshot root).result = .ok entry := by
  have hfound : ∃ found : List (Path × Evidence),
      List.Forall₂ (fun p f => d.evidence p = .ok f.2 ∧ f.1 = p) deps found := by
    clear hdeps
    induction deps with
    | nil => exact ⟨[], .nil⟩
    | cons p deps ih =>
      obtain ⟨found, hfound⟩ := ih fun q hq => hev q (List.mem_cons_of_mem _ hq)
      obtain ⟨e, he⟩ := hev p List.mem_cons_self
      exact ⟨(p, e) :: found, .cons ⟨he, rfl⟩ hfound⟩
  obtain ⟨found, hfound⟩ := hfound
  exact ⟨_, snapshot_eq_ok_iff.2 ⟨e, deps, found, he, hdeps, hfound, rfl⟩⟩

/-! ## One entry against the files -/

/-- Whether a stored entry agrees with the snapshot that could be taken now. It may hold further
dependencies. -/
def Agrees (d : Detector σ) (root : Path) (stored : CacheEntry) : Prop :=
  ∃ entry, (d.snapshot root).result = .ok entry ∧ entry.evidence = stored.evidence ∧
    ∀ p e, (p, e) ∈ entry.dependencies.entries → stored.dependencies.get? p = some e

/-- Whether the listing of a root whose evidence is the stored one meets a malformed call. -/
def MeetsMalformed (d : Detector σ) (root : Path) (stored : CacheEntry) (cause : ImportError) : Prop :=
  d.evidence root = .ok stored.evidence ∧ ∃ bytes, d.lister.fs.read root = .ok bytes ∧
    (d.lister.list (some ⟨some root, some (.buffer bytes)⟩)).result = .error cause ∧
    cause.isMalformedReference = true

/-- Agreement, one file at a time: every path that is listed now is recorded with its present evidence. -/
theorem agrees_iff {stored : CacheEntry} :
    d.Agrees root stored ↔ d.evidence root = .ok stored.evidence ∧
      ∃ deps, (d.lister.listPath root).result = .ok deps ∧
        ∀ p ∈ deps, ∃ e, stored.dependencies.get? p = some e ∧ d.evidence p = .ok e := by
  constructor
  · rintro ⟨entry, hentry, heq, hdeps⟩
    obtain ⟨-, he, deps, hlist, hall, -⟩ := snapshot_spec hentry
    refine ⟨heq ▸ he, deps, hlist, fun p hp => ?_⟩
    obtain ⟨e, hev, hget⟩ := hall p hp
    obtain ⟨p', hmem, hsame⟩ := SortedMap.exists_mem_of_get? hget
    exact ⟨e, by rw [SortedMap.get?_congr hsame]; exact hdeps p' e hmem, hev⟩
  · rintro ⟨he, deps, hlist, hall⟩
    have hev : ∀ p ∈ deps, ∃ e, d.evidence p = .ok e := fun p hp => (hall p hp).imp fun _ h => h.2
    obtain ⟨entry, hentry⟩ := exists_snapshot he hlist hev
    obtain ⟨-, he', deps', hlist', -, hrec⟩ := snapshot_spec hentry
    rw [he] at he'
    rw [hlist] at hlist'
    cases hlist'
    refine ⟨entry, hentry, (Except.ok.inj he').symm, fun p e hmem => ?_⟩
    obtain ⟨q, hq, hsame, hqe⟩ := hrec p e (SortedMap.get?_of_mem hmem)
    obtain ⟨e', hget, hqe'⟩ := hall q hq
    rw [hqe] at hqe'
    cases hqe'
    rw [SortedMap.get?_congr (Path.compare_eq_iff.2 hsame.symm), hget]

theorem compareDependencies_eq_false_iff {stored : CacheEntry} {deps : List Path} :
    (d.compareDependencies stored deps).1 = false ↔
      ∀ p ∈ deps, ∃ e, stored.dependencies.get? p = some e ∧ d.evidence p = .ok e := by
  induction deps with
  | nil => simp [compareDependencies]
  | cons p deps ih =>
    unfold compareDependencies
    cases hget : stored.dependencies.get? p with
    | none => simp [hget]
    | some recorded =>
      cases hev : d.evidence p with
      | error fault => simp [hev]
      | ok current =>
        by_cases heq : current = recorded
        · simp [heq, hget, hev, ih]
        · simp [heq, hget, hev]

theorem not_agrees_of_meetsMalformed {stored : CacheEntry} {cause : ImportError}
    (h : d.MeetsMalformed root stored cause) : ¬ d.Agrees root stored := by
  obtain ⟨-, bytes, hread, hlist, -⟩ := h
  rw [agrees_iff]
  rintro ⟨-, deps, hdeps, -⟩
  obtain ⟨_, hread', hlist'⟩ := Lister.listPath_eq_ok_iff.1 hdeps
  rw [hread] at hread'
  cases hread'
  rw [hlist] at hlist'
  cases hlist'

theorem checkContent_result (d : Detector σ) (root : Path) (stored : CacheEntry) (bytes : List UInt8) :
    (d.checkContent root stored bytes).result =
      match (d.lister.list (some ⟨some root, some (.buffer bytes)⟩)).result with
      | .error cause => if cause.isMalformedReference then .error (.imports cause) else .ok true
      | .ok deps => .ok (d.compareDependencies stored deps).1 := by
  unfold checkContent
  generalize d.lister.list (some ⟨some root, some (.buffer bytes)⟩) = listed
  obtain ⟨cause | deps, trace⟩ := listed
  · by_cases hm : cause.isMalformedReference = true <;> simp [hm]
  · rfl

/-- The three outcomes of a check against an entry. -/
theorem checkEntry_cases (d : Detector σ) (root : Path) (stored : CacheEntry) :
    (d.Agrees root stored ∧ (d.checkEntry root stored).result = .ok false) ∨
    (∃ cause, d.MeetsMalformed root stored cause ∧ (d.checkEntry root stored).result = .error (.imports cause)) ∨
    (¬ d.Agrees root stored ∧ (∀ cause, ¬ d.MeetsMalformed root stored cause) ∧
      (d.checkEntry root stored).result = .ok true) := by
  unfold checkEntry
  cases he : d.evidence root with
  | error fault =>
    refine .inr (.inr ⟨fun h => ?_, fun cause h => ?_, rfl⟩)
    · rw [agrees_iff, he] at h; cases h.1
    · rw [MeetsMalformed, he] at h; cases h.1
  | ok current =>
    by_cases heq : current = stored.evidence
    case neg =>
      simp only [ne_eq, heq, not_false_eq_true, if_true]
      refine .inr (.inr ⟨fun h => heq ?_, fun cause h => heq ?_, trivial⟩)
      · rw [agrees_iff, he] at h; exact Except.ok.inj h.1
      · rw [MeetsMalformed, he] at h; exact Except.ok.inj h.1
    case pos =>
      simp only [ne_eq, heq, not_true_eq_false, if_false]
      cases hread : d.lister.fs.read root with
      | error fault =>
        refine .inr (.inr ⟨fun h => ?_, fun cause h => ?_, rfl⟩)
        · obtain ⟨-, deps, hdeps, -⟩ := agrees_iff.1 h
          obtain ⟨_, h, -⟩ := Lister.listPath_eq_ok_iff.1 hdeps
          rw [hread] at h; cases h
        · obtain ⟨-, _, h, -⟩ := h
          rw [hread] at h; cases h
      | ok bytes =>
        dsimp only
        rw [checkContent_result]
        cases hlist : (d.lister.list (some ⟨some root, some (.buffer bytes)⟩)).result with
        | error cause =>
          by_cases hm : cause.isMalformedReference = true
          · exact .inr (.inl ⟨cause, ⟨heq ▸ he, bytes, hread, hlist, hm⟩, by simp [hm]⟩)
          · refine .inr (.inr ⟨fun h => ?_, fun cause' h => hm ?_, by simp [hm]⟩)
            · obtain ⟨-, deps, hdeps, -⟩ := agrees_iff.1 h
              obtain ⟨_, h, h'⟩ := Lister.listPath_eq_ok_iff.1 hdeps
              rw [hread] at h; cases h
              rw [hlist] at h'; cases h'
            · obtain ⟨-, _, h, h', hm'⟩ := h
              rw [hread] at h; cases h
              rw [hlist] at h'; cases h'
              exact hm'
        | ok deps =>
          have hdeps := Lister.listPath_eq_ok_iff.2 ⟨bytes, hread, hlist⟩
          have hiff : d.Agrees root stored ↔ (d.compareDependencies stored deps).1 = false := by
            rw [agrees_iff, compareDependencies_eq_false_iff, hdeps, he, heq]
            simp
          cases hc : (d.compareDependencies stored deps).1 with
          | false => exact .inl ⟨hiff.2 hc, by simp [hc]⟩
          | true =>
            refine .inr (.inr ⟨fun h => ?_, fun cause h => ?_, by simp [hc]⟩)
            · rw [hiff, hc] at h; cases h
            · obtain ⟨-, _, h, h', -⟩ := h
              rw [hread] at h; cases h
              rw [hlist] at h'; cases h'

theorem check_of_load {s : σ} {stored : CacheEntry} (h : d.store.load (d.key root) s = .ok (some stored)) :
    d.check root s = d.checkEntry root stored := by
  unfold check
  rw [h]

theorem check_eq_false_iff_of_load {s : σ} {stored : CacheEntry}
    (h : d.store.load (d.key root) s = .ok (some stored)) :
    (d.check root s).result = .ok false ↔ d.Agrees root stored := by
  rw [check_of_load h]
  obtain ⟨ha, hr⟩ | ⟨cause, hm, hr⟩ | ⟨hna, -, hr⟩ := checkEntry_cases d root stored
  · simp [hr, ha]
  · simp [hr, not_agrees_of_meetsMalformed hm]
  · simp [hr, hna]

/-- Only a stored entry that agrees lets a check answer that nothing changed. -/
theorem check_eq_false_iff {s : σ} :
    (d.check root s).result = .ok false ↔
      ∃ stored, d.store.load (d.key root) s = .ok (some stored) ∧ d.Agrees root stored := by
  rcases hload : d.store.load (d.key root) s with e | _ | stored
  · simp [check, hload]
  · simp [check, hload]
  · rw [check_eq_false_iff_of_load hload]
    simp

/-! ## The verdict -/

/-- The verdict of a check, for every store and every file system: unchanged exactly when the stored
entry agrees with a snapshot of the same moment, a failure exactly when the root has its stored evidence
and its listing meets a malformed call, and changed in every other case. -/
theorem check_verdict (d : Detector σ) (root : Path) (s : σ) :
    ((d.check root s).result = .ok false ↔
      ∃ stored, d.store.load (d.key root) s = .ok (some stored) ∧ d.Agrees root stored) ∧
    (∀ fault, (d.check root s).result = .error fault ↔
      ∃ stored cause, d.store.load (d.key root) s = .ok (some stored) ∧ d.MeetsMalformed root stored cause ∧
        fault = .imports cause) ∧
    ((d.check root s).result = .ok true ↔
      (∀ stored, d.store.load (d.key root) s = .ok (some stored) → ¬ d.Agrees root stored) ∧
      ∀ stored cause, d.store.load (d.key root) s = .ok (some stored) → ¬ d.MeetsMalformed root stored cause) := by
  refine ⟨check_eq_false_iff, ?_⟩
  unfold check
  rcases hload : d.store.load (d.key root) s with e | _ | stored
  · simp
  · simp
  · simp only [Except.ok.injEq, Option.some.injEq, forall_eq']
    obtain ⟨ha, hr⟩ | ⟨cause, hm, hr⟩ | ⟨hna, hnm, hr⟩ := checkEntry_cases d root stored
    · have hnm : ∀ cause, ¬ d.MeetsMalformed root stored cause := fun _ h => not_agrees_of_meetsMalformed h ha
      simp [hr, ha, hnm]
    · have hna := not_agrees_of_meetsMalformed hm
      have huniq : ∀ cause', d.MeetsMalformed root stored cause' ↔ cause' = cause := by
        refine fun cause' => ⟨fun h => ?_, fun h => h ▸ hm⟩
        obtain ⟨-, _, hread, hlist, -⟩ := hm
        obtain ⟨-, _, hread', hlist', -⟩ := h
        rw [hread] at hread'; cases hread'
        rw [hlist] at hlist'; cases hlist'
        rfl
      simp [hr, hna, huniq, eq_comm]
    · refine ⟨by simp [hr, hnm], fun _ => ⟨hna, ?_⟩, fun _ => hr⟩
      rintro _ cause rfl
      exact hnm cause

end Detector

end StyleTrack
