/-
What a check reports.

Embedded files that are missing are the business of the listing, and a check passes their diagnostics on. Of its own
it reports what kept it from an answer: an entry that cannot be loaded, or the first thing on its way that it could
not look at. It stops there and counts that as a change, so there is never more than one such diagnostic.
-/
import StyleTrack.Proofs.Change.Decision
import StyleTrack.Proofs.Import.Agenda

namespace StyleTrack

/-- Whether a diagnostic says that something kept a check from an answer. -/
def Diagnostic.isHindrance : Diagnostic → Bool
  | .evidenceUnavailable .. | .cacheEntryUnreadable .. => true
  | .importNotFound .. | .unknownKey .. => false

/-! ## Diagnostics of a listing -/

namespace Traced

variable {α β : Type}

/-- Whether a traced program reports no hindrance. -/
def Unobstructed (x : Traced α) : Prop := ∀ r ∈ x.trace.diagnostics, r.isHindrance = false

theorem unobstructed_pure (a : α) : (pure a : Traced α).Unobstructed := by
  rintro r ⟨⟩

theorem unobstructed_lift (result : Except ImportError α) : (lift result).Unobstructed := by
  rintro r ⟨⟩

theorem Unobstructed.bind {x : Traced α} {f : α → Traced β} (hx : x.Unobstructed) (hf : ∀ a, (f a).Unobstructed) :
    (x >>= f).Unobstructed := by
  obtain ⟨result, trace⟩ := x
  cases result with
  | error e => exact hx
  | ok a =>
    intro r hr
    rcases List.mem_append.1 (show r ∈ trace.diagnostics ++ (f a).trace.diagnostics from hr) with hr | hr
    · exact hx r hr
    · exact hf a r hr

theorem Unobstructed.mapM {f : α → Traced β} (hf : ∀ a, (f a).Unobstructed) (l : List α) :
    (l.mapM f).Unobstructed := by
  induction l with
  | nil => exact unobstructed_pure []
  | cons a l ih =>
    rw [List.mapM_cons]
    exact (hf a).bind fun b => ih.bind fun bs => unobstructed_pure (b :: bs)

end Traced

namespace Lister

variable (l : Lister) (root : Path)

theorem unobstructed_perform (i : Item) : (perform l root i).Unobstructed := by
  unfold perform
  split
  · rintro r ⟨⟩
  · rename_i path isThere _
    cases isThere with
    | true => rintro r ⟨⟩
    | false =>
      intro r hr
      rw [List.mem_singleton.1 hr]
      rfl

theorem unobstructed_listWith (options : RenderOptions) (file : Option Stylesheet) :
    (l.listWith options file).Unobstructed := by
  unfold listWith
  split
  · refine (Traced.unobstructed_lift _).bind fun text => ?_
    split
    · exact Traced.unobstructed_pure []
    · unfold listText
      refine (Traced.unobstructed_lift _).bind fun processed => ?_
      refine (Traced.Unobstructed.mapM (fun u => ?_) _).bind fun embedded => Traced.unobstructed_pure _
      rw [resources_eq]
      exact (Traced.Unobstructed.mapM (unobstructed_perform l _) _).bind fun found => Traced.unobstructed_pure _
  · exact Traced.unobstructed_pure []

end Lister

/-! ## What a check reports -/

/-- The hindrances among the diagnostics of an operation. -/
def Reported.hindrances {α : Type} (r : Reported α) : List Diagnostic := r.diagnostics.filter Diagnostic.isHindrance

namespace Detector

variable {σ : Type} {d : Detector σ} {root : Path} {stored : CacheEntry}

/-- Whether a file is as an entry says that the dependency at its path is. -/
def Matches (d : Detector σ) (stored : CacheEntry) (p : Path) : Prop :=
  ∃ e, stored.dependencies.get? p = some e ∧ d.evidence p = .ok e

/-- The first thing on the way of a check against an entry that it cannot look at: the path for which that is
reported, and the text of the cause. -/
inductive Hindered (d : Detector σ) (root : Path) (stored : CacheEntry) : Path → String → Prop where
  /-- There is no evidence about the root. -/
  | evidence {fault : FileError} (hroot : d.evidence root = .error fault) : Hindered d root stored root fault.message
  /-- The root has its stored evidence and cannot be read. -/
  | content {fault : FileError} (hroot : d.evidence root = .ok stored.evidence)
      (hread : d.lister.fs.read root = .error fault) : Hindered d root stored root fault.message
  /-- The root has its stored evidence and cannot be listed, and that is not for a malformed call. -/
  | listing {bytes : List UInt8} {cause : ImportError} (hroot : d.evidence root = .ok stored.evidence)
      (hread : d.lister.fs.read root = .ok bytes)
      (hlist : (d.lister.list (some ⟨some root, some (.buffer bytes)⟩)).result = .error cause)
      (hcall : cause.isMalformedReference = false) : Hindered d root stored root cause.message
  /-- The first of the listed files that is not as recorded is recorded and there, but there is no evidence about it. -/
  | dependency {bytes : List UInt8} {front back : List Path} {p : Path} {recorded : Evidence} {fault : FileError}
      (hroot : d.evidence root = .ok stored.evidence) (hread : d.lister.fs.read root = .ok bytes)
      (hlist : (d.lister.list (some ⟨some root, some (.buffer bytes)⟩)).result = .ok (front ++ p :: back))
      (hfront : ∀ q ∈ front, d.Matches stored q) (hrecorded : stored.dependencies.get? p = some recorded)
      (hfault : d.evidence p = .error fault) (hthere : fault.isNotFound = false) :
      Hindered d root stored p fault.message

/-! ### Dependencies -/

theorem compareDependencies_append {front : List Path} (hfront : ∀ q ∈ front, d.Matches stored q) (rest : List Path) :
    d.compareDependencies stored (front ++ rest) = d.compareDependencies stored rest := by
  induction front with
  | nil => rfl
  | cons q front ih =>
    obtain ⟨e, hget, hev⟩ := hfront q List.mem_cons_self
    rw [List.cons_append, compareDependencies, hget]
    dsimp only
    rw [hev]
    dsimp only
    rw [if_pos rfl, ih fun q' hq' => hfront q' (List.mem_cons_of_mem _ hq')]

/-- Dependencies are compared up to the first one that is not as recorded. -/
theorem exists_compareDependencies (d : Detector σ) (stored : CacheEntry) (deps : List Path) :
    ∃ front rest, deps = front ++ rest ∧ (∀ q ∈ front, d.Matches stored q) ∧ ∀ p ∈ rest.head?, ¬ d.Matches stored p := by
  induction deps with
  | nil => exact ⟨[], [], rfl, by simp, by simp⟩
  | cons p deps ih =>
    by_cases hp : d.Matches stored p
    · obtain ⟨front, rest, rfl, hfront, hrest⟩ := ih
      exact ⟨p :: front, rest, rfl, List.forall_mem_cons.2 ⟨hp, hfront⟩, hrest⟩
    · exact ⟨[], p :: deps, rfl, by simp, by simpa using hp⟩

theorem compareDependencies_cons_of_fault {p : Path} {recorded : Evidence} {fault : FileError}
    (hrecorded : stored.dependencies.get? p = some recorded) (hfault : d.evidence p = .error fault) (rest : List Path) :
    d.compareDependencies stored (p :: rest) =
      (true, if fault.isNotFound then [] else [.evidenceUnavailable p fault.message]) := by
  rw [compareDependencies, hrecorded]
  dsimp only
  rw [hfault]

/-- What comparing dependencies reports, if anything, is about the first one that is not as recorded. -/
theorem compareDependencies_cases (d : Detector σ) (stored : CacheEntry) (deps : List Path) :
    (d.compareDependencies stored deps).2 = [] ∨
      ∃ front p back recorded fault, deps = front ++ p :: back ∧ (∀ q ∈ front, d.Matches stored q) ∧
        stored.dependencies.get? p = some recorded ∧ d.evidence p = .error fault ∧ fault.isNotFound = false ∧
        d.compareDependencies stored deps = (true, [.evidenceUnavailable p fault.message]) := by
  obtain ⟨front, rest, rfl, hfront, hrest⟩ := exists_compareDependencies d stored deps
  rw [compareDependencies_append hfront]
  cases rest with
  | nil => exact .inl rfl
  | cons p back =>
    cases hget : stored.dependencies.get? p with
    | none => exact .inl (by rw [compareDependencies, hget])
    | some recorded =>
      cases hev : d.evidence p with
      | ok current =>
        have hne : current ≠ recorded := fun heq => hrest p rfl ⟨recorded, hget, heq ▸ hev⟩
        refine .inl ?_
        rw [compareDependencies, hget]
        dsimp only
        rw [hev]
        dsimp only
        rw [if_neg hne]
      | error fault =>
        rw [compareDependencies_cons_of_fault hget hev]
        cases hnone : fault.isNotFound with
        | true => exact .inl rfl
        | false => exact .inr ⟨front, p, back, recorded, fault, rfl, hfront, hget, hev, hnone, rfl⟩

/-! ### Entries -/

theorem hindrances_checkContent (d : Detector σ) (root : Path) (stored : CacheEntry) (bytes : List UInt8) :
    (d.checkContent root stored bytes).hindrances =
      match (d.lister.list (some ⟨some root, some (.buffer bytes)⟩)).result with
      | .error cause => if cause.isMalformedReference then [] else [.evidenceUnavailable root cause.message]
      | .ok deps => (d.compareDependencies stored deps).2 := by
  have hlisted := d.lister.unobstructed_listWith d.lister.options (some ⟨some root, some (.buffer bytes)⟩)
  unfold checkContent Lister.list
  generalize d.lister.listWith _ _ = listed at hlisted
  obtain ⟨result, trace⟩ := listed
  have hnone : trace.diagnostics.filter Diagnostic.isHindrance = [] :=
    List.filter_eq_nil_iff.2 fun r hr => by simp [hlisted r hr]
  cases result with
  | error cause =>
    dsimp only
    cases cause.isMalformedReference with
    | true => exact hnone
    | false =>
      show (trace.diagnostics ++ [Diagnostic.evidenceUnavailable root cause.message]).filter Diagnostic.isHindrance = _
      rw [List.filter_append, hnone]
      rfl
  | ok deps =>
    dsimp only
    have hcompared : (d.compareDependencies stored deps).2.filter Diagnostic.isHindrance =
        (d.compareDependencies stored deps).2 := by
      rcases compareDependencies_cases d stored deps with h | ⟨_, _, _, _, _, _, _, _, _, _, h⟩
      · rw [h]
        rfl
      · rw [h]
        rfl
    rw [Reported.hindrances, List.filter_append, hnone, hcompared, List.nil_append]

theorem checkEntry_of_read {bytes : List UInt8} (hroot : d.evidence root = .ok stored.evidence)
    (hread : d.lister.fs.read root = .ok bytes) : d.checkEntry root stored = d.checkContent root stored bytes := by
  rw [checkEntry, hroot]
  dsimp only
  rw [if_neg (by simp), hread]

/-- What hinders a check against an entry is what it reports, and counts as a change. -/
theorem Hindered.hindrances {p : Path} {reason : String} (h : d.Hindered root stored p reason) :
    (d.checkEntry root stored).hindrances = [.evidenceUnavailable p reason] ∧
      (d.checkEntry root stored).result = .ok true := by
  cases h with
  | evidence hroot =>
    rw [checkEntry, hroot]
    exact ⟨rfl, rfl⟩
  | content hroot hread =>
    rw [checkEntry, hroot]
    dsimp only
    rw [if_neg (by simp), hread]
    exact ⟨rfl, rfl⟩
  | listing hroot hread hlist hcall =>
    rw [checkEntry_of_read hroot hread, hindrances_checkContent, checkContent_result, hlist]
    simp [hcall]
  | dependency hroot hread hlist hfront hrecorded hfault hthere =>
    rw [checkEntry_of_read hroot hread, hindrances_checkContent, checkContent_result, hlist]
    dsimp only
    rw [compareDependencies_append hfront, compareDependencies_cons_of_fault hrecorded hfault, hthere]
    exact ⟨rfl, rfl⟩

/-- A check against an entry that nothing hinders reports no hindrance. -/
theorem hindrances_checkEntry (d : Detector σ) (root : Path) (stored : CacheEntry) :
    (d.checkEntry root stored).hindrances = [] ∨ ∃ p reason, d.Hindered root stored p reason := by
  cases hroot : d.evidence root with
  | error fault => exact .inr ⟨root, fault.message, .evidence hroot⟩
  | ok current =>
    by_cases heq : current = stored.evidence
    case neg =>
      refine .inl ?_
      rw [checkEntry, hroot]
      dsimp only
      rw [if_pos heq]
      rfl
    case pos =>
      rw [heq] at hroot
      cases hread : d.lister.fs.read root with
      | error fault => exact .inr ⟨root, fault.message, .content hroot hread⟩
      | ok bytes =>
        rw [checkEntry_of_read hroot hread, hindrances_checkContent]
        cases hlist : (d.lister.list (some ⟨some root, some (.buffer bytes)⟩)).result with
        | error cause =>
          cases hcall : cause.isMalformedReference with
          | true => exact .inl (by simp [hcall])
          | false => exact .inr ⟨root, cause.message, .listing hroot hread hlist hcall⟩
        | ok deps =>
          obtain hnone | ⟨front, p, back, recorded, fault, rfl, hfront, hrecorded, hfault, hthere, -⟩ :=
            compareDependencies_cases d stored deps
          · exact .inl hnone
          · exact .inr ⟨p, fault.message, .dependency hroot hread hlist hfront hrecorded hfault hthere⟩

theorem mem_hindrances_checkEntry_iff {r : Diagnostic} : r ∈ (d.checkEntry root stored).hindrances ↔
    ∃ p reason, d.Hindered root stored p reason ∧ r = .evidenceUnavailable p reason := by
  constructor
  · intro hr
    obtain hnone | ⟨p, reason, h⟩ := hindrances_checkEntry d root stored
    · rw [hnone] at hr
      cases hr
    · rw [h.hindrances.1] at hr
      exact ⟨p, reason, h, List.mem_singleton.1 hr⟩
  · rintro ⟨p, reason, h, rfl⟩
    rw [h.hindrances.1]
    exact List.mem_singleton.2 rfl

/-! ### Checks -/

theorem check_of_load_error {s : σ} {fault : StoreError} (h : d.store.load (d.key root) s = .error fault) :
    d.check root s = ⟨.ok true, [.cacheEntryUnreadable root fault.message]⟩ := by
  rw [check, h]

theorem check_of_load_none {s : σ} (h : d.store.load (d.key root) s = .ok none) : d.check root s = ⟨.ok true, []⟩ := by
  rw [check, h]

/-- A check reports at most one hindrance: that the entry of the root cannot be loaded, exactly if the store fails,
or what hindered it, exactly if an entry was loaded and something did. Whenever there is one, the root counts as
changed. -/
theorem check_reports (d : Detector σ) (root : Path) (s : σ) :
    (d.check root s).hindrances.length ≤ 1 ∧
    (∀ p reason, .cacheEntryUnreadable p reason ∈ (d.check root s).diagnostics ↔
      ∃ fault, d.store.load (d.key root) s = .error fault ∧ p = root ∧ reason = fault.message) ∧
    (∀ p reason, .evidenceUnavailable p reason ∈ (d.check root s).diagnostics ↔
      ∃ stored, d.store.load (d.key root) s = .ok (some stored) ∧ d.Hindered root stored p reason) ∧
    ((d.check root s).hindrances = [] ∨ (d.check root s).result = .ok true) := by
  have hunreadable : ∀ p reason, .cacheEntryUnreadable p reason ∈ (d.check root s).diagnostics ↔
      .cacheEntryUnreadable p reason ∈ (d.check root s).hindrances := by
    simp [Reported.hindrances, Diagnostic.isHindrance]
  have hunavailable : ∀ p reason, .evidenceUnavailable p reason ∈ (d.check root s).diagnostics ↔
      .evidenceUnavailable p reason ∈ (d.check root s).hindrances := by
    simp [Reported.hindrances, Diagnostic.isHindrance]
  simp only [hunreadable, hunavailable]
  rcases hload : d.store.load (d.key root) s with fault | _ | stored
  · have hone : (d.check root s).hindrances = [.cacheEntryUnreadable root fault.message] := by
      rw [check_of_load_error hload]
      rfl
    rw [hone, check_of_load_error hload]
    simp
  · rw [check_of_load_none hload]
    simp [Reported.hindrances]
  · rw [check_of_load hload]
    simp only [mem_hindrances_checkEntry_iff]
    refine ⟨?_, by simp, by simp, ?_⟩
    · obtain hnone | ⟨p, reason, h⟩ := hindrances_checkEntry d root stored
      · simp [hnone]
      · simp [h.hindrances.1]
    · exact (hindrances_checkEntry d root stored).imp_right fun ⟨_, _, h⟩ => h.hindrances.2

end Detector

end StyleTrack
