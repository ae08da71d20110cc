/-
Calls that fail, over any store.

The entries are what they were, if the store keeps them when it fails, and so are the captures after a question
that fails. But word that a root was built, or is to be forgotten, takes the capture of the root out before the
store is asked, and a failure of the store does not bring it back. So the captures are intact exactly if there
was none for the root, and trying again records a snapshot of that later time, in which an edit made during the
build looks like nothing new.
-/
import StyleTrack.Proofs.Change.History

namespace StyleTrack

theorem exists_of_mapError_eq_error {ε ε' α : Type} {f : ε → ε'} {x : Except ε α} {e : ε'}
    (h : x.mapError f = .error e) : ∃ cause, x = .error cause := by
  cases x with
  | error cause => exact ⟨cause, rfl⟩
  | ok a => cases h

theorem map_eq_error_iff {ε α β : Type} {f : α → β} {x : Except ε α} {e : ε} : x.map f = .error e ↔ x = .error e := by
  cases x <;> simp [Except.map]

namespace Detector

variable {σ : Type} {d : Detector σ}

theorem load_record_of_error (hsteady : d.store.Steady) {entry : CacheEntry} {s : σ} {fault : CacheError}
    (h : (d.record entry s).1 = .error fault) (key : CacheKey) :
    d.store.load key (d.record entry s).2 = d.store.load key s := by
  obtain ⟨cause, hsave⟩ := exists_of_mapError_eq_error h
  exact hsteady.load_save key _ entry cause s hsave

theorem load_forget_of_error (hsteady : d.store.Steady) {root : Path} {s : σ} {fault : CacheError}
    (h : (d.forget root s).1 = .error fault) (key : CacheKey) :
    d.store.load key (d.forget root s).2 = d.store.load key s := by
  obtain ⟨cause, hdelete⟩ := exists_of_mapError_eq_error h
  exact hsteady.load_delete key _ cause s hdelete

end Detector

namespace Tracker

variable {σ : Type} {d : Detector σ} {t : Tracker σ}

/-- A question that fails leaves the tracker as it was. -/
theorem needsBuild_of_error {root : Path} {fault : CacheError} (h : (needsBuild d root t).1.result = .error fault) :
    (needsBuild d root t).2 = t := by
  cases hcheck : (d.check root t.stored).result with
  | error cause => exact (needsBuild_of_check_error d root t hcheck).2
  | ok changed =>
    rw [(needsBuild_of_check_ok d root t hcheck).1] at h
    cases h

theorem pending_markBuilt_of_none {root : Path} (h : t.pending.get? root = none) :
    (markBuilt d root t).2.pending = t.pending := by
  unfold markBuilt
  rw [h]
  cases htaken : (d.snapshot root).result <;> simp [recorded, htaken]

/-- A call that fails leaves every stored entry as it was. -/
theorem load_of_error (hsteady : d.store.Steady) {c : Call} {fault : CacheError}
    (hfail : (perform d t c).1 = .error fault) (key : CacheKey) :
    d.store.load key (perform d t c).2.stored = d.store.load key t.stored := by
  obtain ⟨action, root, lister⟩ := c
  cases action with
  | needsBuild => rw [perform_needsBuild, stored_needsBuild]
  | invalidate => exact Detector.load_forget_of_error hsteady (map_eq_error_iff.1 hfail) key
  | markBuilt =>
    cases hdue : due (d.within lister) root t with
    | error cause => rw [perform_markBuilt, (markBuilt_of_due_error _ root t hdue).2]
    | ok entry =>
      obtain ⟨hresult, hstored⟩ := markBuilt_of_due _ root t hdue
      rw [perform_markBuilt, hresult] at hfail
      rw [perform_markBuilt, hstored]
      exact Detector.load_record_of_error hsteady (map_eq_error_iff.1 hfail) key

/-- What a call that fails leaves of the captures. -/
theorem get?_pending_of_error {c : Call} {fault : CacheError} (hfail : (perform d t c).1 = .error fault) (r : Path) :
    (perform d t c).2.pending.get? r =
      if c.action ≠ .needsBuild ∧ r.components = c.root.components then none else t.pending.get? r := by
  obtain ⟨action, root, lister⟩ := c
  cases action with
  | needsBuild =>
    rw [perform_needsBuild, needsBuild_of_error (map_eq_error_iff.1 hfail)]
    simp
  | markBuilt => simp [get?_pending_markBuilt]
  | invalidate => simp [get?_pending_invalidate]

theorem pending_eq_iff_of_error {c : Call} {fault : CacheError} (hfail : (perform d t c).1 = .error fault) :
    (perform d t c).2.pending = t.pending ↔ c.action = .needsBuild ∨ t.pending.get? c.root = none := by
  constructor
  · intro heq
    by_contra hnot
    rw [not_or] at hnot
    have hgone := get?_pending_of_error hfail c.root
    rw [heq, if_pos ⟨hnot.1, rfl⟩] at hgone
    exact hnot.2 hgone
  · obtain ⟨action, root, lister⟩ := c
    intro h
    cases action with
    | needsBuild => rw [perform_needsBuild, needsBuild_of_error (map_eq_error_iff.1 hfail)]
    | markBuilt => exact pending_markBuilt_of_none (h.resolve_left (by simp))
    | invalidate => exact SortedMap.erase_of_get?_eq_none (h.resolve_left (by simp))

/-- A call that fails leaves every stored entry as it was, if the store does when it fails, and it leaves the
captures as they were exactly if it is a question or nothing was captured for its root. Else that one capture
is lost, and the next word that the root was built records, if the store allows it, a snapshot of that time and
not what was captured. -/
theorem state_of_error {c : Call} {fault : CacheError} (hfail : (perform d t c).1 = .error fault) :
    (d.store.Steady → ∀ key, d.store.load key (perform d t c).2.stored = d.store.load key t.stored) ∧
    ((perform d t c).2.pending = t.pending ↔ c.action = .needsBuild ∨ t.pending.get? c.root = none) ∧
    (∀ r, (perform d t c).2.pending.get? r =
      if c.action ≠ .needsBuild ∧ r.components = c.root.components then none else t.pending.get? r) ∧
    (c.action ≠ .needsBuild → ∀ l r, r.components = c.root.components →
      match ((d.within l).snapshot r).result with
      | .error cause => perform d (perform d t c).2 ⟨.markBuilt, r, l⟩ = (.error cause, (perform d t c).2)
      | .ok entry => (perform d (perform d t c).2 ⟨.markBuilt, r, l⟩).1 =
            (d.record entry (perform d t c).2.stored).1.map (fun _ => none) ∧
          (perform d (perform d t c).2 ⟨.markBuilt, r, l⟩).2.stored = (d.record entry (perform d t c).2.stored).2) := by
  refine ⟨fun hsteady => load_of_error hsteady hfail, pending_eq_iff_of_error hfail, get?_pending_of_error hfail,
    fun hask l r hsame => ?_⟩
  have hgone : (perform d t c).2.pending.get? r = none := by
    rw [get?_pending_of_error hfail, if_pos ⟨hask, hsame⟩]
  have hdue : due (d.within l) r (perform d t c).2 = ((d.within l).snapshot r).result := by
    rw [due, hgone]
  split
  · rename_i cause htaken
    obtain ⟨hresult, hstate⟩ := markBuilt_of_due_error _ _ _ (hdue.trans htaken)
    rw [perform_markBuilt, hresult, hstate]
    rfl
  · rename_i entry htaken
    obtain ⟨hresult, hstored⟩ := markBuilt_of_due _ _ _ (hdue.trans htaken)
    exact ⟨congrArg (Except.map fun _ => none) hresult, hstored⟩

/-- A store in memory that is full at first: it turns down one entry, and then there is room. -/
def crowded : Store (Bool × MemoryStore) where
  load key m := .ok (m.2.get? key.digest)
  save key entry m :=
    if m.1 then (.error (.access "full"), false, m.2) else (.ok (), false, m.2.insert key.digest entry)
  delete key m := (.ok (), m.1, m.2.erase key.digest)

theorem crowded_steady : crowded.Steady where
  load_save key other entry fault m h := by
    obtain ⟨full, m⟩ := m
    cases full with
    | true => rfl
    | false => cases h
  load_delete key other fault m h := by cases h

theorem load_crowded (key : CacheKey) (entry : CacheEntry) (m : MemoryStore) :
    crowded.load key (crowded.save key entry (false, m)).2 = .ok (some entry) := by
  show Except.ok (SortedMap.get? (SortedMap.insert m key.digest entry) key.digest) = _
  rw [SortedMap.get?_insert, if_pos Std.ReflOrd.compare_self]

/-- A detector over that store, and a tracker that was asked about a style sheet before it was edited. -/
def crowdedDetector : Detector (Bool × MemoryStore) := .standard drafted.system {} crowded .mtime .empty

def asked : Tracker (Bool × MemoryStore) :=
  (perform crowdedDetector (start (true, .empty)) ⟨.needsBuild, .ofString "main.less", .standard drafted.system {}⟩).2

/-- Word that it was built, after the edit. -/
def built : Call := ⟨.markBuilt, .ofString "main.less", .standard revised.system {}⟩

/-- What was captured is lost with the entry that was turned down, and what is recorded at the second try is the
evidence of the edited style sheet, which was never built. -/
theorem state_of_error_crowded :
    asked.pending.get? (.ofString "main.less") = some (.ofList (.ofString "main.less") (.modified 100 0) []) ∧
    (perform crowdedDetector asked built).1 = .error (.store (.access "full")) ∧
    (∀ key, crowded.load key (perform crowdedDetector asked built).2.stored = crowded.load key asked.stored) ∧
    (perform crowdedDetector asked built).2.pending ≠ asked.pending ∧
    (perform crowdedDetector (perform crowdedDetector asked built).2 built).1 = .ok none ∧
    crowded.load (crowdedDetector.key (.ofString "main.less"))
        (perform crowdedDetector (perform crowdedDetector asked built).2 built).2.stored =
      .ok (some (.ofList (.ofString "main.less") (.modified 200 0) [])) := by
  have hbefore : ((crowdedDetector.within (.standard drafted.system {})).snapshot (.ofString "main.less")).result =
      .ok (.ofList (.ofString "main.less") (.modified 100 0) []) := by cbv
  have hafter : ((crowdedDetector.within built.lister).snapshot built.root).result =
      .ok (.ofList (.ofString "main.less") (.modified 200 0) []) := by cbv
  have hcheck : ((crowdedDetector.within (.standard drafted.system {})).check (.ofString "main.less")
      (true, SortedMap.empty)).result = .ok true := rfl
  have hcaptured : asked.pending.get? (.ofString "main.less") =
      some (.ofList (.ofString "main.less") (.modified 100 0) []) := by
    rw [asked, perform_needsBuild, get?_pending_needsBuild, if_pos rfl,
      (needsBuild_of_check_ok _ _ (start (true, SortedMap.empty)) hcheck).1]
    exact congrArg Except.toOption hbefore
  have hfull : asked.stored = (true, SortedMap.empty) :=
    stored_needsBuild (crowdedDetector.within _) _ (start (true, SortedMap.empty))
  have hdue : due (crowdedDetector.within built.lister) built.root asked =
      .ok (.ofList (.ofString "main.less") (.modified 100 0) []) := by
    rw [due, show asked.pending.get? built.root = _ from hcaptured]
  obtain ⟨hresult, hstored⟩ := markBuilt_of_due _ _ _ hdue
  have hfail : (perform crowdedDetector asked built).1 = .error (.store (.access "full")) := by
    refine (congrArg (Except.map fun _ => none) hresult).trans ?_
    rw [hfull]
    rfl
  have hroom : (perform crowdedDetector asked built).2.stored = (false, SortedMap.empty) := by
    refine hstored.trans ?_
    rw [hfull]
    rfl
  obtain ⟨hload, hpending, -, hretry⟩ := state_of_error hfail
  have hagain := hretry (by decide) built.lister built.root rfl
  rw [hafter, hroom] at hagain
  refine ⟨hcaptured, hfail, hload crowded_steady, fun heq => ?_, hagain.1, ?_⟩
  · rcases hpending.1 heq with hask | hnone
    · cases hask
    · cases hcaptured.symm.trans hnone
  · exact (congrArg (crowded.load _) hagain.2).trans (load_crowded _ _ _)

end Tracker

end StyleTrack
