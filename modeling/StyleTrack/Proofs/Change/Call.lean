/-
Calls to a tracker and what each does to its two parts: a call changes what is captured for its own root at
most, and the store takes in or gives up one entry at most. All of this holds of every store, whether or not
its operations fail.

A call is made in surroundings of its own, the file system and whoever lists dependencies in it, so a run of
calls is at the same time a run of arbitrary changes to the files.
-/
import StyleTrack.Change.Tracker
import StyleTrack.Proofs.Change.Decision
import StyleTrack.Proofs.Path.Join

namespace StyleTrack

/-! ## Surroundings -/

namespace Detector

variable {σ : Type}

/-- The detector in other surroundings, with the same store, kind of evidence and base. -/
def within (d : Detector σ) (l : Lister) : Detector σ := { d with lister := l }

@[simp]
theorem record_within (d : Detector σ) (l : Lister) (entry : CacheEntry) (s : σ) :
    (d.within l).record entry s = d.record entry s := rfl

/-- The spellings of a root share its key. -/
theorem key_congr (d : Detector σ) {p q : Path} (h : p.components = q.components) : d.key p = d.key q :=
  CacheKey.ofRoot_congr d.base h

end Detector

/-! ## Calls -/

/-- What can be asked of a tracker. -/
inductive Action where
  | needsBuild
  | markBuilt
  | invalidate
deriving DecidableEq, Repr

/-- A call about a root, and the surroundings at the time of the call. -/
structure Call where
  action : Action
  root : Path
  lister : Lister

/-- What a call answers: whether to build, or nothing. -/
abbrev Answer := Except CacheError (Option Bool)

namespace Tracker

variable {σ : Type} (d : Detector σ) (root : Path) (t : Tracker σ)

/-- Makes a call. -/
def perform (c : Call) : Answer × Tracker σ :=
  match c.action with
  | .needsBuild => let (r, t) := needsBuild (d.within c.lister) c.root t; (r.result.map some, t)
  | .markBuilt => let (r, t) := markBuilt (d.within c.lister) c.root t; (r.result.map fun _ => none, t)
  | .invalidate => let (r, t) := invalidate (d.within c.lister) c.root t; (r.result.map fun _ => none, t)

@[simp]
theorem perform_needsBuild (l : Lister) : perform d t ⟨.needsBuild, root, l⟩ =
    ((needsBuild (d.within l) root t).1.result.map some, (needsBuild (d.within l) root t).2) := rfl

@[simp]
theorem perform_markBuilt (l : Lister) : perform d t ⟨.markBuilt, root, l⟩ =
    ((markBuilt (d.within l) root t).1.result.map fun _ => none, (markBuilt (d.within l) root t).2) := rfl

@[simp]
theorem perform_invalidate (l : Lister) : perform d t ⟨.invalidate, root, l⟩ =
    ((invalidate (d.within l) root t).1.result.map fun _ => none, (invalidate (d.within l) root t).2) := rfl

/-- The entry that is to be recorded when a root was built. -/
def due : Except CacheError CacheEntry :=
  match t.pending.get? root with
  | some entry => .ok entry
  | none => (d.snapshot root).result

/-! ## Captures -/

theorem get?_insert_pending {r : Path} {entry : CacheEntry} :
    (t.pending.insert root entry).get? r = if r.components = root.components then some entry else t.pending.get? r := by
  rw [SortedMap.get?_insert]
  exact if_congr Path.compare_eq_iff rfl rfl

theorem get?_erase_pending {r : Path} :
    (t.pending.erase root).get? r = if r.components = root.components then none else t.pending.get? r := by
  rw [SortedMap.get?_erase]
  exact if_congr Path.compare_eq_iff rfl rfl

theorem capture_spec (changed : Bool) : (capture d root changed t).1.stored = t.stored ∧
    ∀ r, (capture d root changed t).1.pending.get? r = if r.components = root.components then
      (if changed then (d.snapshot root).result.toOption else none) else t.pending.get? r := by
  unfold capture
  cases changed with
  | false => exact ⟨rfl, fun r => get?_erase_pending root t⟩
  | true =>
    cases htaken : (d.snapshot root).result with
    | error fault => simpa [htaken, Except.toOption] using fun r => get?_erase_pending root t
    | ok entry => simpa [htaken, Except.toOption] using fun r => get?_insert_pending root t

theorem needsBuild_of_check_error {fault : CacheError} (h : (d.check root t.stored).result = .error fault) :
    (needsBuild d root t).1.result = .error fault ∧ (needsBuild d root t).2 = t := by
  unfold needsBuild
  simp [h]

theorem needsBuild_of_check_ok {changed : Bool} (h : (d.check root t.stored).result = .ok changed) :
    (needsBuild d root t).1.result = .ok changed ∧ (needsBuild d root t).2 = (capture d root changed t).1 := by
  unfold needsBuild
  simp [h]

/-- A question that is answered replaces what is captured for its root: by the snapshot if the root has to be
built and there is one, else by nothing. A question that fails leaves it. -/
theorem get?_pending_needsBuild {r : Path} : (needsBuild d root t).2.pending.get? r =
    if r.components = root.components then
      match (needsBuild d root t).1.result with
      | .error _ => t.pending.get? r
      | .ok changed => if changed then (d.snapshot root).result.toOption else none
    else t.pending.get? r := by
  cases hcheck : (d.check root t.stored).result with
  | error fault =>
    obtain ⟨hresult, hstate⟩ := needsBuild_of_check_error d root t hcheck
    simp [hresult, hstate]
  | ok changed =>
    obtain ⟨hresult, hstate⟩ := needsBuild_of_check_ok d root t hcheck
    rw [hresult, hstate, (capture_spec d root t changed).2 r]

/-- Nothing stays captured for a root that was said to be built, whether or not it could be recorded. -/
theorem get?_pending_markBuilt {r : Path} : (markBuilt d root t).2.pending.get? r =
    if r.components = root.components then none else t.pending.get? r := by
  unfold markBuilt
  cases hget : t.pending.get? root with
  | some entry => exact get?_erase_pending root t
  | none =>
    have hsame : (if r.components = root.components then none else t.pending.get? r) = t.pending.get? r := by
      split
      · rename_i h
        rw [SortedMap.get?_congr (Path.compare_eq_iff.2 h), hget]
      · rfl
    rw [hsame]
    cases htaken : (d.snapshot root).result <;> simp [recorded, htaken]

/-- Nothing stays captured for a root that is forgotten. -/
theorem get?_pending_invalidate {r : Path} : (invalidate d root t).2.pending.get? r =
    if r.components = root.components then none else t.pending.get? r :=
  get?_erase_pending root t

/-! ## Stored entries -/

theorem stored_needsBuild : (needsBuild d root t).2.stored = t.stored := by
  cases hcheck : (d.check root t.stored).result with
  | error fault => rw [(needsBuild_of_check_error d root t hcheck).2]
  | ok changed => rw [(needsBuild_of_check_ok d root t hcheck).2, (capture_spec d root t changed).1]

/-- A root that was built is recorded by the entry that is due. -/
theorem markBuilt_of_due {entry : CacheEntry} (h : due d root t = .ok entry) :
    (markBuilt d root t).1.result = (d.record entry t.stored).1 ∧
      (markBuilt d root t).2.stored = (d.record entry t.stored).2 := by
  unfold due at h
  unfold markBuilt
  cases hget : t.pending.get? root with
  | some captured =>
    rw [hget] at h
    cases h
    exact ⟨rfl, rfl⟩
  | none =>
    rw [hget] at h
    simp only at h
    simp [h, recorded]

/-- If nothing is captured and no snapshot can be taken, nothing is recorded. -/
theorem markBuilt_of_due_error {fault : CacheError} (h : due d root t = .error fault) :
    (markBuilt d root t).1.result = .error fault ∧ (markBuilt d root t).2 = t := by
  unfold due at h
  unfold markBuilt
  cases hget : t.pending.get? root with
  | some captured => rw [hget] at h; cases h
  | none =>
    rw [hget] at h
    simp only at h
    simp [h]

/-- The entry that is due for a root has the key of the root. -/
theorem key_of_due {entry : CacheEntry} (hpending : ∀ captured, t.pending.get? root = some captured →
    d.key captured.root = d.key root) (h : due d root t = .ok entry) : d.key entry.root = d.key root := by
  unfold due at h
  cases hget : t.pending.get? root with
  | some captured =>
    rw [hget] at h
    cases h
    exact hpending _ hget
  | none =>
    rw [hget] at h
    rw [(Detector.snapshot_spec h).1]

end Tracker

end StyleTrack
