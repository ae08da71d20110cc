/-
Tracking: what a build pipeline asks about each root.

The pipeline asks whether a root needs to be built and says when it was built. Evidence is captured
with the question and recorded when the build is done, so a file that is edited during the build still
counts as changed afterwards.
-/
import StyleTrack.Change.Detector

namespace StyleTrack

/-- What is known about roots: evidence that was captured before a build, and what is stored. -/
structure Tracker (σ : Type) where
  /-- Evidence that waits for the build of its root. -/
  pending : SortedMap Path CacheEntry
  /-- The state of the store. -/
  stored : σ

namespace Tracker

variable {σ : Type}

/-- The tracker over a store, with nothing captured. -/
def start (stored : σ) : Tracker σ := ⟨.empty, stored⟩

/-- What is captured when a check has answered. -/
def capture (d : Detector σ) (root : Path) (changed : Bool) (t : Tracker σ) : Tracker σ × List Diagnostic :=
  if changed then
    let taken := d.snapshot root
    match taken.result with
    | .ok entry => ({ t with pending := t.pending.insert root entry }, taken.diagnostics)
    | .error _ => ({ t with pending := t.pending.erase root }, taken.diagnostics)
  else ({ t with pending := t.pending.erase root }, [])

/-- Whether a root has to be built. Its evidence is captured if it has. -/
def needsBuild (d : Detector σ) (root : Path) (t : Tracker σ) : Reported Bool × Tracker σ :=
  let checked := d.check root t.stored
  match checked.result with
  | .error _ => (checked, t)
  | .ok changed =>
    let (t, diagnostics) := capture d root changed t
    (⟨.ok changed, checked.diagnostics ++ diagnostics⟩, t)

/-- Records an entry. -/
def recorded (d : Detector σ) (entry : CacheEntry) (diagnostics : List Diagnostic) (t : Tracker σ) :
    Reported Unit × Tracker σ :=
  let (result, stored) := d.record entry t.stored
  (⟨result, diagnostics⟩, { t with stored })

/-- Records that a root was built: with the evidence that was captured before, or else with evidence
of the files as they are now. -/
def markBuilt (d : Detector σ) (root : Path) (t : Tracker σ) : Reported Unit × Tracker σ :=
  match t.pending.get? root with
  | some entry => recorded d entry [] { t with pending := t.pending.erase root }
  | none =>
    let taken := d.snapshot root
    match taken.result with
    | .error e => (⟨.error e, taken.diagnostics⟩, t)
    | .ok entry => recorded d entry taken.diagnostics t

/-- Forgets a root, so that it has to be built. -/
def invalidate (d : Detector σ) (root : Path) (t : Tracker σ) : Reported Unit × Tracker σ :=
  let (result, stored) := d.forget root t.stored
  (⟨result, []⟩, { pending := t.pending.erase root, stored })

end Tracker

end StyleTrack
