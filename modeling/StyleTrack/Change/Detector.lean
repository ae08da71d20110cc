/-
Change detection: whether a root has to be built again.

A check compares the evidence that is stored with the evidence of the files as they are now. Every
doubt counts as a change: an entry that is missing or cannot be used, evidence that cannot be read, a
dependency that is new, gone or out of reach. The one exception is a malformed call in a file, which
is a failure. A snapshot is the evidence that makes the next check answer that nothing changed.
-/
import StyleTrack.Cache.Store
import StyleTrack.Import.Listing

namespace StyleTrack

/-! ## Failures -/

/-- Why changes could not be detected or recorded. -/
inductive CacheError where
  /-- The dependencies could not be listed. -/
  | imports (cause : ImportError)
  /-- The store failed. -/
  | store (cause : StoreError)
  /-- Evidence about a file could not be collected. -/
  | evidence (path : Path) (fault : FileError)
deriving DecidableEq, Repr

namespace CacheError

/-- The text of a failure. -/
def message : CacheError → String
  | imports cause => cause.message
  | store cause => cause.message
  | evidence path fault => s!"cannot collect evidence for '{path.display}': {fault.message}"

/-- The texts of what lies behind a failure. -/
def causes : CacheError → List String
  | imports cause => cause.causes
  | store _ => []
  | evidence _ fault => fault.message :: fault.causes

end CacheError

/-- The result of an operation and the diagnostics that it gave. -/
structure Reported (α : Type) where
  result : Except CacheError α
  diagnostics : List Diagnostic

/-! ## Detectors -/

/-- Who detects changes, over a store whose states are `σ`. -/
structure Detector (σ : Type) where
  lister : Lister
  store : Store σ
  kind : EvidenceKind
  /-- The directory that roots are relative to when their keys are derived. -/
  base : Path

namespace Detector

variable {σ : Type}

/-- The key of a root. -/
def key (d : Detector σ) (root : Path) : CacheKey := .ofRoot d.base root

/-- The evidence about a file as it is now. -/
def evidence (d : Detector σ) (p : Path) : Except FileError Evidence :=
  Evidence.collect d.kind d.lister.fs p

/-! ## Checking -/

/-- Whether one of the dependencies differs from what is stored, and what there is to report. -/
def compareDependencies (d : Detector σ) (stored : CacheEntry) : List Path → Bool × List Diagnostic
  | [] => (false, [])
  | p :: rest =>
    match stored.dependencies.get? p with
    | none => (true, [])
    | some recorded =>
      match d.evidence p with
      | .ok current => if current = recorded then d.compareDependencies stored rest else (true, [])
      | .error fault => (true, if fault.isNotFound then [] else [.evidenceUnavailable p fault.message])

/-- Whether the dependencies of a root with the given content differ from what is stored. -/
def checkContent (d : Detector σ) (root : Path) (stored : CacheEntry) (content : List UInt8) :
    Reported Bool :=
  let listed := d.lister.list (some ⟨some root, some (.buffer content)⟩)
  match listed.result with
  | .error e =>
    if e.isMalformedReference then ⟨.error (.imports e), listed.trace.diagnostics⟩
    else ⟨.ok true, listed.trace.diagnostics ++ [.evidenceUnavailable root e.message]⟩
  | .ok dependencies =>
    let compared := d.compareDependencies stored dependencies
    ⟨.ok compared.1, listed.trace.diagnostics ++ compared.2⟩

/-- Whether a root or one of its dependencies differs from what is stored. -/
def checkEntry (d : Detector σ) (root : Path) (stored : CacheEntry) : Reported Bool :=
  match d.evidence root with
  | .error fault => ⟨.ok true, [.evidenceUnavailable root fault.message]⟩
  | .ok current =>
    if current ≠ stored.evidence then ⟨.ok true, []⟩
    else match d.lister.fs.read root with
      | .error fault => ⟨.ok true, [.evidenceUnavailable root fault.message]⟩
      | .ok content => d.checkContent root stored content

/-- Whether a root or one of its dependencies changed since an entry was last recorded. -/
def check (d : Detector σ) (root : Path) (s : σ) : Reported Bool :=
  match d.store.load (d.key root) s with
  | .error e => ⟨.ok true, [.cacheEntryUnreadable root e.message]⟩
  | .ok none => ⟨.ok true, []⟩
  | .ok (some stored) => d.checkEntry root stored

/-! ## Snapshots -/

/-- The evidence about a file, as part of a snapshot. -/
def required (d : Detector σ) (p : Path) : Except CacheError Evidence := (d.evidence p).mapError (.evidence p)

/-- The evidence about a root and its dependencies as they are now. -/
def snapshot (d : Detector σ) (root : Path) : Reported CacheEntry :=
  match d.required root with
  | .error e => ⟨.error e, []⟩
  | .ok evidence =>
    let listed := d.lister.listPath root
    let entry := do
      let dependencies ← listed.result.mapError .imports
      let found ← dependencies.mapM fun p => return (p, ← d.required p)
      return CacheEntry.ofList root evidence found
    ⟨entry, listed.trace.diagnostics⟩

/-! ## Recording -/

/-- Stores an entry in place of the one that is stored about its root. -/
def record (d : Detector σ) (entry : CacheEntry) (s : σ) : Except CacheError Unit × σ :=
  let (result, s) := d.store.save (d.key entry.root) entry s
  (result.mapError .store, s)

/-- Takes away what is stored about a root, so that its next check answers that it changed. -/
def forget (d : Detector σ) (root : Path) (s : σ) : Except CacheError Unit × σ :=
  let (result, s) := d.store.delete (d.key root) s
  (result.mapError .store, s)

end Detector

end StyleTrack
