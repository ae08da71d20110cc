/-
What a history of answered calls says about the tracker that it leaves behind.

A tracker holds two maps: captures, by root as it is spelled up to sameness, and stored entries, by key. Both
are read off the history: what is captured for a root was taken by the last question about it, if nothing was
said about the root since, and the entry under a key is what the last root of that key was recorded by. So an
edit that is made during a build is not lost, whatever else happens to the tracker and to the files: the
evidence that is stored is older than the build.
-/
import StyleTrack.Change.Standard
import StyleTrack.File.Tree
import StyleTrack.Proofs.Cache.Store
import StyleTrack.Proofs.Change.Call
import Mathlib

namespace StyleTrack

/-! ## Histories -/

/-- A call and what it answered. -/
structure Event extends Call where
  answer : Answer

/-- Answered calls, the earliest first. -/
abbrev History := List Event

/-- Whether an event stands in a history after `before` and only events of one kind follow it. -/
def History.Since (kind : Event → Prop) (h before : History) (e : Event) : Prop :=
  ∃ after, h = before ++ e :: after ∧ ∀ x ∈ after, kind x

theorem History.since_concat {kind : Event → Prop} {h before : History} {e x : Event} :
    History.Since kind (h ++ [x]) before e ↔ (before = h ∧ e = x) ∨ (kind x ∧ History.Since kind h before e) := by
  constructor
  · rintro ⟨after, heq, hafter⟩
    rcases List.eq_nil_or_concat after with rfl | ⟨after, y, rfl⟩
    · obtain ⟨rfl, hx⟩ := List.append_inj' heq rfl
      cases hx
      exact .inl ⟨rfl, rfl⟩
    · rw [List.concat_eq_append, ← List.cons_append, ← List.append_assoc] at heq
      obtain ⟨rfl, hx⟩ := List.append_inj' heq rfl
      cases hx
      exact .inr ⟨hafter x (by simp), after, rfl, fun z hz => hafter z (by simp [hz])⟩
  · rintro (⟨rfl, rfl⟩ | ⟨hx, after, rfl, hafter⟩)
    · exact ⟨[], rfl, by simp⟩
    · refine ⟨after ++ [x], by simp, fun z hz => ?_⟩
      rcases List.mem_append.1 hz with hz | hz
      · exact hafter z hz
      · rw [List.mem_singleton.1 hz]
        exact hx

namespace Event

variable {σ : Type}

/-- Whether an event decides what is captured for a root: a question about it that was answered, or word that
it was built or is to be forgotten. -/
def Decides (e : Event) (root : Path) : Prop :=
  e.root.components = root.components ∧ (e.action = .needsBuild → ∃ b, e.answer = .ok b)

/-- Whether an event recorded a root of a key. -/
def Records (d : Detector σ) (key : CacheKey) (e : Event) : Prop :=
  e.action = .markBuilt ∧ d.key e.root = key ∧ ∃ b, e.answer = .ok b

/-- Whether an event is that a root of a key is to be forgotten. -/
def Forgets (d : Detector σ) (key : CacheKey) (e : Event) : Prop :=
  e.action = .invalidate ∧ d.key e.root = key

/-- The snapshot of the root of an event, at the time of the event. -/
def snapshot (d : Detector σ) (e : Event) : Except CacheError CacheEntry :=
  ((d.within e.lister).snapshot e.root).result

end Event

namespace History

variable {σ : Type}

/-- Whether an entry is the snapshot that was taken with the last question about a root: the last event that
decides about the root is a question with the answer that it has to be built. -/
def Captured (d : Detector σ) (h : History) (root : Path) (entry : CacheEntry) : Prop :=
  ∃ before e, Since (fun x => ¬ x.Decides root) h before e ∧ e.Decides root ∧ e.action = .needsBuild ∧
    e.answer = .ok (some true) ∧ e.snapshot d = .ok entry

/-- Whether no root of a key was recorded since one was to be forgotten, or since the start. -/
def Unrecorded (d : Detector σ) (h : History) (key : CacheKey) : Prop :=
  ∀ before e, Since (fun x => ¬ x.Forgets d key) h before e → ¬ e.Records d key

/-- Whether an event is the last that recorded a root of a key, and no such root is to be forgotten since. -/
def LastRecord (d : Detector σ) (h : History) (key : CacheKey) (before : History) (e : Event) : Prop :=
  Since (fun x => ¬ x.Records d key ∧ ¬ x.Forgets d key) h before e ∧ e.Records d key

variable {d : Detector σ} {h : History} {root : Path} {entry : CacheEntry} {x : Event}

theorem captured_concat_of_decides (hx : x.Decides root) :
    Captured d (h ++ [x]) root entry ↔
      x.action = .needsBuild ∧ x.answer = .ok (some true) ∧ x.snapshot d = .ok entry := by
  constructor
  · rintro ⟨before, e, hsince, -, htaken⟩
    rcases since_concat.1 hsince with ⟨-, rfl⟩ | ⟨hquiet, -⟩
    · exact htaken
    · exact absurd hx hquiet
  · intro htaken
    exact ⟨h, x, since_concat.2 (.inl ⟨rfl, rfl⟩), hx, htaken⟩

theorem captured_concat_of_not_decides (hx : ¬ x.Decides root) :
    Captured d (h ++ [x]) root entry ↔ Captured d h root entry := by
  constructor
  · rintro ⟨before, e, hsince, he, htaken⟩
    rcases since_concat.1 hsince with ⟨-, rfl⟩ | ⟨-, hsince⟩
    · exact absurd he hx
    · exact ⟨before, e, hsince, he, htaken⟩
  · rintro ⟨before, e, hsince, htaken⟩
    exact ⟨before, e, since_concat.2 (.inr ⟨hx, hsince⟩), htaken⟩

/-- What was captured for a root has the key of the root. -/
theorem Captured.key_eq (hc : Captured d h root entry) : d.key entry.root = d.key root := by
  obtain ⟨before, e, -, ⟨hsame, -⟩, -, -, hsnap⟩ := hc
  rw [(Detector.snapshot_spec hsnap).1]
  exact d.key_congr hsame

theorem unrecorded_concat_of_forgets {key : CacheKey} (hx : x.Forgets d key) : Unrecorded d (h ++ [x]) key := by
  intro before e hsince hrecords
  rcases since_concat.1 hsince with ⟨-, rfl⟩ | ⟨hquiet, -⟩
  · have haction := hx.1
    rw [hrecords.1] at haction
    cases haction
  · exact hquiet hx

end History

/-! ## Runs -/

namespace Tracker

variable {σ : Type}

/-- Makes calls one after the other. -/
def run (d : Detector σ) : List Call → Tracker σ → History × Tracker σ
  | [], t => ([], t)
  | c :: rest, t =>
    let (answer, t) := perform d t c
    let (h, t) := run d rest t
    (⟨c, answer⟩ :: h, t)

theorem run_concat (d : Detector σ) (calls : List Call) (c : Call) (t : Tracker σ) :
    run d (calls ++ [c]) t = ((run d calls t).1 ++ [⟨c, (perform d (run d calls t).2 c).1⟩],
      (perform d (run d calls t).2 c).2) := by
  induction calls generalizing t with
  | nil => rfl
  | cons c' calls ih =>
    simp only [List.cons_append, run, ih]

/-! ## Captures -/

variable {d : Detector σ} {h : History} {t : Tracker σ}

/-- A call keeps that the captures are those that the history tells of. -/
theorem pending_perform (hpending : ∀ r entry, t.pending.get? r = some entry ↔ h.Captured d r entry) (c : Call)
    (r : Path) (entry : CacheEntry) : (perform d t c).2.pending.get? r = some entry ↔
      History.Captured d (h ++ [⟨c, (perform d t c).1⟩]) r entry := by
  obtain ⟨action, root, lister⟩ := c
  by_cases hsame : r.components = root.components
  case neg =>
    -- the call is about another root
    rw [History.captured_concat_of_not_decides fun hx => hsame hx.1.symm, ← hpending]
    cases action with
    | needsBuild => rw [perform_needsBuild, get?_pending_needsBuild, if_neg hsame]
    | markBuilt => rw [perform_markBuilt, get?_pending_markBuilt, if_neg hsame]
    | invalidate => rw [perform_invalidate, get?_pending_invalidate, if_neg hsame]
  case pos =>
    cases action with
    | markBuilt =>
      rw [History.captured_concat_of_decides ⟨hsame.symm, fun hask => by cases hask⟩, perform_markBuilt,
        get?_pending_markBuilt, if_pos hsame]
      simp
    | invalidate =>
      rw [History.captured_concat_of_decides ⟨hsame.symm, fun hask => by cases hask⟩, perform_invalidate,
        get?_pending_invalidate, if_pos hsame]
      simp
    | needsBuild =>
      rw [perform_needsBuild, get?_pending_needsBuild, if_pos hsame]
      dsimp only
      cases hresult : (needsBuild (d.within lister) root t).1.result with
      | error fault =>
        -- a question that fails decides nothing
        rw [History.captured_concat_of_not_decides, ← hpending]
        rintro ⟨-, hanswered⟩
        obtain ⟨b, hb⟩ := hanswered rfl
        cases hb
      | ok changed =>
        rw [History.captured_concat_of_decides ⟨hsame.symm, fun _ => ⟨_, rfl⟩⟩]
        cases changed with
        | false => simp [Except.map]
        | true =>
          show _ ↔ _ ∧ _ ∧ ((d.within lister).snapshot root).result = .ok entry
          cases ((d.within lister).snapshot root).result <;> simp [Except.toOption, Except.map]

/-! ## Stored entries -/

/-- Whether the entry under a key is the one that a history tells of: none if no root of the key is recorded,
else what was captured for the last root that was recorded, or its snapshot at that time if nothing was. -/
structure Accounted (d : Detector σ) (h : History) (t : Tracker σ) (key : CacheKey) : Prop where
  absent : h.Unrecorded d key → d.store.load key t.stored = .ok none
  captured : ∀ before e entry, h.LastRecord d key before e → before.Captured d e.root entry →
    d.store.load key t.stored = .ok (some entry)
  fresh : ∀ before e, h.LastRecord d key before e → (∀ entry, ¬ before.Captured d e.root entry) →
    ∃ entry, e.snapshot d = .ok entry ∧ d.store.load key t.stored = .ok (some entry)

/-- An event that neither records nor forgets a root of a key leaves the account of the key. -/
theorem Accounted.concat {key : CacheKey} {t' : Tracker σ} {x : Event} (ha : Accounted d h t key)
    (hrecords : ¬ x.Records d key) (hforgets : ¬ x.Forgets d key)
    (hload : d.store.load key t'.stored = d.store.load key t.stored) : Accounted d (h ++ [x]) t' key := by
  have hlast : ∀ {before e}, History.LastRecord d (h ++ [x]) key before e → h.LastRecord d key before e := by
    rintro before e ⟨hsince, he⟩
    rcases History.since_concat.1 hsince with ⟨-, rfl⟩ | ⟨-, hsince⟩
    · exact absurd he hrecords
    · exact ⟨hsince, he⟩
  refine ⟨fun hnone => ?_, fun before e entry he hc => ?_, fun before e he hnone => ?_⟩
  · rw [hload]
    exact ha.absent fun before e hsince => hnone before e (History.since_concat.2 (.inr ⟨hforgets, hsince⟩))
  · rw [hload]
    exact ha.captured before e entry (hlast he) hc
  · rw [hload]
    exact ha.fresh before e (hlast he) hnone

/-- After a root of a key is forgotten, nothing is recorded under the key. -/
theorem accounted_of_forgets {key : CacheKey} {x : Event} (hx : x.Forgets d key)
    (hload : d.store.load key t.stored = .ok none) : Accounted d (h ++ [x]) t key := by
  have hlast : ∀ before e, ¬ History.LastRecord d (h ++ [x]) key before e := by
    rintro before e ⟨hsince, he⟩
    exact History.unrecorded_concat_of_forgets hx before e
      (hsince.imp fun after hafter => ⟨hafter.1, fun y hy => (hafter.2 y hy).2⟩) he
  exact ⟨fun _ => hload, fun before e entry he => absurd he (hlast before e),
    fun before e he => absurd he (hlast before e)⟩

/-- After a root of a key is recorded, the entry that was due is under the key. -/
theorem accounted_of_records {key : CacheKey} {x : Event} {t' : Tracker σ} {entry : CacheEntry}
    (hpending : ∀ r entry, t.pending.get? r = some entry ↔ h.Captured d r entry) (hx : x.Records d key)
    (hdue : due (d.within x.lister) x.root t = .ok entry)
    (hload : d.store.load key t'.stored = .ok (some entry)) : Accounted d (h ++ [x]) t' key := by
  have hlast : ∀ {before e}, History.LastRecord d (h ++ [x]) key before e → before = h ∧ e = x := by
    rintro before e ⟨hsince, -⟩
    rcases History.since_concat.1 hsince with hlast | ⟨hquiet, -⟩
    · exact hlast
    · exact absurd hx hquiet.1
  unfold due at hdue
  refine ⟨fun hnone => ?_, fun before e captured he hc => ?_, fun before e he hnone => ?_⟩
  · exact absurd hx (hnone h x (History.since_concat.2 (.inl ⟨rfl, rfl⟩)))
  · obtain ⟨rfl, rfl⟩ := hlast he
    rw [(hpending _ _).2 hc] at hdue
    cases hdue
    exact hload
  · obtain ⟨rfl, rfl⟩ := hlast he
    have hget : t.pending.get? e.root = none :=
      Option.eq_none_iff_forall_ne_some.2 fun captured hc => hnone captured ((hpending _ _).1 hc)
    rw [hget] at hdue
    exact ⟨entry, hdue, hload⟩

/-- A call to a tracker over a reliable store keeps the account of a key. -/
theorem accounted_perform {key : CacheKey} (hstore : d.store.Reliable)
    (hpending : ∀ r entry, t.pending.get? r = some entry ↔ h.Captured d r entry) (ha : Accounted d h t key) (c : Call)
    (hkey : key.Apart (d.key c.root)) :
    Accounted d (h ++ [⟨c, (perform d t c).1⟩]) (perform d t c).2 key := by
  obtain ⟨action, root, lister⟩ := c
  cases action with
  | needsBuild =>
    refine ha.concat (fun hx => by cases hx.1) (fun hx => by cases hx.1) ?_
    rw [perform_needsBuild, stored_needsBuild]
  | invalidate =>
    have hload := hstore.load_delete key (d.key root) t.stored hkey
    by_cases heq : key = d.key root
    · refine accounted_of_forgets ⟨rfl, heq.symm⟩ ?_
      rw [if_pos heq] at hload
      exact hload
    · refine ha.concat (fun hx => by cases hx.1) (fun hx => heq hx.2.symm) ?_
      rw [if_neg heq] at hload
      exact hload
  | markBuilt =>
    cases hdue : due (d.within lister) root t with
    | error fault =>
      obtain ⟨hresult, hstate⟩ := markBuilt_of_due_error _ root t hdue
      rw [perform_markBuilt, hresult, hstate]
      refine ha.concat (fun hx => ?_) (fun hx => by cases hx.1) rfl
      obtain ⟨b, hb⟩ := hx.2.2
      cases hb
    | ok entry =>
      obtain ⟨hresult, hstored⟩ := markBuilt_of_due _ root t hdue
      have hroot : d.key entry.root = d.key root :=
        key_of_due (d.within lister) root t (fun captured hc => ((hpending _ _).1 hc).key_eq) hdue
      have hsaved : (d.store.save (d.key entry.root) entry t.stored).1 = .ok () := hstore.save_ok _ _ _
      have hload := hstore.load_save key (d.key entry.root) entry t.stored (hroot ▸ hkey)
      have hanswer : (markBuilt (d.within lister) root t).1.result = .ok () := by
        rw [hresult, Detector.record_within]
        show (d.store.save (d.key entry.root) entry t.stored).1.mapError _ = _
        rw [hsaved]
        rfl
      have hstate : (markBuilt (d.within lister) root t).2.stored =
          (d.store.save (d.key entry.root) entry t.stored).2 := hstored
      rw [perform_markBuilt, hanswer]
      by_cases heq : key = d.key root
      · refine accounted_of_records hpending ⟨rfl, heq.symm, _, rfl⟩ hdue ?_
        rw [hstate, hload, if_pos (heq.trans hroot.symm)]
      · refine ha.concat (fun hx => heq hx.2.1.symm) (fun hx => by cases hx.1) ?_
        rw [hstate, hload, if_neg fun heq' => heq (heq'.trans hroot)]

/-! ## Whole runs -/

theorem pending_of_run (d : Detector σ) (s : σ) (calls : List Call) (r : Path) (entry : CacheEntry) :
    (run d calls (start s)).2.pending.get? r = some entry ↔ (run d calls (start s)).1.Captured d r entry := by
  induction calls using List.reverseRecOn generalizing r entry with
  | nil =>
    constructor
    · intro hget
      simp [run, start] at hget
    · rintro ⟨before, e, ⟨after, heq, -⟩, -⟩
      exact absurd heq.symm (by simp [run])
  | append_singleton calls c ih =>
    rw [run_concat]
    exact pending_perform ih c r entry

/-- No evidence of an edit is lost: whatever is called and however the files change between the calls, the
entry under a key is absent if no root of the key was recorded since one was to be forgotten. Else it is what
the last question about that root captured, if nothing was said about the root until it was recorded, and only
without such a capture the snapshot at the time when it was recorded. -/
theorem stored_of_run {s : σ} {key : CacheKey} (hstore : d.store.Reliable) (hempty : d.store.load key s = .ok none)
    (calls : List Call) (hkey : ∀ c ∈ calls, key.Apart (d.key c.root)) :
    Accounted d (run d calls (start s)).1 (run d calls (start s)).2 key := by
  induction calls using List.reverseRecOn with
  | nil =>
    have hlast : ∀ before e, ¬ History.LastRecord d (run d [] (start s)).1 key before e := by
      rintro before e ⟨⟨after, heq, -⟩, -⟩
      exact absurd heq.symm (by simp [run])
    exact ⟨fun _ => hempty, fun before e _ he => absurd he (hlast before e),
      fun before e he => absurd he (hlast before e)⟩
  | append_singleton calls c ih =>
    rw [run_concat]
    exact accounted_perform hstore (pending_of_run d s calls) (ih fun c' hc' => hkey c' (by simp [hc'])) c
      (hkey c (by simp))

/-- A style sheet, and the same after an edit. -/
def drafted : FileTree := ⟨.ofList [(.ofString "main.less", ⟨Text.Utf8.ofString "p", ⟨100, 0⟩⟩)], []⟩

def revised : FileTree := drafted.write (.ofString "main.less") ⟨Text.Utf8.ofString "q", ⟨200, 0⟩⟩

/-- The question before the edit, and word of the build after it, under another spelling of the root. -/
def beforeEdit : Event := ⟨⟨.needsBuild, .ofString "main.less", .standard drafted.system {}⟩, .ok (some true)⟩

def afterEdit : Event := ⟨⟨.markBuilt, .ofString "main.less/", .standard revised.system {}⟩, .ok none⟩

def editedBuild : List Call := [beforeEdit.toCall, afterEdit.toCall]

/-- A detector over a store in memory. -/
def inMemory : Detector MemoryStore := .standard drafted.system {} MemoryStore.store .mtime .empty

theorem stored_of_run_editedBuild :
    inMemory.store.Reliable ∧ inMemory.store.load (inMemory.key (.ofString "main.less")) .empty = .ok none ∧
      (∀ c ∈ editedBuild, (inMemory.key (.ofString "main.less")).Apart (inMemory.key c.root)) ∧
      Accounted inMemory (run inMemory editedBuild (start .empty)).1 (run inMemory editedBuild (start .empty)).2
        (inMemory.key (.ofString "main.less")) ∧
      inMemory.store.load (inMemory.key (.ofString "main.less")) (run inMemory editedBuild (start .empty)).2.stored =
        .ok (some (.ofList (.ofString "main.less") (.modified 100 0) [])) := by
  have hsame : (Path.ofString "main.less/").components = (Path.ofString "main.less").components := by decide
  have hkey : ∀ c ∈ editedBuild, (inMemory.key (.ofString "main.less")).Apart (inMemory.key c.root) := by
    intro c hc _
    simp only [editedBuild, List.mem_cons, List.not_mem_nil, or_false] at hc
    rcases hc with rfl | rfl
    · rfl
    · exact inMemory.key_congr hsame.symm
  have hrun := stored_of_run (d := inMemory) (s := .empty) MemoryStore.reliable rfl editedBuild hkey
  refine ⟨MemoryStore.reliable, rfl, hkey, hrun, ?_⟩
  -- the question is answered and its snapshot captured, so it is due when the root was built
  have hsnap : beforeEdit.snapshot inMemory = .ok (.ofList (.ofString "main.less") (.modified 100 0) []) := by cbv
  have hcaptured : History.Captured inMemory [beforeEdit] afterEdit.root
      (.ofList (.ofString "main.less") (.modified 100 0) []) :=
    ⟨[], beforeEdit, ⟨[], rfl, by simp⟩, ⟨hsame.symm, fun _ => ⟨true, rfl⟩⟩, rfl, rfl, hsnap⟩
  have hasked : (perform inMemory (start .empty) beforeEdit.toCall).1 = beforeEdit.answer := by
    have hcheck : ((inMemory.within beforeEdit.lister).check beforeEdit.root .empty).result = .ok true := rfl
    exact congrArg (Except.map some)
      (needsBuild_of_check_ok (inMemory.within beforeEdit.lister) beforeEdit.root (start SortedMap.empty) hcheck).1
  have hfirst : (run inMemory [beforeEdit.toCall] (start .empty)).1 = [beforeEdit] :=
    congrArg (fun answer => [(⟨beforeEdit.toCall, answer⟩ : Event)]) hasked
  have hdue : due (inMemory.within afterEdit.lister) afterEdit.root
      (run inMemory [beforeEdit.toCall] (start .empty)).2 =
        .ok (.ofList (.ofString "main.less") (.modified 100 0) []) := by
    rw [due, (pending_of_run inMemory .empty [beforeEdit.toCall] afterEdit.root _).2 (hfirst ▸ hcaptured)]
  have hhistory : (run inMemory editedBuild (start .empty)).1 = [beforeEdit, afterEdit] := by
    have hrecorded := (markBuilt_of_due (inMemory.within afterEdit.lister) afterEdit.root _ hdue).1
    have hbuilt : (perform inMemory (run inMemory [beforeEdit.toCall] (start .empty)).2 afterEdit.toCall).1 =
        afterEdit.answer := congrArg (Except.map fun _ => none) hrecorded
    rw [show editedBuild = [beforeEdit.toCall] ++ [afterEdit.toCall] from rfl, run_concat, hfirst, hbuilt]
    rfl
  refine hrun.captured [beforeEdit] afterEdit _ ?_ hcaptured
  rw [hhistory]
  exact ⟨⟨[], rfl, by simp⟩, rfl, inMemory.key_congr hsame, none, rfl⟩

end Tracker

end StyleTrack
