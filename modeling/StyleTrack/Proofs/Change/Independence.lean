/-
Roots are tracked independently. A call about one root neither changes what is captured for a root of another
key nor what a store answers under that key, and what a call about a root answers depends on nothing else than
these two. So the answers about the roots of one key are what they would be if no other root were ever called
about, with the same files at the same moments.

That holds of every store that keeps the entries of different digests apart: of the one in memory, and of the
one in a directory, whatever is in the directory to begin with, as long as the store can work there.
-/
import StyleTrack.Proofs.Cache.Directory
import StyleTrack.Proofs.Change.History

namespace StyleTrack

/-! ## Stores that keep entries apart -/

namespace Store

variable {τ σ : Type}

/-- Whether a store, which may go by the moment of a change, keeps what it answers under one key apart from all
changes under keys of other digests, in states of some kind: whether a change succeeds does not depend on the
state, and what is answered afterwards depends on what was answered under the key before. -/
structure Separate (store : τ → Store σ) (Good : σ → Prop) : Prop where
  load_eq : ∀ i j, (store i).load = (store j).load
  good_save : ∀ i key entry s, key.OfRoot → Good s → Good ((store i).save key entry s).2
  good_delete : ∀ i key s, key.OfRoot → Good s → Good ((store i).delete key s).2
  save_eq : ∀ i key entry s s', key.OfRoot → Good s → Good s' →
    ((store i).save key entry s).1 = ((store i).save key entry s').1
  delete_eq : ∀ i key s s', key.OfRoot → Good s → Good s' →
    ((store i).delete key s).1 = ((store i).delete key s').1
  load_save : ∀ i key entry s s', key.OfRoot → Good s → Good s' → (store i).load key s = (store i).load key s' →
    (store i).load key ((store i).save key entry s).2 = (store i).load key ((store i).save key entry s').2
  load_delete : ∀ i key s s', key.OfRoot → Good s → Good s' → (store i).load key s = (store i).load key s' →
    (store i).load key ((store i).delete key s).2 = (store i).load key ((store i).delete key s').2
  load_save_other : ∀ i key other entry s, key.OfRoot → other.OfRoot → Good s → key.digest ≠ other.digest →
    (store i).load key ((store i).save other entry s).2 = (store i).load key s
  load_delete_other : ∀ i key other s, key.OfRoot → other.OfRoot → Good s → key.digest ≠ other.digest →
    (store i).load key ((store i).delete other s).2 = (store i).load key s

end Store

theorem MemoryStore.separate {τ : Type} : Store.Separate (fun _ : τ => MemoryStore.store) fun _ => True where
  load_eq _ _ := rfl
  good_save _ _ _ _ _ _ := trivial
  good_delete _ _ _ _ _ := trivial
  save_eq _ _ _ _ _ _ _ _ := rfl
  delete_eq _ _ _ _ _ _ _ := rfl
  load_save _ key entry s s' _ _ _ _ := by
    have hload := MemoryStore.reliable.load_save key key entry
    rw [hload s fun _ => rfl, hload s' fun _ => rfl, if_pos rfl, if_pos rfl]
  load_delete _ key s s' _ _ _ _ := by
    have hload := MemoryStore.reliable.load_delete key key
    rw [hload s fun _ => rfl, hload s' fun _ => rfl, if_pos rfl, if_pos rfl]
  load_save_other _ key other entry s _ _ _ hne := by
    rw [MemoryStore.reliable.load_save key other entry s fun h => absurd h hne, if_neg]
    rintro rfl
    exact hne rfl
  load_delete_other _ key other s _ _ _ hne := by
    rw [MemoryStore.reliable.load_delete key other s fun h => absurd h hne, if_neg]
    rintro rfl
    exact hne rfl

theorem DirectoryStore.separate (dir : Path) : Store.Separate (DirectoryStore.store dir) (DirectoryStore.Works dir) where
  load_eq _ _ := rfl
  good_save now key entry d hkey hworks := by
    obtain ⟨d', hsave, hworks', -⟩ := save_spec hworks hkey now entry
    show Works dir (save dir now key entry d).2
    rwa [hsave]
  good_delete _ key d hkey hworks := by
    obtain ⟨d', hdelete, hworks', -⟩ := delete_spec hworks hkey
    show Works dir (delete dir key d).2
    rwa [hdelete]
  save_eq now key entry d d' hkey hworks hworks' := by
    obtain ⟨_, hsave, -⟩ := save_spec hworks hkey now entry
    obtain ⟨_, hsave', -⟩ := save_spec hworks' hkey now entry
    show (save dir now key entry d).1 = (save dir now key entry d').1
    rw [hsave, hsave']
  delete_eq _ key d d' hkey hworks hworks' := by
    obtain ⟨_, hdelete, -⟩ := delete_spec hworks hkey
    obtain ⟨_, hdelete', -⟩ := delete_spec hworks' hkey
    show (delete dir key d).1 = (delete dir key d').1
    rw [hdelete, hdelete']
  load_save now key entry d d' hkey hworks hworks' hload := by
    obtain ⟨after, hsave, hafter, hdocuments⟩ := save_spec hworks hkey now entry
    obtain ⟨after', hsave', hafter', hdocuments'⟩ := save_spec hworks' hkey now entry
    show load dir key (save dir now key entry d).2 = load dir key (save dir now key entry d').2
    rw [hsave, hsave', load_eq hafter hkey, load_eq hafter' hkey, hdocuments key hkey, hdocuments' key hkey]
    cases document now key entry with
    | ok bytes =>
      dsimp only
      rw [if_pos rfl, if_pos rfl]
    | error fault =>
      dsimp only
      rw [← load_eq hworks hkey, ← load_eq hworks' hkey]
      exact hload
  load_delete _ key d d' hkey hworks hworks' hload := by
    obtain ⟨after, hdelete, hafter, hdocuments⟩ := delete_spec hworks hkey
    obtain ⟨after', hdelete', hafter', hdocuments'⟩ := delete_spec hworks' hkey
    show load dir key (delete dir key d).2 = load dir key (delete dir key d').2
    rw [hdelete, hdelete', load_eq hafter hkey, load_eq hafter' hkey, hdocuments key hkey, hdocuments' key hkey]
    split_ifs
    · rfl
    · rw [← load_eq hworks hkey, ← load_eq hworks' hkey]
      exact hload
  load_save_other now key other entry d hkey hother hworks hne := by
    obtain ⟨after, hsave, hafter, hdocuments⟩ := save_spec hworks hother now entry
    show load dir key (save dir now other entry d).2 = load dir key d
    rw [hsave, load_eq hafter hkey, load_eq hworks hkey, hdocuments key hkey]
    cases document now other entry with
    | ok bytes =>
      dsimp only
      rw [if_neg (Ne.symm hne)]
    | error fault => rfl
  load_delete_other _ key other d hkey hother hworks hne := by
    obtain ⟨after, hdelete, hafter, hdocuments⟩ := delete_spec hworks hother
    show load dir key (delete dir other d).2 = load dir key d
    rw [hdelete, load_eq hafter hkey, load_eq hworks hkey, hdocuments key hkey, if_neg fun h => hne h.2.symm]

namespace Tracker

variable {τ σ : Type}

/-! ## Runs over such a store -/

/-- Makes calls one after the other, each at its moment. -/
def runAt (d : τ → Detector σ) : List (τ × Call) → Tracker σ → History × Tracker σ
  | [], t => ([], t)
  | (i, c) :: rest, t =>
    let (answer, t) := perform (d i) t c
    let (h, t) := runAt d rest t
    (⟨c, answer⟩ :: h, t)

end Tracker

/-- The detector over another store. -/
def Detector.over {σ : Type} (d : Detector σ) (store : Store σ) : Detector σ := { d with store }

/-- A check depends on what is stored under the key of its root. -/
theorem Detector.check_congr {σ : Type} {d : Detector σ} {root : Path} {s s' : σ}
    (h : d.store.load (d.key root) s = d.store.load (d.key root) s') : d.check root s = d.check root s' := by
  rw [Detector.check, Detector.check, h]

namespace Tracker

variable {τ σ : Type}

/-- Whether what is captured for a root has its key. -/
def Faithful (d : Detector σ) (t : Tracker σ) : Prop :=
  ∀ root entry, t.pending.get? root = some entry → d.key entry.root = d.key root

theorem Faithful.perform {d : Detector σ} {t : Tracker σ} (h : Faithful d t) (c : Call) :
    Faithful d (perform d t c).2 := by
  obtain ⟨action, root, lister⟩ := c
  intro r entry hget
  cases action with
  | markBuilt =>
    rw [perform_markBuilt, get?_pending_markBuilt] at hget
    split_ifs at hget
    exact h r entry hget
  | invalidate =>
    rw [perform_invalidate, get?_pending_invalidate] at hget
    split_ifs at hget
    exact h r entry hget
  | needsBuild =>
    rw [perform_needsBuild, get?_pending_needsBuild] at hget
    split_ifs at hget with hsame
    · cases hresult : (needsBuild (d.within lister) root t).1.result with
      | error fault =>
        rw [hresult] at hget
        exact h r entry hget
      | ok changed =>
        rw [hresult] at hget
        cases changed with
        | false => cases hget
        | true =>
          have hsnapshot : ((d.within lister).snapshot root).result = .ok entry := by
            cases htaken : ((d.within lister).snapshot root).result with
            | error fault => simp [htaken, Except.toOption] at hget
            | ok taken =>
              simp only [htaken, Except.toOption, if_true, Option.some.injEq] at hget
              rw [hget]
          rw [(Detector.snapshot_spec hsnapshot).1]
          exact (d.key_congr hsame).symm
    · exact h r entry hget

/-- What a call does to a store: at most one change, under the key of its root. -/
theorem stored_perform {d : Detector σ} {t : Tracker σ} (h : Faithful d t) (c : Call) :
    (Tracker.perform d t c).2.stored = t.stored ∨
      (∃ entry, (Tracker.perform d t c).2.stored = (d.store.save (d.key c.root) entry t.stored).2) ∨
      (Tracker.perform d t c).2.stored = (d.store.delete (d.key c.root) t.stored).2 := by
  obtain ⟨action, root, lister⟩ := c
  cases action with
  | needsBuild => exact .inl (stored_needsBuild (d.within lister) root t)
  | invalidate => exact .inr (.inr rfl)
  | markBuilt =>
    cases hdue : due (d.within lister) root t with
    | error fault =>
      refine .inl ?_
      rw [perform_markBuilt, (markBuilt_of_due_error _ root t hdue).2]
    | ok entry =>
      have hroot : d.key entry.root = d.key root := key_of_due (d.within lister) root t (h root) hdue
      refine .inr (.inl ⟨entry, ?_⟩)
      rw [perform_markBuilt, ← hroot]
      exact (markBuilt_of_due _ root t hdue).2

/-- Nothing is captured or given up for a root of another key. -/
theorem get?_pending_perform {d : Detector σ} {t : Tracker σ} {c : Call} {root : Path}
    (hne : root.components ≠ c.root.components) :
    (Tracker.perform d t c).2.pending.get? root = t.pending.get? root := by
  obtain ⟨action, r, lister⟩ := c
  cases action with
  | needsBuild => rw [perform_needsBuild, get?_pending_needsBuild, if_neg hne]
  | markBuilt => rw [perform_markBuilt, get?_pending_markBuilt, if_neg hne]
  | invalidate => rw [perform_invalidate, get?_pending_invalidate, if_neg hne]

/-- Whether two trackers are alike, as far as the roots of a key go. -/
structure Alike (d : Detector σ) (store : τ → Store σ) (Good : σ → Prop) (key : CacheKey) (t t' : Tracker σ) : Prop where
  pending : ∀ root, d.key root = key → t.pending.get? root = t'.pending.get? root
  load : ∀ i, (store i).load key t.stored = (store i).load key t'.stored
  good : Good t.stored ∧ Good t'.stored
  faithful : Faithful d t ∧ Faithful d t'

/-- Whether a call does the same over two trackers: it answers alike, and leaves what is captured for its root and
what is stored under a key alike. -/
structure Same (d : Detector σ) (key : CacheKey) (c : Call) (t t' : Tracker σ) : Prop where
  answer : (perform d t c).1 = (perform d t' c).1
  pending : ∀ root, root.components = c.root.components →
    (perform d t c).2.pending.get? root = (perform d t' c).2.pending.get? root
  load : d.store.load key (perform d t c).2.stored = d.store.load key (perform d t' c).2.stored

section Calls

variable {d : Detector σ} {store : τ → Store σ} {Good : σ → Prop} {key : CacheKey} {t t' : Tracker σ} {root : Path}

theorem Alike.same_needsBuild (h : Alike d store Good key t t') (i : τ) (lister : Lister) (hkey : d.key root = key) :
    Same (d.over (store i)) key ⟨.needsBuild, root, lister⟩ t t' := by
  have hcheck : ((d.over (store i)).within lister).check root t.stored =
      ((d.over (store i)).within lister).check root t'.stored :=
    Detector.check_congr (by rw [← hkey] at h; exact h.load i)
  have hresult : (needsBuild ((d.over (store i)).within lister) root t).1.result =
      (needsBuild ((d.over (store i)).within lister) root t').1.result := by
    cases hc : (((d.over (store i)).within lister).check root t.stored).result with
    | error fault =>
      rw [(needsBuild_of_check_error _ root t hc).1, (needsBuild_of_check_error _ root t' (hcheck ▸ hc)).1]
    | ok changed =>
      rw [(needsBuild_of_check_ok _ root t hc).1, (needsBuild_of_check_ok _ root t' (hcheck ▸ hc)).1]
  constructor
  · rw [perform_needsBuild, perform_needsBuild, hresult]
  · intro r hr
    have hget : t.pending.get? r = t'.pending.get? r := h.pending r ((d.key_congr hr).trans hkey)
    rw [perform_needsBuild, perform_needsBuild, get?_pending_needsBuild, get?_pending_needsBuild, hresult, hget]
  · rw [perform_needsBuild, perform_needsBuild, stored_needsBuild, stored_needsBuild]
    exact h.load i

theorem Alike.same_markBuilt (hstore : Store.Separate store Good) (h : Alike d store Good key t t') (i : τ)
    (lister : Lister) (hkey : d.key root = key) : Same (d.over (store i)) key ⟨.markBuilt, root, lister⟩ t t' := by
  have hofRoot : key.OfRoot := ⟨d.base, root, hkey.symm⟩
  have hdue : due ((d.over (store i)).within lister) root t = due ((d.over (store i)).within lister) root t' := by
    rw [due, due, h.pending root hkey]
  have hpending : ∀ r, r.components = root.components →
      (markBuilt ((d.over (store i)).within lister) root t).2.pending.get? r =
        (markBuilt ((d.over (store i)).within lister) root t').2.pending.get? r := by
    intro r hr
    rw [get?_pending_markBuilt, get?_pending_markBuilt, if_pos hr, if_pos hr]
  cases hentry : due ((d.over (store i)).within lister) root t with
  | error fault =>
    obtain ⟨hresult, hstate⟩ := markBuilt_of_due_error _ root t hentry
    obtain ⟨hresult', hstate'⟩ := markBuilt_of_due_error _ root t' (hdue ▸ hentry)
    refine ⟨?_, hpending, ?_⟩
    · rw [perform_markBuilt, perform_markBuilt, hresult, hresult']
    · rw [perform_markBuilt, perform_markBuilt, hstate, hstate']
      exact h.load i
  | ok entry =>
    obtain ⟨hresult, hstored⟩ := markBuilt_of_due _ root t hentry
    obtain ⟨hresult', hstored'⟩ := markBuilt_of_due _ root t' (hdue ▸ hentry)
    -- what is due was captured for this root, so it is saved under the key
    have hroot : d.key entry.root = key :=
      (key_of_due ((d.over (store i)).within lister) root t (h.faithful.1 root) hentry).trans hkey
    have hsave := hstore.save_eq i (d.key entry.root) entry _ _ (hroot ▸ hofRoot) h.good.1 h.good.2
    refine ⟨?_, hpending, ?_⟩
    · rw [perform_markBuilt, perform_markBuilt, hresult, hresult']
      exact congrArg (fun r => Except.map (fun _ => none) (Except.mapError CacheError.store r)) hsave
    · rw [perform_markBuilt, perform_markBuilt, hstored, hstored']
      have hload := hstore.load_save i key entry _ _ hofRoot h.good.1 h.good.2 (h.load i)
      rw [← hroot] at hload ⊢
      exact hload

theorem Alike.same_invalidate (hstore : Store.Separate store Good) (h : Alike d store Good key t t') (i : τ)
    (lister : Lister) (hkey : d.key root = key) : Same (d.over (store i)) key ⟨.invalidate, root, lister⟩ t t' := by
  have hofRoot : key.OfRoot := ⟨d.base, root, hkey.symm⟩
  have hdelete := hstore.delete_eq i (d.key root) _ _ (hkey ▸ hofRoot) h.good.1 h.good.2
  refine ⟨?_, fun r hr => ?_, ?_⟩
  · rw [perform_invalidate, perform_invalidate]
    exact congrArg (fun r => Except.map (fun _ => none) (Except.mapError CacheError.store r)) hdelete
  · rw [perform_invalidate, perform_invalidate, get?_pending_invalidate, get?_pending_invalidate, if_pos hr, if_pos hr]
  · rw [perform_invalidate, perform_invalidate]
    have hload := hstore.load_delete i key _ _ hofRoot h.good.1 h.good.2 (h.load i)
    rw [← hkey] at hload ⊢
    exact hload

end Calls

section Steps

variable {d : Detector σ} {store : τ → Store σ} {Good : σ → Prop} {key : CacheKey} {t t' : Tracker σ} {c : Call}
  (hstore : Store.Separate store Good) (i : τ)
include hstore

theorem good_perform (hgood : Good t.stored) (hfaithful : Faithful d t) :
    Good (perform (d.over (store i)) t c).2.stored := by
  have hkey : (d.key c.root).OfRoot := ⟨d.base, c.root, rfl⟩
  have hfaithful' : Faithful (d.over (store i)) t := hfaithful
  rcases stored_perform hfaithful' c with h | ⟨entry, h⟩ | h
  · rwa [h]
  · rw [h]
    exact hstore.good_save i _ entry _ hkey hgood
  · rw [h]
    exact hstore.good_delete i _ _ hkey hgood

/-- A call about a root of another key leaves trackers alike. -/
theorem Alike.perform_other (h : Alike d store Good key t t') (hkey : key.OfRoot)
    (hne : key.digest ≠ (d.key c.root).digest) : Alike d store Good key (perform (d.over (store i)) t c).2 t' := by
  have hfaithful : Faithful (d.over (store i)) t := h.faithful.1
  have hother : (d.key c.root).OfRoot := ⟨d.base, c.root, rfl⟩
  refine ⟨fun root hroot => ?_, fun j => ?_, ⟨?_, h.good.2⟩, ⟨hfaithful.perform c, h.faithful.2⟩⟩
  · rw [← h.pending root hroot]
    refine get?_pending_perform fun hsame => hne ?_
    rw [← hroot, d.key_congr hsame]
  · rw [← h.load j, hstore.load_eq j i]
    rcases stored_perform hfaithful c with hsame | ⟨entry, hsave⟩ | hdelete
    · rw [hsame]
    · rw [hsave]
      exact hstore.load_save_other i key _ entry _ hkey hother h.good.1 hne
    · rw [hdelete]
      exact hstore.load_delete_other i key _ _ hkey hother h.good.1 hne
  · exact good_perform hstore i h.good.1 h.faithful.1

/-- A call about a root of the key answers alike, and leaves trackers alike. -/
theorem Alike.perform_own (h : Alike d store Good key t t') (hkey : d.key c.root = key) :
    (perform (d.over (store i)) t c).1 = (perform (d.over (store i)) t' c).1 ∧
      Alike d store Good key (perform (d.over (store i)) t c).2 (perform (d.over (store i)) t' c).2 := by
  have hfaithful : Faithful (d.over (store i)) t := h.faithful.1
  have hfaithful' : Faithful (d.over (store i)) t' := h.faithful.2
  have hsame : Same (d.over (store i)) key c t t' := by
    obtain ⟨action, root, lister⟩ := c
    cases action with
    | needsBuild => exact h.same_needsBuild i lister hkey
    | markBuilt => exact h.same_markBuilt hstore i lister hkey
    | invalidate => exact h.same_invalidate hstore i lister hkey
  refine ⟨hsame.answer, fun root hroot => ?_, fun j => ?_, ⟨?_, ?_⟩, ⟨hfaithful.perform c, hfaithful'.perform c⟩⟩
  · by_cases hown : root.components = c.root.components
    · exact hsame.pending root hown
    · rw [get?_pending_perform hown, get?_pending_perform hown, h.pending root hroot]
  · rw [hstore.load_eq j i]
    exact hsame.load
  · exact good_perform hstore i h.good.1 h.faithful.1
  · exact good_perform hstore i h.good.2 h.faithful.2

/-- Calls about roots of other keys can be left out of a run. -/
theorem Alike.runAt_filter (hkey : key.OfRoot) {calls : List (τ × Call)}
    (hapart : ∀ c ∈ calls, key.Apart (d.key c.2.root)) (h : Alike d store Good key t t') :
    (runAt (fun i => d.over (store i)) (calls.filter fun c => d.key c.2.root = key) t').1 =
      (runAt (fun i => d.over (store i)) calls t).1.filter fun e => d.key e.root = key := by
  induction calls generalizing t t' with
  | nil => rfl
  | cons ic calls ih =>
    obtain ⟨i, c⟩ := ic
    have hrest : ∀ c ∈ calls, key.Apart (d.key c.2.root) := fun c hc => hapart c (List.mem_cons_of_mem _ hc)
    have hrun : (runAt (fun i => d.over (store i)) ((i, c) :: calls) t).1 =
        ⟨c, (perform (d.over (store i)) t c).1⟩ ::
          (runAt (fun i => d.over (store i)) calls (perform (d.over (store i)) t c).2).1 := rfl
    by_cases hown : d.key c.root = key
    · obtain ⟨hanswer, halike⟩ := h.perform_own hstore i hown
      have hrun' : ∀ rest, (runAt (fun i => d.over (store i)) ((i, c) :: rest) t').1 =
          ⟨c, (perform (d.over (store i)) t' c).1⟩ ::
            (runAt (fun i => d.over (store i)) rest (perform (d.over (store i)) t' c).2).1 := fun _ => rfl
      rw [hrun, List.filter_cons_of_pos (by simpa using hown), List.filter_cons_of_pos (by simpa using hown), hrun',
        ih hrest halike, hanswer]
    · -- only the run with all calls makes this one, so only one of the trackers moves on
      have hne : key.digest ≠ (d.key c.root).digest := fun heq => hown (hapart (i, c) List.mem_cons_self heq).symm
      rw [hrun, List.filter_cons_of_neg (by simpa using hown), List.filter_cons_of_neg (by simpa using hown)]
      exact ih hrest (h.perform_other hstore i hkey hne)

end Steps

/-! ## Independence -/

/-- Whether the answers about the roots of a key are what they would be if no other root were called about. -/
def AnswersAlone (d : τ → Detector σ) (base : Path) (key : CacheKey) (calls : List (τ × Call)) (s : σ) : Prop :=
  (runAt d (calls.filter fun c => .ofRoot base c.2.root = key) (start s)).1 =
    (runAt d calls (start s)).1.filter fun e => .ofRoot base e.root = key

theorem answersAlone_of_separate {d : Detector σ} {store : τ → Store σ} {Good : σ → Prop} (hstore : Store.Separate store Good)
    (root : Path) {calls : List (τ × Call)} (hapart : ∀ c ∈ calls, (d.key root).Apart (d.key c.2.root)) {s : σ}
    (hgood : Good s) : AnswersAlone (fun i => d.over (store i)) d.base (d.key root) calls s := by
  have hfaithful : Faithful d (start s) := by
    intro r entry hget
    simp [start] at hget
  exact Alike.runAt_filter hstore ⟨d.base, root, rfl⟩ hapart
    ⟨fun _ _ => rfl, fun _ => rfl, ⟨hgood, hgood⟩, ⟨hfaithful, hfaithful⟩⟩

/-- The roots of one key are tracked independently of all others, over the store in memory and over one in a
directory in which it can work: whatever is called, and however the files change between the calls. -/
theorem roots_independent (lister : Lister) (kind : EvidenceKind) (base root : Path) (calls : List (String × Call))
    (hapart : ∀ c ∈ calls, (CacheKey.ofRoot base root).Apart (.ofRoot base c.2.root)) :
    (∀ m : MemoryStore,
      AnswersAlone (fun _ => ⟨lister, MemoryStore.store, kind, base⟩) base (.ofRoot base root) calls m) ∧
    ∀ dir disk, DirectoryStore.Works dir disk →
      AnswersAlone (fun now => ⟨lister, DirectoryStore.store dir now, kind, base⟩) base (.ofRoot base root) calls disk := by
  constructor
  · intro m
    exact answersAlone_of_separate (d := ⟨lister, MemoryStore.store, kind, base⟩) MemoryStore.separate root hapart trivial
  · intro dir disk hworks
    exact answersAlone_of_separate (d := ⟨lister, DirectoryStore.store dir "", kind, base⟩)
      (DirectoryStore.separate dir) root hapart hworks

/-- Calls about two roots by turns; the second is forgotten before the first is asked about again. -/
def interleaved : List (String × Call) :=
  let first := Path.ofString "main.less"
  let second := Path.ofString "print.less"
  let lister := Lister.standard drafted.system {}
  [("2026-10-19T08:00:00Z", ⟨.needsBuild, first, lister⟩), ("2026-10-19T08:00:01Z", ⟨.needsBuild, second, lister⟩),
    ("2026-10-19T08:00:02Z", ⟨.markBuilt, first, lister⟩), ("2026-10-19T08:00:03Z", ⟨.invalidate, second, lister⟩),
    ("2026-10-19T08:00:04Z", ⟨.needsBuild, first, lister⟩)]

theorem roots_independent_interleaved :
    (∀ c ∈ interleaved, (CacheKey.ofRoot (.ofString "/") (.ofString "main.less")).Apart
      (.ofRoot (.ofString "/") c.2.root)) ∧
    DirectoryStore.Works (.ofString "/") .root ∧
    AnswersAlone (fun _ => ⟨.standard drafted.system {}, MemoryStore.store, .mtime, .ofString "/"⟩) (.ofString "/")
      (.ofRoot (.ofString "/") (.ofString "main.less")) interleaved .empty ∧
    AnswersAlone (fun now => ⟨.standard drafted.system {}, DirectoryStore.store (.ofString "/") now, .mtime, .ofString "/"⟩)
      (.ofString "/") (.ofRoot (.ofString "/") (.ofString "main.less")) interleaved .root := by
  have hapart : ∀ c ∈ interleaved, (CacheKey.ofRoot (.ofString "/") (.ofString "main.less")).Apart
      (.ofRoot (.ofString "/") c.2.root) := by
    have hdigest : (CacheKey.ofRoot (.ofString "/") (.ofString "main.less")).digest ≠
        (CacheKey.ofRoot (.ofString "/") (.ofString "print.less")).digest := by decide +kernel
    simp only [interleaved, List.forall_mem_cons, List.not_mem_nil, false_implies, implies_true, and_true]
    exact ⟨fun _ => rfl, fun h => absurd h hdigest, fun _ => rfl, fun h => absurd h hdigest, fun _ => rfl⟩
  have hworks : DirectoryStore.Works (.ofString "/") .root :=
    (DirectoryStore.works_of_fresh (by decide) (.inl ⟨0, rfl⟩)).1
  obtain ⟨hmemory, hdirectory⟩ := roots_independent (.standard drafted.system {}) .mtime (.ofString "/")
    (.ofString "main.less") interleaved hapart
  exact ⟨hapart, hworks, hmemory .empty, hdirectory _ _ hworks⟩

end Tracker

end StyleTrack
