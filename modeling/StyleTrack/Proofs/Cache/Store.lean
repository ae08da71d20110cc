/-
What is expected of a store. A reliable store never fails and is a map from keys to entries, as far as their
digests tell keys apart. A steady store may fail, but a change that fails leaves every entry as it was.
-/
import StyleTrack.Cache.Store
import StyleTrack.Proofs.Map.Entries

namespace StyleTrack

namespace CacheKey

/-- Whether a key is not mistaken for another one that has the same digest. -/
def Apart (key other : CacheKey) : Prop := key.digest = other.digest → key = other

/-- Whether a key is that of a root. -/
def OfRoot (key : CacheKey) : Prop := ∃ base root, key = .ofRoot base root

end CacheKey

namespace Store

variable {σ : Type}

/-- Whether a store never fails and keeps one entry for each key. -/
structure Reliable (store : Store σ) : Prop where
  save_ok : ∀ key entry s, (store.save key entry s).1 = .ok ()
  delete_ok : ∀ key s, (store.delete key s).1 = .ok ()
  load_save : ∀ key other entry s, key.Apart other →
    store.load key (store.save other entry s).2 = if key = other then .ok (some entry) else store.load key s
  load_delete : ∀ key other s, key.Apart other →
    store.load key (store.delete other s).2 = if key = other then .ok none else store.load key s

/-- Whether a change that fails leaves every entry of a store as it was. -/
structure Steady (store : Store σ) : Prop where
  load_save : ∀ key other entry fault s, (store.save other entry s).1 = .error fault →
    store.load key (store.save other entry s).2 = store.load key s
  load_delete : ∀ key other fault s, (store.delete other s).1 = .error fault →
    store.load key (store.delete other s).2 = store.load key s

end Store

namespace MemoryStore

theorem compare_digest_eq_iff {key other : CacheKey} (h : key.Apart other) :
    compare key.digest other.digest = .eq ↔ key = other := by
  rw [Std.LawfulEqOrd.compare_eq_iff_eq]
  exact ⟨h, fun heq => heq ▸ rfl⟩

theorem reliable : MemoryStore.store.Reliable where
  save_ok _ _ _ := rfl
  delete_ok _ _ := rfl
  load_save key other entry s h := by
    show Except.ok (SortedMap.get? (SortedMap.insert s other.digest entry) key.digest) = _
    rw [SortedMap.get?_insert, apply_ite Except.ok]
    exact if_congr (compare_digest_eq_iff h) rfl rfl
  load_delete key other s h := by
    show Except.ok (SortedMap.get? (SortedMap.erase s other.digest) key.digest) = _
    rw [SortedMap.get?_erase, apply_ite Except.ok]
    exact if_congr (compare_digest_eq_iff h) rfl rfl

end MemoryStore

end StyleTrack
