/-
Stores of cache entries, one entry for each key.

A store is a state together with the three operations on it. Every operation may fail; what the state
is after a failure is up to the store.
-/
import StyleTrack.Cache.Entry
import StyleTrack.Cache.Key

namespace StyleTrack

/-! ## Failures -/

/-- Why a store could not do what it was asked. -/
inductive StoreError where
  /-- The store cannot be reached. -/
  | access (text : String)
  /-- The entry cannot be written down. -/
  | serialization (text : String)
  /-- What is stored is no entry. -/
  | corrupted (path : Path) (text : String)
  /-- What is stored has another format. -/
  | version (found expected : Nat)
deriving DecidableEq, Repr

/-- The text of a failure. -/
def StoreError.message : StoreError → String
  | access text => s!"failed to access cache store: {text}"
  | serialization text => s!"failed to serialize cache entry: {text}"
  | corrupted path text => s!"cache entry corrupted: {path.display}: {text}"
  | version found expected =>
    s!"cache entry format incompatible (found version {found}, expected {expected})"

/-! ## Stores -/

/-- The operations of a store whose states are `σ`. -/
structure Store (σ : Type) where
  /-- The entry under a key, if there is one. -/
  load : CacheKey → σ → Except StoreError (Option CacheEntry)
  /-- Puts an entry under a key in place of the one that is there. -/
  save : CacheKey → CacheEntry → σ → Except StoreError Unit × σ
  /-- Takes away the entry under a key, if there is one. -/
  delete : CacheKey → σ → Except StoreError Unit × σ

/-- The entries of a store in memory, by digest. -/
abbrev MemoryStore := SortedMap String CacheEntry

/-- The store in memory, which never fails. -/
def MemoryStore.store : Store MemoryStore where
  load key m := .ok (m.get? key.digest)
  save key entry m := (.ok (), m.insert key.digest entry)
  delete key m := (.ok (), m.erase key.digest)

end StyleTrack
