/-
Maps whose entries are kept in the order of their keys, one entry for each key up to `compare`.

Keys that compare as equal need not be spelled alike. Storing under a key that is present replaces
the value and keeps the spelling that was there first.
-/

namespace StyleTrack

/-- A map with its entries in strictly ascending order of keys. -/
structure SortedMap (κ ν : Type) [Ord κ] where
  entries : List (κ × ν)
  sorted : entries.Pairwise (fun x y => compare x.1 y.1 = .lt)

namespace SortedMap

variable {κ ν : Type} [Ord κ]

/-- The map without entries. -/
def empty : SortedMap κ ν := ⟨[], .nil⟩

instance : Inhabited (SortedMap κ ν) := ⟨empty⟩

instance [DecidableEq κ] [DecidableEq ν] : DecidableEq (SortedMap κ ν) := fun m n =>
  decidable_of_iff (m.entries = n.entries) (by cases m; cases n; simp)

/-! ## Lists of entries -/

/-- The value under a key in a list of entries. -/
def find? (k : κ) : List (κ × ν) → Option ν
  | [] => none
  | (k', v) :: rest => if compare k k' = .eq then some v else find? k rest

/-- Puts a value under a key at its place in an ordered list of entries. -/
def place (k : κ) (v : ν) : List (κ × ν) → List (κ × ν)
  | [] => [(k, v)]
  | (k', v') :: rest =>
    match compare k k' with
    | .lt => (k, v) :: (k', v') :: rest
    | .eq => (k', v) :: rest
    | .gt => (k', v') :: place k v rest

theorem mem_place {k : κ} {v : ν} {l : List (κ × ν)} {e : κ × ν} (h : e ∈ place k v l) :
    e.1 = k ∨ ∃ e' ∈ l, e'.1 = e.1 := by
  induction l with
  | nil => simp [place] at h; exact .inl (by rw [h])
  | cons x rest ih =>
    unfold place at h
    split at h
    · rcases List.mem_cons.1 h with rfl | h
      · exact .inl rfl
      · exact .inr ⟨e, h, rfl⟩
    · rcases List.mem_cons.1 h with rfl | h
      · exact .inr ⟨x, List.mem_cons_self, rfl⟩
      · exact .inr ⟨e, List.mem_cons_of_mem _ h, rfl⟩
    · rcases List.mem_cons.1 h with rfl | h
      · exact .inr ⟨_, List.mem_cons_self, rfl⟩
      · rcases ih h with h | ⟨e', he, heq⟩
        · exact .inl h
        · exact .inr ⟨e', List.mem_cons_of_mem _ he, heq⟩

theorem place_sorted [Std.TransOrd κ] {k : κ} {v : ν} {l : List (κ × ν)}
    (h : l.Pairwise (fun x y => compare x.1 y.1 = .lt)) :
    (place k v l).Pairwise (fun x y => compare x.1 y.1 = .lt) := by
  induction l with
  | nil => simp [place]
  | cons x rest ih =>
    obtain ⟨hx, hrest⟩ := List.pairwise_cons.1 h
    unfold place
    split
    · rename_i hlt
      refine List.pairwise_cons.2 ⟨fun e he => ?_, h⟩
      rcases List.mem_cons.1 he with rfl | he
      · exact hlt
      · exact Std.TransCmp.lt_trans hlt (hx e he)
    · exact List.pairwise_cons.2 ⟨hx, hrest⟩
    · rename_i hgt
      refine List.pairwise_cons.2 ⟨fun e he => ?_, ih hrest⟩
      rcases mem_place he with heq | ⟨e', he', heq⟩
      · rw [heq]; exact Std.OrientedCmp.lt_of_gt hgt
      · rw [← heq]; exact hx e' he'

theorem find?_place [Std.TransOrd κ] (k k' : κ) (v : ν) (l : List (κ × ν)) :
    find? k' (place k v l) = if compare k' k = .eq then some v else find? k' l := by
  induction l with
  | nil => simp [place, find?]
  | cons e rest ih =>
    unfold place
    split
    · simp [find?]
    · rename_i heq
      have hsame : compare k' e.1 = compare k' k := (Std.TransCmp.congr_right heq).symm
      by_cases h : compare k' k = .eq <;> simp [find?, hsame, h]
    · rename_i hgt
      by_cases h : compare k' e.1 = .eq
      · have hne : compare k' k ≠ .eq := fun hk => by
          rw [Std.TransCmp.congr_left (Std.OrientedCmp.eq_symm hk), h] at hgt
          cases hgt
        simp [find?, h, hne]
      · simp [find?, h, ih]

theorem find?_filter [Std.TransOrd κ] (k k' : κ) (l : List (κ × ν)) :
    find? k' (l.filter fun e => compare k e.1 ≠ .eq) = if compare k' k = .eq then none else find? k' l := by
  induction l with
  | nil => simp [find?]
  | cons e rest ih =>
    by_cases hk : compare k e.1 = .eq
    · have hsame : compare k' e.1 = compare k' k := (Std.TransCmp.congr_right hk).symm
      simp only [List.filter_cons, hk, ne_eq, not_true_eq_false, decide_false, Bool.false_eq_true, if_false,
        ih, find?, hsame]
      by_cases h : compare k' k = .eq <;> simp [h]
    · by_cases h : compare k' e.1 = .eq
      · have hne : compare k' k ≠ .eq := fun hk' => hk (by rw [← Std.TransCmp.congr_left hk', h])
        simp [hk, find?, h, hne]
      · simp only [List.filter_cons, hk, ne_eq, not_false_eq_true, decide_true, if_true, find?, h, if_false,
          ih]

/-! ## Operations -/

/-- The value under a key. -/
def get? (m : SortedMap κ ν) (k : κ) : Option ν := find? k m.entries

/-- Stores a value under a key; a key that is present keeps its spelling. -/
def insert [Std.TransOrd κ] (m : SortedMap κ ν) (k : κ) (v : ν) : SortedMap κ ν :=
  ⟨place k v m.entries, place_sorted m.sorted⟩

/-- The map without the entry under a key. -/
def erase (m : SortedMap κ ν) (k : κ) : SortedMap κ ν :=
  ⟨m.entries.filter fun e => compare k e.1 ≠ .eq, m.sorted.filter _⟩

/-- Stores entries one after the other. -/
def ofList [Std.TransOrd κ] (l : List (κ × ν)) : SortedMap κ ν := l.foldl (fun m e => m.insert e.1 e.2) empty

/-- The number of entries. -/
def size (m : SortedMap κ ν) : Nat := m.entries.length

/-- The keys in ascending order. -/
def keys (m : SortedMap κ ν) : List κ := m.entries.map (·.1)

/-! ## What is found -/

@[simp]
theorem get?_empty (k : κ) : (empty : SortedMap κ ν).get? k = none := rfl

/-- After a value is stored, it is found under every key that compares as equal, and nothing else changes. -/
theorem get?_insert [Std.TransOrd κ] (m : SortedMap κ ν) (k k' : κ) (v : ν) :
    (m.insert k v).get? k' = if compare k' k = .eq then some v else m.get? k' :=
  find?_place k k' v m.entries

/-- After a key is erased, nothing is found under it, and nothing else changes. -/
theorem get?_erase [Std.TransOrd κ] (m : SortedMap κ ν) (k k' : κ) :
    (m.erase k).get? k' = if compare k' k = .eq then none else m.get? k' :=
  find?_filter k k' m.entries

end SortedMap

end StyleTrack
