/-
Entries of an ordered map and what is found under their keys: an entry is found under its own key,
whatever is found stands in an entry whose key is the same, keys that are the same find the same, and a
map that was filled from a list answers with the last pair of the list that has the key. A list in which no
two keys are the same fills a map with its pairs, in whatever order they come.
-/
import StyleTrack.SortedMap
import Mathlib.Data.List.Induction
import Mathlib.Data.List.Perm.Basic

namespace StyleTrack.SortedMap

variable {κ ν : Type} [Ord κ]

/-! ## What a lookup finds -/

theorem exists_mem_of_find? {k : κ} {v : ν} :
    ∀ {l : List (κ × ν)}, find? k l = some v → ∃ k', (k', v) ∈ l ∧ compare k k' = .eq
  | (k', v') :: rest, h => by
    unfold find? at h
    split at h
    · rename_i heq
      cases h
      exact ⟨k', List.mem_cons_self, heq⟩
    · obtain ⟨k'', hmem, heq⟩ := exists_mem_of_find? h
      exact ⟨k'', List.mem_cons_of_mem _ hmem, heq⟩

/-- A list with a pair for a key finds something under that key. -/
theorem exists_find?_of_mem {k : κ} {e : κ × ν} (heq : compare k e.1 = .eq) :
    ∀ {l : List (κ × ν)}, e ∈ l → ∃ v, find? k l = some v
  | (k', v') :: rest, h => by
    by_cases hk : compare k k' = .eq
    · exact ⟨v', by simp [find?, hk]⟩
    · rcases List.mem_cons.1 h with rfl | h
      · exact absurd heq hk
      · obtain ⟨v, hv⟩ := exists_find?_of_mem heq h
        exact ⟨v, by simp [find?, hk, hv]⟩

/-- What some elements of a list give holds under a key what the first of them that has the key gives. -/
theorem find?_filterMap_eq_some_iff [Std.LawfulEqOrd κ] {α : Type} {f : α → Option (κ × ν)} {l : List α} {k : κ}
    {v : ν} : find? k (l.filterMap f) = some v ↔
    ∃ front a back, l = front ++ a :: back ∧ f a = some (k, v) ∧ ∀ b ∈ front, ∀ w, f b ≠ some (k, w) := by
  induction l with
  | nil => simp [find?]
  | cons a l ih =>
    by_cases hkey : ∃ w, f a = some (k, w)
    · obtain ⟨w, hw⟩ := hkey
      rw [List.filterMap_cons_some hw, find?, if_pos Std.ReflCmp.compare_self]
      constructor
      · rintro ⟨⟩
        exact ⟨[], a, l, rfl, hw, by simp⟩
      · rintro ⟨front, b, back, hsplit, hb, hfront⟩
        cases front with
        | nil =>
          obtain ⟨rfl, -⟩ := List.cons.inj hsplit
          rw [hw] at hb
          cases hb
          rfl
        | cons c front =>
          obtain ⟨rfl, -⟩ := List.cons.inj hsplit
          exact absurd hw (hfront a List.mem_cons_self w)
    · have hskip : find? k ((a :: l).filterMap f) = find? k (l.filterMap f) := by
        cases ha : f a with
        | none => rw [List.filterMap_cons_none ha]
        | some e =>
          have hne : compare k e.1 ≠ .eq := fun heq =>
            hkey ⟨e.2, by rw [ha, Std.LawfulEqOrd.compare_eq_iff_eq.1 heq]⟩
          rw [List.filterMap_cons_some ha, find?, if_neg hne]
      rw [hskip, ih]
      constructor
      · rintro ⟨front, b, back, rfl, hb, hfront⟩
        exact ⟨a :: front, b, back, rfl, hb, List.forall_mem_cons.2 ⟨fun w hw => hkey ⟨w, hw⟩, hfront⟩⟩
      · rintro ⟨front, b, back, hsplit, hb, hfront⟩
        cases front with
        | nil =>
          obtain ⟨rfl, -⟩ := List.cons.inj hsplit
          exact absurd ⟨v, hb⟩ hkey
        | cons c front =>
          obtain ⟨rfl, rfl⟩ := List.cons.inj hsplit
          exact ⟨front, b, back, rfl, hb, fun d hd => hfront d (List.mem_cons_of_mem _ hd)⟩

/-- What is found under a key is the value of an entry whose key is the same. -/
theorem exists_mem_of_get? {m : SortedMap κ ν} {k : κ} {v : ν} (h : m.get? k = some v) :
    ∃ k', (k', v) ∈ m.entries ∧ compare k k' = .eq :=
  exists_mem_of_find? h

/-- A key that finds nothing has nothing to erase. -/
theorem erase_of_get?_eq_none {m : SortedMap κ ν} {k : κ} (h : m.get? k = none) : m.erase k = m := by
  have hkept : m.entries.filter (fun e => compare k e.1 ≠ .eq) = m.entries := by
    refine List.filter_eq_self.2 fun e he => decide_eq_true fun heq => ?_
    obtain ⟨v, hv⟩ := exists_find?_of_mem heq he
    rw [get?, hv] at h
    cases h
  obtain ⟨entries, sorted⟩ := m
  simpa [erase] using hkept

/-! ## Lists without repeated keys -/

/-- Whether no two pairs have the same key. -/
def IsApart (l : List (κ × ν)) : Prop := l.Pairwise fun x y => compare x.1 y.1 ≠ .eq

theorem isApart_entries (m : SortedMap κ ν) : IsApart m.entries :=
  m.sorted.imp fun hlt heq => by
    rw [heq] at hlt
    cases hlt

theorem place_perm {k : κ} {v : ν} {l : List (κ × ν)} (h : ∀ e ∈ l, compare k e.1 ≠ .eq) :
    (place k v l).Perm ((k, v) :: l) := by
  induction l with
  | nil => exact List.Perm.refl _
  | cons e rest ih =>
    unfold place
    split
    · exact List.Perm.refl _
    · rename_i heq
      exact absurd heq (h e List.mem_cons_self)
    · exact ((ih fun e' he' => h e' (List.mem_cons_of_mem _ he')).cons e).trans (List.Perm.swap _ _ _)

/-! ## Lawful orders -/

variable [Std.TransOrd κ]

theorem find?_congr {k k' : κ} (h : compare k k' = .eq) (l : List (κ × ν)) : find? k l = find? k' l := by
  induction l with
  | nil => rfl
  | cons e rest ih => simp only [find?, Std.TransCmp.congr_left h, ih]

theorem find?_of_mem {k : κ} {v : ν} :
    ∀ {l : List (κ × ν)}, l.Pairwise (fun x y => compare x.1 y.1 = .lt) → (k, v) ∈ l → find? k l = some v
  | e :: rest, hs, h => by
    obtain ⟨hlt, hrest⟩ := List.pairwise_cons.1 hs
    rcases List.mem_cons.1 h with rfl | h
    · simp [find?, Std.ReflCmp.compare_self]
    · have hgt : compare k e.1 = .gt := Std.OrientedCmp.gt_of_lt (hlt _ h)
      simp [find?, hgt, find?_of_mem hrest h]

theorem get?_congr {k k' : κ} (h : compare k k' = .eq) (m : SortedMap κ ν) : m.get? k = m.get? k' :=
  find?_congr h m.entries

theorem get?_of_mem {m : SortedMap κ ν} {k : κ} {v : ν} (h : (k, v) ∈ m.entries) : m.get? k = some v :=
  find?_of_mem m.sorted h

/-- A map that was filled from a list answers with the last pair of the list that has the key. -/
theorem get?_ofList (l : List (κ × ν)) (k : κ) : (ofList l).get? k = find? k l.reverse := by
  induction l using List.reverseRecOn with
  | nil => rfl
  | append_singleton l e ih =>
    have hlast : ofList (l ++ [e]) = (ofList l).insert e.1 e.2 := by simp [ofList]
    rw [hlast, get?_insert, ih, List.reverse_append]
    rfl

/-- What a map that was filled from a list holds under a key comes from a pair of the list. -/
theorem exists_mem_of_get?_ofList {l : List (κ × ν)} {k : κ} {v : ν} (h : (ofList l).get? k = some v) :
    ∃ k', (k', v) ∈ l ∧ compare k k' = .eq := by
  rw [get?_ofList] at h
  obtain ⟨k', hmem, heq⟩ := exists_mem_of_find? h
  exact ⟨k', List.mem_reverse.1 hmem, heq⟩

theorem exists_get?_ofList {l : List (κ × ν)} {e : κ × ν} (h : e ∈ l) : ∃ v, (ofList l).get? e.1 = some v := by
  rw [get?_ofList]
  exact exists_find?_of_mem Std.ReflCmp.compare_self (List.mem_reverse.2 h)

/-- A map that was filled from what some elements of a list give answers with what the last of them that has the key
gives. -/
theorem get?_ofList_filterMap_eq_some_iff [Std.LawfulEqOrd κ] {α : Type} {f : α → Option (κ × ν)} {l : List α} {k : κ}
    {v : ν} : (ofList (l.filterMap f)).get? k = some v ↔
    ∃ front a back, l = front ++ a :: back ∧ f a = some (k, v) ∧ ∀ b ∈ back, ∀ w, f b ≠ some (k, w) := by
  rw [get?_ofList, ← List.filterMap_reverse, find?_filterMap_eq_some_iff]
  constructor
  · rintro ⟨front, a, back, hsplit, ha, hfront⟩
    exact ⟨back.reverse, a, front.reverse, by simpa using congrArg List.reverse hsplit, ha, by simpa using hfront⟩
  · rintro ⟨front, a, back, rfl, ha, hback⟩
    exact ⟨back.reverse, a, front.reverse, by simp, ha, by simpa using hback⟩

/-! ## Maps that are filled from lists without repeated keys -/

theorem IsApart.perm {l l' : List (κ × ν)} (h : IsApart l) (hperm : l.Perm l') : IsApart l' :=
  hperm.pairwise h fun hne heq => hne (Std.OrientedCmp.eq_symm heq)

theorem entries_ofList_perm {l : List (κ × ν)} (h : IsApart l) : (ofList l).entries.Perm l := by
  induction l using List.reverseRecOn with
  | nil => exact List.Perm.refl _
  | append_singleton l e ih =>
    obtain ⟨hl, -, hlast⟩ := List.pairwise_append.1 h
    have hperm := ih hl
    have hnew : ∀ e' ∈ (ofList l).entries, compare e.1 e'.1 ≠ .eq := by
      intro e' he' heq
      exact hlast e' (hperm.mem_iff.1 he') e (List.mem_singleton.2 rfl) (Std.OrientedCmp.eq_symm heq)
    have hlast : (ofList (l ++ [e])).entries = place e.1 e.2 (ofList l).entries := by
      simp [ofList, insert]
    rw [hlast]
    exact (place_perm hnew).trans ((hperm.cons e).trans (List.perm_append_singleton e l).symm)

/-- The entries of a map, in any order, fill the same map. -/
theorem ofList_of_perm {l : List (κ × ν)} {m : SortedMap κ ν} (h : l.Perm m.entries) : ofList l = m := by
  have hperm : (ofList l).entries.Perm m.entries := (entries_ofList_perm (m.isApart_entries.perm h.symm)).trans h
  have hentries : (ofList l).entries = m.entries := by
    refine hperm.eq_of_pairwise (fun x y _ _ hxy hyx => ?_) (ofList l).sorted m.sorted
    rw [Std.OrientedCmp.gt_of_lt hyx] at hxy
    cases hxy
  cases hm : ofList l
  cases m
  simp_all

end StyleTrack.SortedMap
