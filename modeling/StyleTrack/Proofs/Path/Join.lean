/-
Joined and normalized paths depend on what a path is and not on how it is spelled: a relative path that is
joined to a base has the components of the base and then its own. So the spellings of a root share its key.
-/
import StyleTrack.Cache.Key
import StyleTrack.Proofs.Path.Clean

namespace StyleTrack

namespace Path

open Component (slash dot)

variable {p q : Path}

/-! ## What components say about a spelling -/

/-- The components that the segments of a path stand for, without a leading `/` or `.`. -/
def body (p : Path) : List Component := p.segments.filterMap Component.ofSegment

theorem components_eq (p : Path) : p.components =
    if p.isAbsolute then .root :: p.body else if p.startsCurrent then .current :: p.body else p.body := rfl

theorem body_eq_filter (p : Path) : p.body = p.components.filter fun c => c ≠ .root ∧ c ≠ .current := by
  have hbody : p.body.filter (fun c => c ≠ .root ∧ c ≠ .current) = p.body := by
    refine List.filter_eq_self.2 fun c hc => ?_
    have hinner : Inner c := inner_of_mem_body hc
    cases c with
    | root => cases hinner
    | current => cases hinner
    | parent => rfl
    | name bytes => rfl
  rw [components_eq]
  split
  · rw [List.filter_cons_of_neg (by decide), hbody]
  · split
    · rw [List.filter_cons_of_neg (by decide), hbody]
    · rw [hbody]

theorem name_mem_components_iff {p : Path} {bytes : List UInt8} :
    .name bytes ∈ p.components ↔ .name bytes ∈ p.body := by
  simp [body_eq_filter]

/-- A name is spelled by a segment of its own. -/
theorem mem_segments_of_name_mem {p : Path} {bytes : List UInt8} (h : .name bytes ∈ p.components) :
    bytes ∈ p.segments := by
  obtain ⟨segment, hsegment, hof⟩ := List.mem_filterMap.1 (name_mem_components_iff.1 h)
  unfold Component.ofSegment at hof
  split_ifs at hof
  · cases hof
  · cases hof
    exact hsegment

theorem isAbsolute_iff_root_mem (p : Path) : p.isAbsolute = true ↔ .root ∈ p.components := by
  have hbody : .root ∉ p.body := by
    rw [body_eq_filter]
    simp
  rw [components_eq]
  cases p.isAbsolute with
  | true => simp
  | false => cases p.startsCurrent <;> simp [hbody]

theorem isAbsolute_congr (h : p.components = q.components) : p.isAbsolute = q.isAbsolute := by
  rw [Bool.eq_iff_iff, isAbsolute_iff_root_mem, isAbsolute_iff_root_mem, h]

/-! ## Joining -/

theorem startsCurrent_append (pre post : List UInt8) :
    (⟨pre ++ slash :: post⟩ : Path).startsCurrent = (⟨pre⟩ : Path).startsCurrent := by
  obtain ⟨first, rest, hfirst⟩ := List.exists_cons_of_ne_nil (List.splitOn_ne_nil slash pre)
  unfold startsCurrent segments
  rw [List.splitOn_append_cons_self, hfirst]
  rfl

theorem isAbsolute_append {pre : List UInt8} (hpre : pre ≠ []) (post : List UInt8) :
    (⟨pre ++ post⟩ : Path).isAbsolute = (⟨pre⟩ : Path).isAbsolute := by
  obtain ⟨b, rest, rfl⟩ := List.exists_cons_of_ne_nil hpre
  rfl

/-- A separator at the end carries no component. -/
theorem components_append_slash {pre : List UInt8} (hpre : pre ≠ []) :
    (⟨pre ++ [slash]⟩ : Path).components = (⟨pre⟩ : Path).components := by
  have hbody : (⟨pre ++ [slash]⟩ : Path).body = (⟨pre⟩ : Path).body := by
    unfold body segments
    rw [List.splitOn_append_cons_self, List.filterMap_append]
    exact List.append_nil _
  rw [components_eq, components_eq, isAbsolute_append hpre, startsCurrent_append, hbody]

/-- What follows a separator adds the components of its segments. -/
theorem components_append_slash_append (pre post : List UInt8) :
    (⟨pre ++ slash :: post⟩ : Path).components = (⟨pre ++ [slash]⟩ : Path).components ++ (⟨post⟩ : Path).body := by
  have hbody : (⟨pre ++ slash :: post⟩ : Path).body = (⟨pre ++ [slash]⟩ : Path).body ++ (⟨post⟩ : Path).body := by
    unfold body segments
    rw [List.splitOn_append_cons_self, List.splitOn_append_cons_self, List.filterMap_append, List.filterMap_append]
    exact congrArg (· ++ _) (List.append_nil _).symm
  have habs : (⟨pre ++ slash :: post⟩ : Path).isAbsolute = (⟨pre ++ [slash]⟩ : Path).isAbsolute := by
    rw [List.append_cons, isAbsolute_append (by simp)]
  rw [components_eq, components_eq, habs, startsCurrent_append, startsCurrent_append, hbody]
  cases (⟨pre ++ [slash]⟩ : Path).isAbsolute with
  | true => rfl
  | false => cases (⟨pre⟩ : Path).startsCurrent <;> rfl

/-- A relative path that is joined to one which is not empty adds the components of its segments. -/
theorem components_join {base : Path} (hbase : base.bytes ≠ []) (hp : p.isAbsolute = false) :
    (base.join p).components = base.components ++ p.body := by
  unfold join
  rw [hp, if_neg Bool.false_ne_true]
  split
  · rename_i hlast
    obtain ⟨pre, hpre⟩ := List.getLast?_eq_some_iff.1 (hlast.resolve_left hbase)
    obtain ⟨bytes⟩ := base
    obtain rfl : bytes = pre ++ [slash] := hpre
    rw [← components_append_slash_append]
    exact congrArg (fun bytes => (⟨bytes⟩ : Path).components) (List.append_assoc pre [slash] p.bytes)
  · rw [components_append_slash_append, components_append_slash hbase]

theorem components_join_congr (base : Path) (h : p.components = q.components) :
    (base.join p).components = (base.join q).components := by
  have habs := isAbsolute_congr h
  cases hp : p.isAbsolute with
  | true => rw [join, join, if_pos hp, if_pos (habs ▸ hp), h]
  | false =>
    have hq : q.isAbsolute = false := habs ▸ hp
    by_cases hbase : base.bytes = []
    · simpa [join, hp, hq, hbase] using h
    · rw [components_join hbase hp, components_join hbase hq, body_eq_filter, body_eq_filter, h]

/-! ## Cleaning what was joined -/

/-- Cleaning goes through a joined path by first going through the base. -/
theorem cleanComponents_join (base : Path) (hp : p.isAbsolute = false) : cleanComponents (base.join p).components =
    (p.body.foldl cleanStep (base.components.foldl cleanStep [])).reverse := by
  by_cases hbase : base.bytes = []
  · have hjoin : base.join p = p := by
      unfold join
      rw [hp, if_neg Bool.false_ne_true, if_pos (.inl hbase), hbase, List.nil_append]
    have hnone : base.components = [] := by
      obtain ⟨bytes⟩ := base
      obtain rfl : bytes = [] := hbase
      rfl
    rw [hjoin, hnone, cleanComponents, components_eq, hp, if_neg Bool.false_ne_true]
    -- a leading `.` is folded away
    split <;> rfl
  · rw [components_join hbase hp, cleanComponents, List.foldl_append]

/-- What is joined to two bases that are cleaned alike is cleaned alike. -/
theorem clean_join_congr {base base' : Path} (h : base.clean = base'.clean) (p : Path) :
    (base.join p).clean = (base'.join p).clean := by
  by_cases hp : p.isAbsolute = true
  · rw [join, join, if_pos hp, if_pos hp]
  · rw [Bool.not_eq_true] at hp
    have hstacks : base.components.foldl cleanStep [] = base'.components.foldl cleanStep [] := by
      have hcomponents := congrArg components h
      rw [components_clean, components_clean] at hcomponents
      exact List.reverse_inj.1 hcomponents
    rw [clean, clean, cleanComponents_join base hp, cleanComponents_join base' hp, hstacks]

/-! ## Normalizing -/

theorem normalize_congr (h : p.components = q.components) : p.normalize = q.normalize := by
  unfold normalize
  rw [h, isAbsolute_congr h]

theorem normalizeIn_congr (base : Path) (h : p.components = q.components) :
    p.normalizeIn base = q.normalizeIn base := by
  unfold normalizeIn
  rw [isAbsolute_congr h, normalize_congr h, normalize_congr (components_join_congr base h)]

end Path

/-- The spellings of a root share its key. -/
theorem CacheKey.ofRoot_congr (base : Path) {p q : Path} (h : p.components = q.components) :
    CacheKey.ofRoot base p = CacheKey.ofRoot base q := by
  unfold CacheKey.ofRoot
  rw [Path.normalizeIn_congr base h]

end StyleTrack
