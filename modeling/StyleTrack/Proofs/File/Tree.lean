/-
File trees without faults: what their queries answer, said through the files alone. Every answer depends
on the path only up to sameness, and taking a file away changes the answers about that file and no other.
-/
import StyleTrack.Evidence
import StyleTrack.File.Tree
import StyleTrack.Proofs.Import.Search
import StyleTrack.Proofs.Map.Entries

namespace StyleTrack

/-- The evidence of a kind that a file gives. -/
def StoredFile.evidence (kind : EvidenceKind) (f : StoredFile) : Evidence :=
  match kind with
  | .mtime => .ofInstant f.modified
  | .content => .content (.ofBytes f.content)

namespace FileTree

/-- No query meets a fault. -/
def Faultless (t : FileTree) : Prop := t.obstacles = []

variable {t : FileTree} {p q : Path}

theorem components_mem_of_read {bytes : List UInt8} (h : t.system.read p = .ok bytes) :
    p.components ∈ t.files.entries.map (·.1.components) := by
  cases hfound : t.lookup .read p with
  | error fault =>
    have hread : t.system.read p = .error fault := congrArg (Except.map _) hfound
    rw [hread] at h
    cases h
  | ok file => exact components_mem_of_find? (lookup_eq_ok hfound)

theorem get?_congr (h : p.components = q.components) : t.files.get? p = t.files.get? q :=
  SortedMap.get?_congr (Path.compare_eq_iff.2 h) t.files

/-! ## Queries -/

theorem lookup_of_faultless (h : t.Faultless) (query : Query) (p : Path) :
    t.lookup query p = match t.files.get? p with
      | some f => .ok f
      | none => .error (.notFound p) := by
  unfold lookup
  rw [show t.obstacles = [] from h]
  rfl

theorem read_eq_ok_iff (h : t.Faultless) {bytes : List UInt8} :
    t.system.read p = .ok bytes ↔ ∃ f, t.files.get? p = some f ∧ f.content = bytes := by
  show (t.lookup .read p).map _ = _ ↔ _
  rw [lookup_of_faultless h]
  cases t.files.get? p <;> simp [Except.map]

theorem contains_of_faultless (h : t.Faultless) (p : Path) :
    t.system.contains p = .ok (t.files.get? p).isSome := by
  show t.existence p = _
  unfold existence
  rw [lookup_of_faultless h]
  cases t.files.get? p <;> rfl

theorem contains_eq_true_iff (h : t.Faultless) :
    t.system.contains p = .ok true ↔ ∃ f, t.files.get? p = some f := by
  rw [contains_of_faultless h, Except.ok.injEq, Option.isSome_iff_exists]

theorem contains_eq_false_iff (h : t.Faultless) :
    t.system.contains p = .ok false ↔ t.files.get? p = none := by
  rw [contains_of_faultless h, Except.ok.injEq, Option.isSome_eq_false_iff, Option.isNone_iff_eq_none]

theorem collect_eq_ok_iff (h : t.Faultless) {kind : EvidenceKind} {e : Evidence} :
    Evidence.collect kind t.system p = .ok e ↔ ∃ f, t.files.get? p = some f ∧ f.evidence kind = e := by
  cases kind with
  | mtime =>
    show ((t.lookup .modified p).map _).map _ = _ ↔ _
    rw [lookup_of_faultless h]
    cases t.files.get? p <;> simp [Except.map, StoredFile.evidence]
  | content =>
    show ((t.lookup .read p).map _).map _ = _ ↔ _
    rw [lookup_of_faultless h]
    cases t.files.get? p <;> simp [Except.map, StoredFile.evidence]

theorem answers_of_faultless (h : t.Faultless) : t.system.Answers := fun p => ⟨_, contains_of_faultless h p⟩

/-- The spelling of a path does not matter. -/
theorem read_congr (h : t.Faultless) (hpq : p.components = q.components) {bytes : List UInt8} :
    t.system.read p = .ok bytes ↔ t.system.read q = .ok bytes := by
  rw [read_eq_ok_iff h, read_eq_ok_iff h, get?_congr hpq]

theorem contains_of_read (h : t.Faultless) {bytes : List UInt8} (hread : t.system.read p = .ok bytes) :
    t.system.contains p = .ok true := by
  obtain ⟨f, hf, -⟩ := (read_eq_ok_iff h).1 hread
  exact (contains_eq_true_iff h).2 ⟨f, hf⟩

theorem collect_congr (h : t.Faultless) (hpq : p.components = q.components) {kind : EvidenceKind} {e : Evidence} :
    Evidence.collect kind t.system p = .ok e ↔ Evidence.collect kind t.system q = .ok e := by
  rw [collect_eq_ok_iff h, collect_eq_ok_iff h, get?_congr hpq]

/-! ## Writing -/

theorem get?_write (t : FileTree) (p q : Path) (f : StoredFile) :
    (t.write p f).files.get? q = if q.components = p.components then some f else t.files.get? q := by
  show (t.files.insert p f).get? q = _
  rw [SortedMap.get?_insert]
  exact if_congr Path.compare_eq_iff rfl rfl

/-! ## Removal -/

theorem faultless_remove (h : t.Faultless) (p : Path) : (t.remove p).Faultless := h

theorem get?_remove (t : FileTree) (p q : Path) :
    (t.remove p).files.get? q = if q.components = p.components then none else t.files.get? q := by
  show (t.files.erase p).get? q = _
  rw [SortedMap.get?_erase]
  exact if_congr Path.compare_eq_iff rfl rfl

theorem get?_remove_of_ne (h : q.components ≠ p.components) : (t.remove p).files.get? q = t.files.get? q := by
  rw [get?_remove, if_neg h]

theorem read_remove_of_ne (h : t.Faultless) (hne : q.components ≠ p.components) {bytes : List UInt8} :
    (t.remove p).system.read q = .ok bytes ↔ t.system.read q = .ok bytes := by
  rw [read_eq_ok_iff h, read_eq_ok_iff (faultless_remove h p), get?_remove_of_ne hne]

theorem collect_remove_of_ne (h : t.Faultless) (hne : q.components ≠ p.components) {kind : EvidenceKind}
    {e : Evidence} :
    Evidence.collect kind (t.remove p).system q = .ok e ↔ Evidence.collect kind t.system q = .ok e := by
  rw [collect_eq_ok_iff h, collect_eq_ok_iff (faultless_remove h p), get?_remove_of_ne hne]

/-- There is no evidence about a file that was removed. -/
theorem ne_of_collect_remove (h : t.Faultless) {kind : EvidenceKind} {e : Evidence}
    (he : Evidence.collect kind (t.remove p).system q = .ok e) : q.components ≠ p.components := by
  intro hsame
  obtain ⟨f, hf, -⟩ := (collect_eq_ok_iff (faultless_remove h p)).1 he
  rw [get?_remove, if_pos hsame] at hf
  cases hf

/-- The removed path is all that the remaining tree lacks. -/
theorem lacks_remove_iff (h : t.Faultless) :
    (t.remove p).system.Lacks t.system q ↔ q.components = p.components ∧ t.system.contains q = .ok true := by
  unfold FileSystem.Lacks
  rw [contains_eq_false_iff (faultless_remove h p), get?_remove]
  constructor
  · rintro ⟨hnone, hq⟩
    refine ⟨?_, hq⟩
    by_contra hne
    obtain ⟨f, hf⟩ := (contains_eq_true_iff h).1 hq
    rw [if_neg hne, hf] at hnone
    cases hnone
  · rintro ⟨hsame, hq⟩
    exact ⟨if_pos hsame, hq⟩

theorem contains_of_remove (h : t.Faultless) (hq : (t.remove p).system.contains q = .ok true) :
    t.system.contains q = .ok true := by
  obtain ⟨f, hf⟩ := (contains_eq_true_iff (faultless_remove h p)).1 hq
  rw [get?_remove] at hf
  split at hf
  · cases hf
  · exact (contains_eq_true_iff h).2 ⟨f, hf⟩

end FileTree

end StyleTrack
