/-
Completeness of the listing of imports, for every file system and every graph of imports.

A walk takes note of a file before it looks at how the file is imported. So a file that is met first by a
directive that takes it as it is stays unparsed when another directive imports it to be parsed, and what
the file imports is missing. Such an overlooked file is the only gap: without one, the imports and the
units are exactly what the expanded files give, and the order and the repetition of directives changes
neither. No file can be overlooked where no file is imported in both ways.
-/
import StyleTrack.File.Tree
import StyleTrack.Proofs.Import.Expanded
import StyleTrack.Proofs.Import.Standard
import StyleTrack.Proofs.Path.Clean
import Mathlib

namespace StyleTrack.Expansion

/-! ## Spellings -/

section Spelling

variable {fs : FileSystem} {options : RenderOptions}

theorem Task.exists_clean_of_import? (hplugins : options.plugins = []) {t : Task} {p : Path}
    (h : t.import? (.searching fs options) = .ok (some p)) : ∃ q : Path, p = q.clean := by
  unfold Task.import? Setting.searching at h
  obtain ⟨target, -, h⟩ := bind_eq_ok_iff.1 h
  have hclaim : options.claim? (fileOfTarget target) t.file.directory = none := by
    unfold RenderOptions.claim?
    rw [hplugins]
    rfl
  split at h
  · cases h
  · dsimp only at h
    rw [hclaim] at h
    dsimp only at h
    split at h
    -- nobody claims the import, so the path is one that a search has found
    · rename_i hfound
      cases h
      exact Locator.exists_clean_of_searching hfound
    · split at h <;> cases h
    · cases h

/-- Two spellings of one path are equal if directives lead to both. -/
theorem Task.eq_of_import? (hplugins : options.plugins = []) {t t' : Task} {p q : Path}
    (hp : t.import? (.searching fs options) = .ok (some p)) (hq : t'.import? (.searching fs options) = .ok (some q))
    (hsame : p.components = q.components) : p = q := by
  obtain ⟨p', rfl⟩ := exists_clean_of_import? hplugins hp
  obtain ⟨q', rfl⟩ := exists_clean_of_import? hplugins hq
  exact Path.eq_of_clean hsame

theorem Task.eq_root_of_import? (hplugins : options.plugins = []) {t : Task} {p root : Path}
    (hroot : root.clean = root) (hp : t.import? (.searching fs options) = .ok (some p))
    (hsame : p.components = root.components) : p = root := by
  obtain ⟨p', rfl⟩ := exists_clean_of_import? hplugins hp
  rw [← hroot] at hsame ⊢
  exact Path.eq_of_clean hsame

end Spelling

/-! ## Exact results -/

/-- Whether a result reports exactly what the expanded files import, the root apart, and has exactly the
expanded files as units. -/
structure Exact (s : Setting) (root : Path) (text : List Char) (r : Processed) : Prop where
  imports : ∀ p, p ∈ r.imports ↔ p ≠ root ∧ ∃ f inline, Expanded s root text f ∧ Imports s root text inline f p
  units : ∀ p, (∃ u ∈ r.sources, u.path = p) ↔ Expanded s root text p

/-- Whether a file that a unit imports to be parsed is no unit, because a directive of a unit that takes
it as it is was followed first. -/
def Overlooks (s : Setting) (root : Path) (text : List Char) (r : Processed) : Prop :=
  ∃ q ∈ r.imports, (∀ u ∈ r.sources, u.path ≠ q) ∧ (∃ u ∈ r.sources, Imports s root text true u.path q) ∧
    ∃ u ∈ r.sources, Imports s root text false u.path q

/-- Whether no file but the root is imported by expanded files in both ways. -/
def Unmixed (s : Setting) (root : Path) (text : List Char) : Prop :=
  ∀ f f' q, Expanded s root text f → Expanded s root text f' → Imports s root text true f q →
    Imports s root text false f' q → q = root

section Runs

variable {fs : FileSystem} {options : RenderOptions} {root : Path} {text : List Char} {st : State}

/-- What a unit imports is the root or reported. -/
theorem Walked.mem_imports (hplugins : options.plugins = []) (hroot : root.clean = root)
    (h : Walked (.searching fs options) root text (st, [])) {u : SourceUnit} (hu : u ∈ st.sources) {inline : Bool}
    {q : Path} (hq : Imports (.searching fs options) root text inline u.path q) : q = root ∨ q ∈ st.imports := by
  obtain ⟨t, ht, himport, -⟩ := hq
  rcases h.settled t (h.taskOf_iff.2 ⟨u, hu, ht⟩) with hleft | hnone | ⟨q', hq', hmet⟩
  · cases hleft
  · rw [himport] at hnone
    cases hnone
  · rw [himport] at hq'
    cases hq'
    -- what was met is known up to spelling only
    rcases (h.met _).1 hmet with hsame | ⟨p, hp, hsame⟩
    · exact .inl (Task.eq_root_of_import? hplugins hroot himport hsame)
    · obtain ⟨-, t', -, himport', -⟩ := h.origin p hp
      rw [← Task.eq_of_import? hplugins himport' himport hsame]
      exact .inr hp

/-- A reported file is imported by a unit, and is a unit unless a unit takes it as it is. -/
theorem Walked.imports_origin {s : Setting} (h : Walked s root text (st, [])) {q : Path} (hq : q ∈ st.imports) :
    q ≠ root ∧ ∃ u ∈ st.sources, ∃ inline, Imports s root text inline u.path q ∧
      (inline = true ∨ ∃ v ∈ st.sources, v.path = q) := by
  obtain ⟨hne, t, ht, himport, hwhy⟩ := h.origin q hq
  obtain ⟨u, hu, ht⟩ := h.taskOf_iff.1 ht
  exact ⟨fun heq => hne (by rw [heq]), u, hu, _, ⟨t, ht, himport, rfl⟩, hwhy⟩

theorem Walked.unit_of_imports (hplugins : options.plugins = []) (hroot : root.clean = root)
    (h : Walked (.searching fs options) root text (st, []))
    (hnone : ¬ Overlooks (.searching fs options) root text ⟨st.imports, st.sources⟩) {u : SourceUnit}
    (hu : u ∈ st.sources) {q : Path} (hq : Imports (.searching fs options) root text false u.path q) :
    ∃ v ∈ st.sources, v.path = q := by
  rcases h.mem_imports hplugins hroot hu hq with rfl | hmem
  · exact ⟨_, h.first, rfl⟩
  · by_contra hno
    -- it was met by a directive that takes it as it is, so it is overlooked
    obtain ⟨-, v, hv, inline, himport, hwhy⟩ := h.imports_origin hmem
    obtain rfl : inline = true := hwhy.resolve_right hno
    exact hnone ⟨q, hmem, fun w hw heq => hno ⟨w, hw, heq⟩, ⟨v, hv, himport⟩, u, hu, hq⟩

/-- Where nothing is overlooked, every expanded file is a unit. -/
theorem Walked.unit_of_expanded (hplugins : options.plugins = []) (hroot : root.clean = root)
    (h : Walked (.searching fs options) root text (st, []))
    (hnone : ¬ Overlooks (.searching fs options) root text ⟨st.imports, st.sources⟩) {p : Path}
    (hp : Expanded (.searching fs options) root text p) : ∃ u ∈ st.sources, u.path = p := by
  induction hp with
  | refl => exact ⟨_, h.first, rfl⟩
  | tail _ himport ih =>
    obtain ⟨u, hu, rfl⟩ := ih
    exact h.unit_of_imports hplugins hroot hnone hu himport

/-- A walk is exact when it overlooks nothing, and only then. -/
theorem Walked.exact_iff (hplugins : options.plugins = []) (hroot : root.clean = root)
    (h : Walked (.searching fs options) root text (st, []))
    (hunits : ∀ u ∈ st.sources, Expanded (.searching fs options) root text u.path) :
    Exact (.searching fs options) root text ⟨st.imports, st.sources⟩ ↔
      ¬ Overlooks (.searching fs options) root text ⟨st.imports, st.sources⟩ := by
  constructor
  · rintro hexact ⟨q, -, hno, -, u, hu, himport⟩
    obtain ⟨v, hv, heq⟩ := (hexact.units q).2 ((hunits u hu).tail himport)
    exact hno v hv heq
  · intro hnone
    refine ⟨fun p => ⟨fun hp => ?_, ?_⟩, fun p => ⟨?_, h.unit_of_expanded hplugins hroot hnone⟩⟩
    · obtain ⟨hne, u, hu, inline, himport, -⟩ := h.imports_origin hp
      exact ⟨hne, u.path, inline, hunits u hu, himport⟩
    · rintro ⟨hne, f, inline, hf, himport⟩
      obtain ⟨u, hu, rfl⟩ := h.unit_of_expanded hplugins hroot hnone hf
      exact (h.mem_imports hplugins hroot hu himport).resolve_left hne
    · rintro ⟨u, hu, rfl⟩
      exact hunits u hu

theorem not_overlooks_of_units {s : Setting} {r : Processed} (h : ∀ q ∈ r.imports, ∃ u ∈ r.sources, u.path = q) :
    ¬ Overlooks s root text r := by
  rintro ⟨q, hq, hno, -⟩
  obtain ⟨u, hu, heq⟩ := h q hq
  exact hno u hu heq

/-- Where no file is imported in both ways, nothing is overlooked. -/
theorem not_overlooks_of_unmixed {s : Setting} {r : Processed} (h : Unmixed s root text)
    (hfirst : ∃ u ∈ r.sources, u.path = root) (hunits : ∀ u ∈ r.sources, Expanded s root text u.path) :
    ¬ Overlooks s root text r := by
  rintro ⟨q, -, hno, ⟨u, hu, htaken⟩, v, hv, hparsed⟩
  obtain ⟨w, hw, heq⟩ := hfirst
  exact hno w hw (heq.trans (h _ _ q (hunits u hu) (hunits v hv) htaken hparsed).symm)

end Runs

/-! ## Rearranged directives -/

/-- Whether two tasks differ in the place of their directives only. -/
structure Task.Alike (t t' : Task) : Prop where
  file : t'.file = t.file
  declared : t'.declared = t.declared
  target : t'.directive.target = t.directive.target
  options : t'.directive.options = t.directive.options

/-- Whether the same paths exist in two settings and every expanded file of the first has the same
directives in the second, in any order and each any number of times. -/
structure Rearranged (s s' : Setting) (root : Path) (text text' : List Char) : Prop where
  contains : ∀ p, s'.fs.contains p = s.fs.contains p
  directives : ∀ p content tasks, Expanded s root text p → HasText s root text p content →
    tasksOf p content = .ok tasks → ∃ content' tasks', HasText s' root text' p content' ∧
      tasksOf p content' = .ok tasks' ∧ (∀ t ∈ tasks, ∃ t' ∈ tasks', t.Alike t') ∧
      ∀ t' ∈ tasks', ∃ t ∈ tasks, t.Alike t'

section Rearranging

variable {fs fs' : FileSystem} {options : RenderOptions} {root : Path} {text text' : List Char}

/-- Where a directive stands matters to its failures only. -/
theorem Task.Alike.import?_eq_ok_iff (hcontains : ∀ p, fs'.contains p = fs.contains p) {t t' : Task}
    (h : t.Alike t') {found : Option Path} :
    t'.import? (.searching fs' options) = .ok found ↔ t.import? (.searching fs options) = .ok found := by
  obtain ⟨file, declared, target, opts, line⟩ := t
  obtain ⟨file', declared', target', opts', line'⟩ := t'
  obtain ⟨hfile, hdeclared, htarget, hopts⟩ := h
  dsimp only at hfile hdeclared htarget hopts
  subst hfile hdeclared htarget hopts
  unfold Task.import? Setting.searching
  rw [Locator.searching_congr hcontains]
  dsimp only
  cases Source.interpolate (options.value? declared') target' with
  | error fault =>
    constructor
    · intro hfound; cases hfound
    · intro hfound; cases hfound
  | ok name => exact Iff.rfl

/-- Directives of the root can be rearranged where the other files stay. -/
theorem rearranged_of_root {s : Setting} {tasks tasks' : List Task} (htasks : tasksOf root text = .ok tasks)
    (htasks' : tasksOf root text' = .ok tasks') (hto : ∀ t ∈ tasks, ∃ t' ∈ tasks', t.Alike t')
    (hfrom : ∀ t' ∈ tasks', ∃ t ∈ tasks, t.Alike t') : Rearranged s s root text text' := by
  refine ⟨fun _ => rfl, fun p content ts _ htext hts => ?_⟩
  by_cases hp : p = root
  · subst hp
    rw [hasText_root.1 htext, htasks] at hts
    cases hts
    exact ⟨text', tasks', hasText_root.2 rfl, htasks', hto, hfrom⟩
  · refine ⟨content, ts, (hasText_of_ne hp).2 ((hasText_of_ne hp).1 htext), hts, fun t ht => ?_, fun t ht => ?_⟩
    · exact ⟨t, ht, rfl, rfl, rfl, rfl⟩
    · exact ⟨t, ht, rfl, rfl, rfl, rfl⟩

namespace Rearranged

variable (h : Rearranged (.searching fs options) (.searching fs' options) root text text')
  (hfollow : Followable (.searching fs options) root text)

include h hfollow

theorem imports_iff {p : Path} (hp : Expanded (.searching fs options) root text p) {inline : Bool} {q : Path} :
    Imports (.searching fs' options) root text' inline p q ↔ Imports (.searching fs options) root text inline p q := by
  obtain ⟨content, tasks, htext, htasks, -⟩ := hfollow p hp
  obtain ⟨content', tasks', htext', htasks', hto, hfrom⟩ := h.directives p content tasks hp htext htasks
  constructor
  · rintro ⟨t', ⟨_, _, htext'', htasks'', ht'⟩, himport, hinline⟩
    rw [htext''.unique htext', htasks'] at htasks''
    cases htasks''
    obtain ⟨t, ht, halike⟩ := hfrom t' ht'
    exact ⟨t, ⟨content, tasks, htext, htasks, ht⟩, (halike.import?_eq_ok_iff h.contains).1 himport,
      by rw [← halike.options]; exact hinline⟩
  · rintro ⟨t, ⟨_, _, htext'', htasks'', ht⟩, himport, hinline⟩
    rw [htext''.unique htext, htasks] at htasks''
    cases htasks''
    obtain ⟨t', ht', halike⟩ := hto t ht
    exact ⟨t', ⟨content', tasks', htext', htasks', ht'⟩, (halike.import?_eq_ok_iff h.contains).2 himport,
      by rw [halike.options]; exact hinline⟩

theorem expanded_iff {p : Path} :
    Expanded (.searching fs' options) root text' p ↔ Expanded (.searching fs options) root text p := by
  constructor
  · intro hp
    induction hp with
    | refl => exact .refl
    | tail _ himport ih => exact ih.tail ((h.imports_iff hfollow ih).1 himport)
  · intro hp
    induction hp with
    | refl => exact .refl
    | tail hq himport ih => exact ih.tail ((h.imports_iff hfollow hq).2 himport)

theorem followable : Followable (.searching fs' options) root text' := by
  intro p hp
  have hp := (h.expanded_iff hfollow).1 hp
  obtain ⟨content, tasks, htext, htasks, hall⟩ := hfollow p hp
  obtain ⟨content', tasks', htext', htasks', -, hfrom⟩ := h.directives p content tasks hp htext htasks
  refine ⟨content', tasks', htext', htasks', fun t' ht' => ?_⟩
  obtain ⟨t, ht, halike⟩ := hfrom t' ht'
  obtain ⟨found, hfound⟩ := hall t ht
  exact ⟨found, (halike.import?_eq_ok_iff h.contains).2 hfound⟩

theorem unmixed (hunmixed : Unmixed (.searching fs options) root text) :
    Unmixed (.searching fs' options) root text' := by
  intro f f' q hf hf' htaken hparsed
  have hf := (h.expanded_iff hfollow).1 hf
  have hf' := (h.expanded_iff hfollow).1 hf'
  exact hunmixed f f' q hf hf' ((h.imports_iff hfollow hf).1 htaken) ((h.imports_iff hfollow hf').1 hparsed)

/-- Exact results of both settings report the same files and have the same units. -/
theorem same_of_exact {r r' : Processed} (hr : Exact (.searching fs options) root text r)
    (hr' : Exact (.searching fs' options) root text' r') (p : Path) :
    (p ∈ r'.imports ↔ p ∈ r.imports) ∧ ((∃ u ∈ r'.sources, u.path = p) ↔ ∃ u ∈ r.sources, u.path = p) := by
  constructor
  · rw [hr'.imports, hr.imports]
    refine and_congr_right fun _ => ?_
    constructor
    · rintro ⟨f, inline, hf, himport⟩
      have hf := (h.expanded_iff hfollow).1 hf
      exact ⟨f, inline, hf, (h.imports_iff hfollow hf).1 himport⟩
    · rintro ⟨f, inline, hf, himport⟩
      exact ⟨f, inline, (h.expanded_iff hfollow).2 hf, (h.imports_iff hfollow hf).2 himport⟩
  · rw [hr'.units, hr.units]
    exact h.expanded_iff hfollow

end Rearranged

end Rearranging

/-! ## The listing -/

section Listing

variable {fs : FileSystem} {options : RenderOptions} {root : Path} {text : List Char}

/-- A walk that overlooks nothing followed every expanded file. -/
theorem Walked.followable (hplugins : options.plugins = []) (hroot : root.clean = root) {st : State}
    (h : Walked (.searching fs options) root text (st, []))
    (hnone : ¬ Overlooks (.searching fs options) root text ⟨st.imports, st.sources⟩) :
    Followable (.searching fs options) root text := by
  intro p hp
  obtain ⟨u, hu, rfl⟩ := h.unit_of_expanded hplugins hroot hnone hp
  obtain ⟨tasks, htasks⟩ := h.parsed u hu
  refine ⟨u.text, tasks, h.hasText hu, htasks, fun t ht => ?_⟩
  rcases h.settled t ⟨u, hu, tasks, htasks, ht⟩ with hleft | hnone | ⟨q, hq, -⟩
  · cases hleft
  · exact ⟨none, hnone⟩
  · exact ⟨some q, hq⟩

/-- A result of the processor is exact when it overlooks nothing, and only then. -/
theorem exact_iff_of_processor (hplugins : options.plugins = []) (hroot : root.clean = root) {r : Processed}
    (h : processor fs (.searching fs) text root options = .ok r) :
    Exact (.searching fs options) root text r ↔ ¬ Overlooks (.searching fs options) root text r := by
  obtain ⟨st, hwalked, hunits, rfl⟩ := exists_expanded_of_processor h
  exact hwalked.exact_iff hplugins hroot hunits

theorem not_overlooks_of_processor {r : Processed} (h : processor fs (.searching fs) text root options = .ok r)
    (hunmixed : Unmixed (.searching fs options) root text) : ¬ Overlooks (.searching fs options) root text r := by
  obtain ⟨st, hwalked, hunits, rfl⟩ := exists_expanded_of_processor h
  exact not_overlooks_of_unmixed hunmixed ⟨_, hwalked.first, rfl⟩ hunits

theorem followable_of_processor (hplugins : options.plugins = []) (hroot : root.clean = root) {r : Processed}
    (h : processor fs (.searching fs) text root options = .ok r)
    (hnone : ¬ Overlooks (.searching fs options) root text r) : Followable (.searching fs options) root text := by
  obtain ⟨st, hwalked, hunits, rfl⟩ := exists_expanded_of_processor h
  exact hwalked.followable hplugins hroot hnone

/-- What the processor lists. Its result is exact unless it overlooks a file. A result of rearranged
directives, if neither overlooks a file, reports the same files and has the same units. And where no file
is imported in both ways, no file is overlooked, and rearranged directives are processed as well, with
nothing overlooked either. -/
theorem processor_complete (hplugins : options.plugins = []) (hroot : root.clean = root) {r : Processed}
    (h : processor fs (.searching fs) text root options = .ok r) :
    (Exact (.searching fs options) root text r ↔ ¬ Overlooks (.searching fs options) root text r) ∧
    (¬ Overlooks (.searching fs options) root text r → ∀ fs' text' r',
      Rearranged (.searching fs options) (.searching fs' options) root text text' →
      processor fs' (.searching fs') text' root options = .ok r' →
      ¬ Overlooks (.searching fs' options) root text' r' → ∀ p,
      (p ∈ r'.imports ↔ p ∈ r.imports) ∧ ((∃ u ∈ r'.sources, u.path = p) ↔ ∃ u ∈ r.sources, u.path = p)) ∧
    (Unmixed (.searching fs options) root text → ¬ Overlooks (.searching fs options) root text r ∧ ∀ fs' text',
      Rearranged (.searching fs options) (.searching fs' options) root text text' →
      ∃ r', processor fs' (.searching fs') text' root options = .ok r' ∧
        ¬ Overlooks (.searching fs' options) root text' r') := by
  have hexact := exact_iff_of_processor hplugins hroot h
  refine ⟨hexact, fun hnone fs' text' r' hre h' hnone' p => ?_, fun hunmixed => ?_⟩
  · have hfollow := followable_of_processor hplugins hroot h hnone
    exact hre.same_of_exact hfollow (hexact.2 hnone) ((exact_iff_of_processor hplugins hroot h').2 hnone') p
  · have hnone := not_overlooks_of_processor h hunmixed
    have hfollow := followable_of_processor hplugins hroot h hnone
    refine ⟨hnone, fun fs' text' hre => ?_⟩
    obtain ⟨r', h'⟩ := exists_processor_of_followable (hre.followable hfollow)
    exact ⟨r', h', not_overlooks_of_processor h' (hre.unmixed hfollow hunmixed)⟩

/-- A file, and one that it imports. -/
def nested : FileTree :=
  ⟨.ofList [(.ofString "a.less", ⟨Text.Utf8.ofString "@import \"b\";", ⟨101, 0⟩⟩),
    (.ofString "b.less", ⟨[], ⟨102, 0⟩⟩)], []⟩

/-- A style sheet that imports both, and one that does so in the other order. -/
def forward : List Char := "@import \"a\";\n@import \"b\";".toList

def backward : List Char := "@import \"b\";\n@import \"a\";".toList

/-- A style sheet that takes a file as it is before it imports the file to be parsed. -/
def twofold : List Char := "@import (inline) \"a\";\n@import \"a\";".toList

/-- A directive of `main.less`, which declares nothing. -/
def mainTask (target : String) (inline : Bool) (line : Nat) : Task :=
  ⟨.ofString "main.less", .empty, ⟨target, { isInline := inline }, line⟩⟩

theorem rearranged_forward : Rearranged (.searching nested.system {}) (.searching nested.system {})
    (.ofString "main.less") forward backward := by
  have hforward : tasksOf (.ofString "main.less") forward = .ok [mainTask "a" false 1, mainTask "b" false 2] := by cbv
  have hbackward : tasksOf (.ofString "main.less") backward = .ok [mainTask "b" false 1, mainTask "a" false 2] := by
    cbv
  refine rearranged_of_root hforward hbackward (fun t ht => ?_) (fun t ht => ?_)
  all_goals
    simp only [List.mem_cons, List.not_mem_nil, or_false] at ht
    rcases ht with rfl | rfl
  · exact ⟨_, List.mem_cons_of_mem _ List.mem_cons_self, rfl, rfl, rfl, rfl⟩
  · exact ⟨_, List.mem_cons_self, rfl, rfl, rfl, rfl⟩
  · exact ⟨_, List.mem_cons_of_mem _ List.mem_cons_self, rfl, rfl, rfl, rfl⟩
  · exact ⟨_, List.mem_cons_self, rfl, rfl, rfl, rfl⟩

theorem imports_twofold (inline : Bool) : Imports (.searching nested.system {}) (.ofString "main.less") twofold inline
    (.ofString "main.less") (.ofString "a.less") := by
  have htasks : tasksOf (.ofString "main.less") twofold = .ok [mainTask "a" true 1, mainTask "a" false 2] := by cbv
  cases inline with
  | true => exact ⟨_, ⟨twofold, _, hasText_root.2 rfl, htasks, List.mem_cons_self⟩, by cbv, rfl⟩
  | false =>
    exact ⟨_, ⟨twofold, _, hasText_root.2 rfl, htasks, List.mem_cons_of_mem _ List.mem_cons_self⟩, by cbv, rfl⟩

theorem processor_complete_nested :
    (∃ r r', processor nested.system (.searching nested.system) forward (.ofString "main.less") {} = .ok r ∧
      processor nested.system (.searching nested.system) backward (.ofString "main.less") {} = .ok r' ∧
      r.imports = [.ofString "a.less", .ofString "b.less"] ∧ r'.imports = [.ofString "b.less", .ofString "a.less"] ∧
      Exact (.searching nested.system {}) (.ofString "main.less") forward r ∧ ∀ p,
      (p ∈ r'.imports ↔ p ∈ r.imports) ∧ ((∃ u ∈ r'.sources, u.path = p) ↔ ∃ u ∈ r.sources, u.path = p)) ∧
    ∃ r, processor nested.system (.searching nested.system) twofold (.ofString "main.less") {} = .ok r ∧
      r.imports = [.ofString "a.less"] ∧ ¬ Exact (.searching nested.system {}) (.ofString "main.less") twofold r := by
  have hroot : (Path.ofString "main.less").clean = .ofString "main.less" := by cbv
  constructor
  · have h : processor nested.system (.searching nested.system) forward (.ofString "main.less") {} =
        .ok ⟨[.ofString "a.less", .ofString "b.less"], [⟨.ofString "main.less", forward⟩,
          ⟨.ofString "a.less", "@import \"b\";".toList⟩, ⟨.ofString "b.less", []⟩]⟩ := by cbv
    have h' : processor nested.system (.searching nested.system) backward (.ofString "main.less") {} =
        .ok ⟨[.ofString "b.less", .ofString "a.less"], [⟨.ofString "main.less", backward⟩,
          ⟨.ofString "b.less", []⟩, ⟨.ofString "a.less", "@import \"b\";".toList⟩]⟩ := by cbv
    obtain ⟨hexact, hsame, -⟩ := processor_complete rfl hroot h
    refine ⟨_, _, h, h', rfl, rfl, hexact.2 ?_, hsame ?_ _ _ _ rearranged_forward h' ?_⟩
    -- the files that are reported are all units
    all_goals exact not_overlooks_of_units (by simp)
  · have h : processor nested.system (.searching nested.system) twofold (.ofString "main.less") {} =
        .ok ⟨[.ofString "a.less"], [⟨.ofString "main.less", twofold⟩]⟩ := by cbv
    refine ⟨_, h, rfl, fun hexact => (processor_complete rfl hroot h).1.1 hexact ?_⟩
    refine ⟨.ofString "a.less", List.mem_singleton.2 rfl, fun u hu => ?_, ?_, ?_⟩
    · rw [List.mem_singleton.1 hu]
      decide
    · exact ⟨_, List.mem_singleton.2 rfl, imports_twofold true⟩
    · exact ⟨_, List.mem_singleton.2 rfl, imports_twofold false⟩

end Listing

end StyleTrack.Expansion
