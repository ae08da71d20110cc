/-
What a style sheet expands to, said without a walk: a file imports another if one of its directives leads
there, and the expanded files are the root and whatever expanded files import to be parsed.

Every unit of a walk is expanded, and a walk in which every expanded file can be read, parsed and followed
succeeds. That every expanded file is a unit is not true of every walk.
-/
import StyleTrack.Proofs.Import.Walk

namespace StyleTrack.Expansion

/-! ## Expanded files -/

/-- The text of a file of a style sheet: the root has the text that was given, every other file is read. -/
def HasText (s : Setting) (root : Path) (text : List Char) (p : Path) (content : List Char) : Prop :=
  if p = root then content = text else ∃ bytes, s.fs.read p = .ok bytes ∧ textOf p bytes = .ok content

/-- Whether a task is that of a directive of a file. -/
def HasTask (s : Setting) (root : Path) (text : List Char) (p : Path) (t : Task) : Prop :=
  ∃ content tasks, HasText s root text p content ∧ tasksOf p content = .ok tasks ∧ t ∈ tasks

/-- Whether a directive of a file imports another one, to be parsed or to be taken as it is. -/
def Imports (s : Setting) (root : Path) (text : List Char) (inline : Bool) (p q : Path) : Prop :=
  ∃ t, HasTask s root text p t ∧ t.import? s = .ok (some q) ∧ t.directive.options.isInline = inline

/-- Whether a file is the root or is imported to be parsed by an expanded file. -/
def Expanded (s : Setting) (root : Path) (text : List Char) (p : Path) : Prop :=
  Relation.ReflTransGen (Imports s root text false) root p

variable {s : Setting} {root : Path} {text : List Char}

theorem hasText_root {content : List Char} : HasText s root text root content ↔ content = text := by
  unfold HasText
  rw [if_pos rfl]

theorem hasText_of_ne {p : Path} {content : List Char} (hne : p ≠ root) :
    HasText s root text p content ↔ ∃ bytes, s.fs.read p = .ok bytes ∧ textOf p bytes = .ok content := by
  unfold HasText
  rw [if_neg hne]

theorem HasText.unique {p : Path} {a b : List Char} (ha : HasText s root text p a) (hb : HasText s root text p b) :
    a = b := by
  by_cases hp : p = root
  · subst hp
    rw [hasText_root.1 ha, hasText_root.1 hb]
  · obtain ⟨bytes, hread, htext⟩ := (hasText_of_ne hp).1 ha
    obtain ⟨bytes', hread', htext'⟩ := (hasText_of_ne hp).1 hb
    rw [hread] at hread'
    cases hread'
    rw [htext] at htext'
    exact Except.ok.inj htext'

/-! ## Units -/

theorem Walked.hasText {c : Config} (h : Walked s root text c) {u : SourceUnit} (hu : u ∈ c.1.sources) :
    HasText s root text u.path u.text := by
  rcases h.unit u hu with rfl | ⟨himport, hread⟩
  · exact hasText_root.2 rfl
  · have hne : u.path ≠ root := fun heq => (h.origin _ himport).1 (by rw [heq])
    exact (hasText_of_ne hne).2 hread

theorem Walked.taskOf_iff {c : Config} (h : Walked s root text c) {t : Task} :
    TaskOf c.1.sources t ↔ ∃ u ∈ c.1.sources, HasTask s root text u.path t := by
  constructor
  · rintro ⟨u, hu, tasks, htasks, ht⟩
    exact ⟨u, hu, u.text, tasks, h.hasText hu, htasks, ht⟩
  · rintro ⟨u, hu, content, tasks, htext, htasks, ht⟩
    rw [htext.unique (h.hasText hu)] at htasks
    exact ⟨u, hu, tasks, htasks, ht⟩

/-- A step keeps that every unit is expanded: a file is opened for a directive of a unit. -/
theorem Step.expanded {c c' : Config} (hstep : Step s c c') (hc : Walked s root text c)
    (h : ∀ u ∈ c.1.sources, Expanded s root text u.path) : ∀ u ∈ c'.1.sources, Expanded s root text u.path := by
  cases hstep with
  | left => exact h
  | known => exact h
  | inline => exact h
  | @opened st t rest tasks p bytes content himport hnew hinline hread htext htasks =>
    intro u hu
    rcases List.mem_append.1 hu with hu | hu
    · exact h u hu
    -- the task that is followed belongs to a unit, which is expanded and imports the new one
    · rw [List.mem_singleton.1 hu]
      obtain ⟨v, hv, ht⟩ := hc.taskOf_iff.1 (hc.pending t List.mem_cons_self)
      exact (h v hv).tail ⟨t, ht, himport, hinline⟩

/-- A run of the processor ends in a state that has the invariant, leaves nothing to do and has expanded
files as units only. -/
theorem exists_expanded_of_processor {fs : FileSystem} {locate : Locator} {options : RenderOptions} {r : Processed}
    (h : processor fs locate text root options = .ok r) :
    ∃ st, Walked ⟨fs, locate, options⟩ root text (st, []) ∧
      (∀ u ∈ st.sources, Expanded ⟨fs, locate, options⟩ root text u.path) ∧ r = ⟨st.imports, st.sources⟩ := by
  obtain ⟨tasks, st, htasks, hrun, hr⟩ := processor_eq_ok_iff.1 h
  obtain ⟨hwalked, hexpanded⟩ := invariant_of_steps
    (I := fun c => Walked _ root text c ∧ ∀ u ∈ c.1.sources, Expanded _ root text u.path)
    (fun _ _ hc hstep => ⟨hc.1.step hstep, hstep.expanded hc.1 hc.2⟩) hrun
    ⟨walked_start htasks, fun u hu => by rw [List.mem_singleton.1 hu]; exact .refl⟩
  exact ⟨st, hwalked, hexpanded, hr⟩

/-! ## Success -/

/-- Whether every expanded file has a text, with directives that can all be followed. -/
def Followable (s : Setting) (root : Path) (text : List Char) : Prop :=
  ∀ p, Expanded s root text p → ∃ content tasks, HasText s root text p content ∧
    tasksOf p content = .ok tasks ∧ ∀ t ∈ tasks, ∃ found, t.import? s = .ok found

theorem Followable.import? (h : Followable s root text) {p : Path} {t : Task} (hp : Expanded s root text p)
    (ht : HasTask s root text p t) : ∃ found, t.import? s = .ok found := by
  obtain ⟨content, tasks, htext, htasks, hmem⟩ := ht
  obtain ⟨content', tasks', htext', htasks', hall⟩ := h p hp
  rw [htext.unique htext', htasks'] at htasks
  cases htasks
  exact hall t hmem

theorem Followable.read (h : Followable s root text) {p : Path} (hp : Expanded s root text p) (hne : p ≠ root) :
    ∃ bytes content tasks, s.fs.read p = .ok bytes ∧ textOf p bytes = .ok content ∧
      tasksOf p content = .ok tasks := by
  obtain ⟨content, tasks, htext, htasks, -⟩ := h p hp
  obtain ⟨bytes, hread, htext⟩ := (hasText_of_ne hne).1 htext
  exact ⟨bytes, content, tasks, hread, htext, htasks⟩

/-- A run over tasks of expanded files ends well if all expanded files can be followed. -/
theorem exists_run_of_followable (h : Followable s root text) (st : State) (tasks : List Task)
    (hroot : root.components ∈ st.visited)
    (htasks : ∀ t ∈ tasks, ∃ p, Expanded s root text p ∧ HasTask s root text p t) :
    ∃ fin, run s st tasks = .ok fin := by
  -- a file that the run opens is expanded, and it is not the root, which was met
  have hopened : ∀ (st : State) (t : Task) (p : Path), root.components ∈ st.visited →
      (∃ q, Expanded s root text q ∧ HasTask s root text q t) → t.import? s = .ok (some p) →
      p.components ∉ st.visited → t.directive.options.isInline = false → Expanded s root text p ∧ p ≠ root := by
    rintro st t p hvisited ⟨q, hq, ht⟩ himport hnew hinline
    exact ⟨hq.tail ⟨t, ht, himport, hinline⟩, fun heq => hnew (heq ▸ hvisited)⟩
  fun_induction run s st tasks with
  | case1 st => exact ⟨st, rfl⟩
  | case2 st t rest e himport =>
    obtain ⟨p, hp, ht⟩ := htasks t List.mem_cons_self
    obtain ⟨found, hfound⟩ := h.import? hp ht
    rw [himport] at hfound
    cases hfound
  | case3 st t rest himport ih => exact ih hroot fun t' ht' => htasks t' (List.mem_cons_of_mem _ ht')
  | case4 st t rest p himport hknown ih => exact ih hroot fun t' ht' => htasks t' (List.mem_cons_of_mem _ ht')
  | case5 st t rest p himport hnew hinline ih =>
    exact ih (List.mem_cons_of_mem _ hroot) fun t' ht' => htasks t' (List.mem_cons_of_mem _ ht')
  | case6 st t rest p himport hnew hinline e hopen =>
    obtain ⟨hp, hne⟩ := hopened st t p hroot (htasks t List.mem_cons_self) himport hnew (by simpa using hinline)
    obtain ⟨bytes, content, tasks, hread, htext, hparse⟩ := h.read hp hne
    cases (parseFile_of_openFile_error hopen).symm.trans (parseFile_of_read hread htext hparse)
  | case7 st t rest p himport hnew hinline file hopen _ ih =>
    obtain ⟨hp, hne⟩ := hopened st t p hroot (htasks t List.mem_cons_self) himport hnew (by simpa using hinline)
    obtain ⟨bytes, hread, htext, hparse⟩ := openFile_eq_ok hopen
    refine ih (List.mem_cons_of_mem _ hroot) fun t' ht' => ?_
    rcases List.mem_append.1 ht' with ht' | ht'
    · exact ⟨p, hp, file.text, file.tasks, (hasText_of_ne hne).2 ⟨bytes, hread, htext⟩, hparse, ht'⟩
    · exact htasks t' (List.mem_cons_of_mem _ ht')

/-- The processor succeeds if all expanded files can be followed. -/
theorem exists_processor_of_followable {fs : FileSystem} {locate : Locator} {options : RenderOptions}
    (h : Followable ⟨fs, locate, options⟩ root text) : ∃ r, processor fs locate text root options = .ok r := by
  obtain ⟨content, tasks, htext, htasks, -⟩ := h root .refl
  obtain rfl : content = text := hasText_root.1 htext
  have hroot : root.components ∈ (State.start root content).visited := List.mem_singleton.2 rfl
  obtain ⟨fin, hrun⟩ := exists_run_of_followable h (.start root content) tasks hroot
    fun t ht => ⟨root, .refl, content, tasks, htext, htasks, ht⟩
  exact ⟨_, processor_eq_ok_iff.2 ⟨tasks, fin, htasks, run_eq_ok_iff.1 hrun, rfl⟩⟩

end StyleTrack.Expansion
