/-
The walk of `@import` as a relation between its configurations, a state and the tasks that are left.
A run succeeds exactly when steps lead from its configuration to one without tasks, so what a step keeps
a run keeps, and a run is repeated step by step wherever its steps are possible.

The invariant of the walk says where everything in a state comes from. It is the whole knowledge that
completeness, replaying and removal need: every unit is the root or a recorded file that was read, every
recorded file has a directive in a unit that imports it, and every directive of a unit is either still to
be followed or settled.
-/
import StyleTrack.Import.Expansion
import StyleTrack.Proofs.Import.Traced
import Mathlib.Logic.Relation

namespace StyleTrack.Expansion

/-! ## Steps -/

/-- A state of the walk and the tasks that are left. -/
abbrev Config := State × List Task

/-- One step of the walk: its first task is settled. -/
inductive Step (s : Setting) : Config → Config → Prop
  /-- The directive is not to be followed. -/
  | left {st : State} {t : Task} {rest : List Task} (himport : t.import? s = .ok none) :
    Step s (st, t :: rest) (st, rest)
  /-- The file was met before. -/
  | known {st : State} {t : Task} {rest : List Task} {p : Path} (himport : t.import? s = .ok (some p))
    (hknown : p.components ∈ st.visited) : Step s (st, t :: rest) (st, rest)
  /-- The file is taken as it is. -/
  | inline {st : State} {t : Task} {rest : List Task} {p : Path} (himport : t.import? s = .ok (some p))
    (hnew : p.components ∉ st.visited) (hinline : t.directive.options.isInline = true) :
    Step s (st, t :: rest) (st.visit p, rest)
  /-- The file is opened, and its directives come first. -/
  | opened {st : State} {t : Task} {rest tasks : List Task} {p : Path} {bytes : List UInt8} {text : List Char}
    (himport : t.import? s = .ok (some p)) (hnew : p.components ∉ st.visited)
    (hinline : t.directive.options.isInline = false) (hread : s.fs.read p = .ok bytes)
    (htext : textOf p bytes = .ok text) (htasks : tasksOf p text = .ok tasks) :
    Step s (st, t :: rest) ((st.visit p).opened p text, tasks ++ rest)

/-! ## Runs -/

section Runs

variable {fs : FileSystem} {p : Path}

theorem parseFile_of_read {bytes : List UInt8} {text : List Char} {tasks : List Task} (hread : fs.read p = .ok bytes)
    (htext : textOf p bytes = .ok text) (htasks : tasksOf p text = .ok tasks) : parseFile fs p = .ok (text, tasks) :=
  bind_eq_ok_iff.2 ⟨text, bind_eq_ok_iff.2 ⟨bytes, mapError_eq_ok_iff.2 hread, htext⟩,
    map_eq_ok_iff.2 ⟨tasks, htasks, rfl⟩⟩

theorem parseFile_of_openFile {file : OpenFile fs p} (h : openFile fs p = .ok file) :
    parseFile fs p = .ok (file.text, file.tasks) := by
  rw [← map_openFile, h]
  rfl

theorem parseFile_of_openFile_error {e : ProcessorError} (h : openFile fs p = .error e) : parseFile fs p = .error e := by
  rw [← map_openFile, h]
  rfl

theorem openFile_eq_ok {file : OpenFile fs p} (h : openFile fs p = .ok file) :
    ∃ bytes, fs.read p = .ok bytes ∧ textOf p bytes = .ok file.text ∧ tasksOf p file.text = .ok file.tasks :=
  parseFile_eq_ok (parseFile_of_openFile h)

theorem parseFile_bind {β : Type} (f : List Char × List Task → Except ProcessorError β) : (parseFile fs p).bind f =
    (readText fs p).bind fun text => (tasksOf p text).bind fun tasks => f (text, tasks) := by
  unfold parseFile
  cases readText fs p with
  | error e => rfl
  | ok text =>
    simp only [Except.bind]
    cases tasksOf p text <;> rfl

end Runs

theorem run_cons (s : Setting) (st : State) (t : Task) (rest : List Task) : run s st (t :: rest) =
    match t.import? s with
    | .error e => .error e
    | .ok none => run s st rest
    | .ok (some p) =>
      if p.components ∈ st.visited then run s st rest
      else if t.directive.options.isInline then run s (st.visit p) rest
      else (parseFile s.fs p).bind fun file => run s ((st.visit p).opened p file.1) (file.2 ++ rest) := by
  rw [run]
  cases t.import? s with
  | error e => rfl
  | ok found =>
    cases found with
    | none => rfl
    | some p =>
      dsimp only
      split
      · rfl
      split
      · rfl
      rw [← map_openFile]
      cases openFile s.fs p <;> rfl

variable {s : Setting}

theorem Step.run_eq {c c' : Config} (h : Step s c c') : run s c.1 c.2 = run s c'.1 c'.2 := by
  cases h with
  | left himport => simp [run_cons, himport]
  | known himport hknown => simp [run_cons, himport, hknown]
  | inline himport hnew hinline => simp [run_cons, himport, hnew, hinline]
  | opened himport hnew hinline hread htext htasks =>
    simp [run_cons, himport, hnew, hinline, parseFile_of_read hread htext htasks, Except.bind]

/-- A run succeeds with a state exactly when steps lead there and leave no task. -/
theorem run_eq_ok_iff {st fin : State} {tasks : List Task} :
    run s st tasks = .ok fin ↔ Relation.ReflTransGen (Step s) (st, tasks) (fin, []) := by
  constructor
  · intro h
    fun_induction run s st tasks with
    | case1 st => cases h; exact .refl
    | case2 => cases h
    | case3 st t rest himport ih => exact .head (.left himport) (ih h)
    | case4 st t rest p himport hknown ih => exact .head (.known himport hknown) (ih h)
    | case5 st t rest p himport hnew hinline ih => exact .head (.inline himport hnew hinline) (ih h)
    | case6 => cases h
    | case7 st t rest p himport hnew hinline file hopen _ ih =>
      obtain ⟨bytes, hread, htext, htasks⟩ := openFile_eq_ok hopen
      exact .head (.opened himport hnew (by simpa using hinline) hread htext htasks) (ih h)
  · intro h
    have hrun : ∀ c : Config, Relation.ReflTransGen (Step s) c (fin, []) → run s c.1 c.2 = .ok fin := by
      intro c hc
      induction hc using Relation.ReflTransGen.head_induction_on with
      | refl => rw [run]
      | head hstep _ ih => rw [hstep.run_eq, ih]
    exact hrun _ h

/-- What every step keeps, any number of steps keep. -/
theorem invariant_of_steps {I : Config → Prop} (hstep : ∀ c c', I c → Step s c c' → I c') {c c' : Config}
    (h : Relation.ReflTransGen (Step s) c c') (hinit : I c) : I c' := by
  induction h with
  | refl => exact hinit
  | tail _ hlast ih => exact hstep _ _ ih hlast

/-! ## Growth -/

/-- Whether the second state has everything that the first has. -/
structure State.Within (st fin : State) : Prop where
  imports : st.imports ⊆ fin.imports
  sources : st.sources ⊆ fin.sources
  visited : st.visited ⊆ fin.visited

theorem State.Within.refl (st : State) : st.Within st := ⟨fun _ h => h, fun _ h => h, fun _ h => h⟩

theorem State.Within.trans {a b c : State} (h : a.Within b) (h' : b.Within c) : a.Within c :=
  ⟨fun _ hm => h'.imports (h.imports hm), fun _ hm => h'.sources (h.sources hm),
    fun _ hm => h'.visited (h.visited hm)⟩

theorem State.within_visit (st : State) (p : Path) : st.Within (st.visit p) :=
  ⟨List.subset_append_left _ _, fun _ h => h, List.subset_cons_self _ _⟩

theorem State.within_opened (st : State) (p : Path) (text : List Char) : st.Within (st.opened p text) :=
  ⟨fun _ h => h, List.subset_append_left _ _, fun _ h => h⟩

theorem Step.within {c c' : Config} (h : Step s c c') : c.1.Within c'.1 := by
  cases h with
  | left => exact .refl _
  | known => exact .refl _
  | inline => exact State.within_visit _ _
  | opened => exact (State.within_visit _ _).trans (State.within_opened _ _ _)

theorem within_of_steps {c c' : Config} (h : Relation.ReflTransGen (Step s) c c') : c.1.Within c'.1 := by
  exact invariant_of_steps (I := fun c' => c.1.Within c'.1) (fun _ _ ih hlast => ih.trans hlast.within) h (.refl _)

/-! ## The invariant -/

/-- Whether a task is that of a directive of some unit. -/
def TaskOf (units : List SourceUnit) (t : Task) : Prop :=
  ∃ u ∈ units, ∃ tasks, tasksOf u.path u.text = .ok tasks ∧ t ∈ tasks

theorem TaskOf.mono {units units' : List SourceUnit} (h : units ⊆ units') {t : Task} (ht : TaskOf units t) :
    TaskOf units' t := by
  obtain ⟨u, hu, htasks⟩ := ht
  exact ⟨u, h hu, htasks⟩

/-- Where everything in a configuration of a walk from `root` comes from. -/
structure Walked (s : Setting) (root : Path) (text : List Char) (c : Config) : Prop where
  /-- The paths that were met are the root and the imports. -/
  met : ∀ k, k ∈ c.1.visited ↔ k = root.components ∨ ∃ p ∈ c.1.imports, p.components = k
  /-- The root is a unit. -/
  first : ⟨root, text⟩ ∈ c.1.sources
  /-- Every other unit is an import and has the text that was read. -/
  unit : ∀ u ∈ c.1.sources, u = ⟨root, text⟩ ∨ u.path ∈ c.1.imports ∧
    ∃ bytes, s.fs.read u.path = .ok bytes ∧ textOf u.path bytes = .ok u.text
  /-- Every unit could be parsed. -/
  parsed : ∀ u ∈ c.1.sources, ∃ tasks, tasksOf u.path u.text = .ok tasks
  /-- No import is the root, and a directive imports it; it is a unit unless the directive takes it as it is. -/
  origin : ∀ p ∈ c.1.imports, p.components ≠ root.components ∧ ∃ t, TaskOf c.1.sources t ∧
    t.import? s = .ok (some p) ∧ (t.directive.options.isInline = true ∨ ∃ u ∈ c.1.sources, u.path = p)
  /-- A task that is left belongs to a unit. -/
  pending : ∀ t ∈ c.2, TaskOf c.1.sources t
  /-- A task of a unit is left, or not to be followed, or its file was met. -/
  settled : ∀ t, TaskOf c.1.sources t → t ∈ c.2 ∨ t.import? s = .ok none ∨
    ∃ p, t.import? s = .ok (some p) ∧ p.components ∈ c.1.visited

namespace Walked

variable {root : Path} {text : List Char}

theorem root_mem {c : Config} (h : Walked s root text c) : root.components ∈ c.1.visited := (h.met _).2 (.inl rfl)

/-- A task that is settled without changing the state can be dropped. -/
theorem drop {st : State} {t : Task} {rest : List Task} (h : Walked s root text (st, t :: rest))
    (ht : t.import? s = .ok none ∨ ∃ p, t.import? s = .ok (some p) ∧ p.components ∈ st.visited) :
    Walked s root text (st, rest) := by
  refine ⟨h.met, h.first, h.unit, h.parsed, h.origin, fun t' ht' => h.pending t' (List.mem_cons_of_mem _ ht'), ?_⟩
  intro t' ht'
  rcases h.settled t' ht' with hmem | hsettled
  · rcases List.mem_cons.1 hmem with rfl | hmem
    · exact .inr ht
    · exact .inl hmem
  · exact .inr hsettled

/-- After a path is met, the paths that were met are still the root and the imports. -/
theorem met_visit {c : Config} (h : Walked s root text c) (p : Path) (k : List Component) :
    k ∈ (c.1.visit p).visited ↔ k = root.components ∨ ∃ q ∈ (c.1.visit p).imports, q.components = k := by
  simp only [State.visit, List.mem_cons, h.met k, List.mem_append, List.mem_nil_iff, or_false, or_and_right,
    exists_or, exists_eq_left]
  rw [@eq_comm _ p.components k, or_comm, or_assoc]

/-- The file of the first task is recorded as it is. -/
theorem visit {st : State} {t : Task} {rest : List Task} {p : Path} (h : Walked s root text (st, t :: rest))
    (himport : t.import? s = .ok (some p)) (hnew : p.components ∉ st.visited)
    (hinline : t.directive.options.isInline = true) : Walked s root text (st.visit p, rest) := by
  have hroot : p.components ≠ root.components := fun heq => hnew (heq ▸ h.root_mem)
  refine ⟨h.met_visit p, h.first, fun u hu => ?_, h.parsed, fun q hq => ?_, fun t' ht' => ?_, fun t' ht' => ?_⟩
  · exact (h.unit u hu).imp id fun hr => ⟨List.mem_append_left _ hr.1, hr.2⟩
  · rcases List.mem_append.1 hq with hq | hq
    · exact h.origin q hq
    · rw [List.mem_singleton.1 hq]
      exact ⟨hroot, t, h.pending t List.mem_cons_self, himport, .inl hinline⟩
  · exact h.pending t' (List.mem_cons_of_mem _ ht')
  · rcases h.settled t' ht' with hmem | hnone | ⟨q, hq, hmet⟩
    · rcases List.mem_cons.1 hmem with rfl | hmem
      · exact .inr (.inr ⟨p, himport, List.mem_cons_self⟩)
      · exact .inl hmem
    · exact .inr (.inl hnone)
    · exact .inr (.inr ⟨q, hq, List.mem_cons_of_mem _ hmet⟩)

/-- The file of the first task is recorded and becomes a unit. -/
theorem opened {st : State} {t : Task} {rest tasks : List Task} {p : Path} {bytes : List UInt8}
    {content : List Char} (h : Walked s root text (st, t :: rest)) (himport : t.import? s = .ok (some p))
    (hnew : p.components ∉ st.visited) (hread : s.fs.read p = .ok bytes) (htext : textOf p bytes = .ok content)
    (htasks : tasksOf p content = .ok tasks) :
    Walked s root text ((st.visit p).opened p content, tasks ++ rest) := by
  have hroot : p.components ≠ root.components := fun heq => hnew (heq ▸ h.root_mem)
  have hgrow : st.sources ⊆ st.sources ++ [⟨p, content⟩] := List.subset_append_left _ _
  have hunit : (⟨p, content⟩ : SourceUnit) ∈ st.sources ++ [⟨p, content⟩] := by simp
  refine ⟨h.met_visit p, hgrow h.first, fun u hu => ?_, fun u hu => ?_, fun q hq => ?_, fun t' ht' => ?_, ?_⟩
  · rcases List.mem_append.1 hu with hu | hu
    · exact (h.unit u hu).imp id fun hr => ⟨List.mem_append_left _ hr.1, hr.2⟩
    · rw [List.mem_singleton.1 hu]
      exact .inr ⟨List.mem_append_right _ (List.mem_singleton.2 rfl), bytes, hread, htext⟩
  · rcases List.mem_append.1 hu with hu | hu
    · exact h.parsed u hu
    · rw [List.mem_singleton.1 hu]
      exact ⟨tasks, htasks⟩
  · rcases List.mem_append.1 hq with hq | hq
    · obtain ⟨hne, t', ht', himp, hwhy⟩ := h.origin q hq
      exact ⟨hne, t', ht'.mono hgrow, himp, hwhy.imp id fun ⟨u, hu, heq⟩ => ⟨u, hgrow hu, heq⟩⟩
    · rw [List.mem_singleton.1 hq]
      exact ⟨hroot, t, (h.pending t List.mem_cons_self).mono hgrow, himport, .inr ⟨_, hunit, rfl⟩⟩
  · rcases List.mem_append.1 ht' with ht' | ht'
    · exact ⟨_, hunit, tasks, htasks, ht'⟩
    · exact (h.pending t' (List.mem_cons_of_mem _ ht')).mono hgrow
  · rintro t' ⟨u, hu, tasks', htasks', ht'⟩
    rcases List.mem_append.1 hu with hu | hu
    · rcases h.settled t' ⟨u, hu, tasks', htasks', ht'⟩ with hmem | hnone | ⟨q, hq, hmet⟩
      · rcases List.mem_cons.1 hmem with rfl | hmem
        · exact .inr (.inr ⟨p, himport, List.mem_cons_self⟩)
        · exact .inl (List.mem_append_right _ hmem)
      · exact .inr (.inl hnone)
      · exact .inr (.inr ⟨q, hq, List.mem_cons_of_mem _ hmet⟩)
    · -- the directives of the new unit are exactly the tasks that were put in front
      rw [List.mem_singleton.1 hu, htasks] at htasks'
      cases htasks'
      exact .inl (List.mem_append_left _ ht')

theorem step {c c' : Config} (h : Walked s root text c) (hstep : Step s c c') : Walked s root text c' := by
  cases hstep with
  | left himport => exact h.drop (.inl himport)
  | known himport hknown => exact h.drop (.inr ⟨_, himport, hknown⟩)
  | inline himport hnew hinline => exact h.visit himport hnew hinline
  | opened himport hnew hinline hread htext htasks => exact h.opened himport hnew hread htext htasks

end Walked

/-! ## Runs of the processor -/

/-- The state in which a walk starts. -/
def State.start (root : Path) (text : List Char) : State := ⟨[], [⟨root, text⟩], [root.components]⟩

theorem walked_start {root : Path} {text : List Char} {tasks : List Task} (h : tasksOf root text = .ok tasks) :
    Walked s root text (.start root text, tasks) := by
  have hunit : (⟨root, text⟩ : SourceUnit) ∈ (State.start root text).sources := List.mem_singleton.2 rfl
  refine ⟨fun k => by simp [State.start], hunit, fun u hu => .inl (List.mem_singleton.1 hu), fun u hu => ?_, ?_, ?_, ?_⟩
  · rw [List.mem_singleton.1 hu]
    exact ⟨tasks, h⟩
  · intro p hp; cases hp
  · intro t ht; exact ⟨_, hunit, tasks, h, ht⟩
  · rintro t ⟨u, hu, tasks', htasks', ht⟩
    rw [List.mem_singleton.1 hu, h] at htasks'
    cases htasks'
    exact .inl ht

/-- The processor succeeds when steps lead from the start to a state without tasks, and reports that state. -/
theorem processor_eq_ok_iff {fs : FileSystem} {locate : Locator} {text : List Char} {root : Path}
    {options : RenderOptions} {r : Processed} :
    processor fs locate text root options = .ok r ↔
      ∃ tasks st, tasksOf root text = .ok tasks ∧
        Relation.ReflTransGen (Step ⟨fs, locate, options⟩) (.start root text, tasks) (st, []) ∧
        r = ⟨st.imports, st.sources⟩ := by
  unfold processor
  simp only [bind_eq_ok_iff, run_eq_ok_iff]
  constructor
  · rintro ⟨tasks, htasks, st, hrun, h⟩; cases h; exact ⟨tasks, st, htasks, hrun, rfl⟩
  · rintro ⟨tasks, st, htasks, hrun, rfl⟩; exact ⟨tasks, htasks, st, hrun, rfl⟩

/-- A run of the processor ends in a state that has the invariant and leaves nothing to do. -/
theorem exists_walked_of_processor {fs : FileSystem} {locate : Locator} {text : List Char} {root : Path}
    {options : RenderOptions} {r : Processed} (h : processor fs locate text root options = .ok r) :
    ∃ st, Walked ⟨fs, locate, options⟩ root text (st, []) ∧ r = ⟨st.imports, st.sources⟩ := by
  obtain ⟨tasks, st, htasks, hrun, hr⟩ := processor_eq_ok_iff.1 h
  exact ⟨st, invariant_of_steps (fun _ _ hc hstep => hc.step hstep) hrun (walked_start htasks), hr⟩

/-! ## Repeating a walk -/

/-- A walk can be repeated in other surroundings that import the same for every directive of its units
and read the same wherever it read. -/
theorem processor_congr {fs fs' : FileSystem} {locate locate' : Locator} {text : List Char} {root : Path}
    {options : RenderOptions} {r : Processed} (h : processor fs locate text root options = .ok r)
    (himport : ∀ t, TaskOf r.sources t → t.import? ⟨fs', locate', options⟩ = t.import? ⟨fs, locate, options⟩)
    (hread : ∀ p ∈ r.imports, ∀ bytes, fs.read p = .ok bytes → fs'.read p = .ok bytes) :
    processor fs' locate' text root options = .ok r := by
  obtain ⟨tasks, st, htasks, hrun, rfl⟩ := processor_eq_ok_iff.1 h
  refine processor_eq_ok_iff.2 ⟨tasks, st, htasks, ?_, rfl⟩
  have hsteps : ∀ c, Walked ⟨fs, locate, options⟩ root text c →
      Relation.ReflTransGen (Step ⟨fs, locate, options⟩) c (st, []) →
      Relation.ReflTransGen (Step ⟨fs', locate', options⟩) c (st, []) := by
    intro c hc hsteps
    induction hsteps using Relation.ReflTransGen.head_induction_on with
    | refl => exact .refl
    | @head c c' hstep hrest ih =>
      have hwithin := within_of_steps hrest
      have hsame : ∀ t rest, c.2 = t :: rest →
          t.import? ⟨fs', locate', options⟩ = t.import? ⟨fs, locate, options⟩ := by
        intro t rest hc2
        have ht := hc.pending t (by rw [hc2]; exact List.mem_cons_self)
        exact himport t (ht.mono fun u hu => hwithin.sources (hstep.within.sources hu))
      refine .head ?_ (ih (hc.step hstep))
      cases hstep with
      | left himp => exact .left (by rw [hsame _ _ rfl, himp])
      | known himp hknown => exact .known (by rw [hsame _ _ rfl, himp]) hknown
      | inline himp hnew hinline => exact .inline (by rw [hsame _ _ rfl, himp]) hnew hinline
      | opened himp hnew hinline hr htext htasks' =>
        refine .opened (by rw [hsame _ _ rfl, himp]) hnew hinline (hread _ ?_ _ hr) htext htasks'
        exact hwithin.imports (List.mem_append_right _ (List.mem_singleton.2 rfl))
  exact hsteps _ (walked_start htasks) hrun

end StyleTrack.Expansion
