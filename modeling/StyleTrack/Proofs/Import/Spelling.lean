/-
Two spellings of a root. What a file imports and embeds is searched for from its directory, and the places of a
search are cleaned. So the walks from two spellings in directories that are cleaned alike go in step, and give the
same listing, as long as no import leads back to the root: whether that was met before is told by its spelling.
-/
import StyleTrack.Proofs.Import.Completeness
import StyleTrack.Proofs.Path.Join

namespace StyleTrack

/-! ## Searches -/

theorem Locator.searching_of_clean {fs : FileSystem} {base base' : Path} (h : base.clean = base'.clean)
    (candidate : String) (search : List Path) : searching fs base candidate search = searching fs base' candidate search := by
  unfold searching places
  rw [List.map_cons, List.map_cons, Path.clean_join_congr h]

/-- The path that a root is known by under another spelling. -/
def Path.respell (p root root' : Path) : Path := if p = root then root' else p

theorem Path.respell_of_ne {root root' p : Path} (h : p ≠ root) : p.respell root root' = p := if_neg h

theorem Path.clean_directory_respell {root root' : Path} (hdir : root.directory.clean = root'.directory.clean)
    (p : Path) : p.directory.clean = (p.respell root root').directory.clean := by
  unfold respell
  split_ifs with h
  · rw [h, hdir]
  · rfl

namespace Expansion

variable {fs : FileSystem} {options : RenderOptions} {root root' : Path}

/-! ## Tasks -/

/-- A directive leads to the same path from a directory that is cleaned alike, if no plugin looks at directories. -/
theorem Task.import?_of_clean (hplugins : options.plugins = []) {t : Task} {file : Path}
    (hdir : t.file.directory.clean = file.directory.clean) {found : Option Path}
    (h : t.import? (.searching fs options) = .ok found) :
    Task.import? (.searching fs options) { t with file := file } = .ok found := by
  have hclaim : ∀ candidate directory, options.claim? candidate directory = none := by
    intro candidate directory
    rw [RenderOptions.claim?, hplugins]
    rfl
  unfold Task.import? Setting.searching at h ⊢
  dsimp only at h ⊢
  cases htarget : Source.interpolate (options.value? t.declared) t.directive.target with
  | error fault =>
    rw [htarget] at h
    cases h
  | ok target =>
    simp only [htarget, Except.mapError, bind, Except.bind, hclaim] at h ⊢
    rw [Locator.searching_of_clean hdir] at h
    -- the two differ in the file that a failure names, and there is none
    split_ifs at h ⊢
    · exact h
    · exact h
    · revert h
      split
      · exact id
      · intro h
        cases h
      · intro h
        cases h

theorem tasksOf_spec {file : Path} {text : List Char} {tasks : List Task} (h : tasksOf file text = .ok tasks) :
    (∀ t ∈ tasks, t.file = file) ∧ ∀ file', tasksOf file' text = .ok (tasks.map fun t => { t with file := file' }) := by
  unfold tasksOf at h ⊢
  dsimp only at h ⊢
  cases hparse : Source.Directive.parse (Source.stripComments text) with
  | error fault =>
    rw [hparse] at h
    cases h
  | ok directives =>
    rw [hparse] at h
    cases h
    refine ⟨fun t ht => ?_, fun file' => ?_⟩
    · obtain ⟨directive, -, rfl⟩ := List.mem_map.1 ht
      rfl
    · dsimp only
      rw [List.map_map]
      rfl

/-- A task with its file under another spelling. -/
def Task.respell (root root' : Path) (t : Task) : Task := { t with file := t.file.respell root root' }

theorem Task.map_respell_of_ne {tasks : List Task} {file : Path} (hne : file ≠ root) (h : ∀ t ∈ tasks, t.file = file) :
    tasks.map (Task.respell root root') = tasks := by
  refine (List.map_congr_left fun t ht => ?_).trans (List.map_id' _)
  rw [Task.respell, Path.respell_of_ne (h t ht ▸ hne)]

/-- Whether no directive of some units leads to a path. -/
def Avoids (s : Setting) (units : List SourceUnit) (q : Path) : Prop :=
  ∀ t p, TaskOf units t → t.import? s = .ok (some p) → p.components ≠ q.components

/-! ## Walks -/

/-- A unit with its path under another spelling. -/
def respellUnit (root root' : Path) (u : SourceUnit) : SourceUnit := { u with path := u.path.respell root root' }

/-- A state of a walk from a root, as that of a walk from another spelling of it. -/
def State.respell (root root' : Path) (st : State) : State where
  imports := st.imports
  sources := st.sources.map (respellUnit root root')
  visited := st.visited.map fun k => if k = root.components then root'.components else k

theorem State.mem_visited_respell {st : State} {p : Path} (hroot : p.components ≠ root.components)
    (hroot' : p.components ≠ root'.components) :
    p.components ∈ (st.respell root root').visited ↔ p.components ∈ st.visited := by
  rw [State.respell, List.mem_map]
  constructor
  · rintro ⟨k, hk, heq⟩
    split_ifs at heq with h
    · exact absurd heq.symm hroot'
    · exact heq ▸ hk
  · intro h
    exact ⟨_, h, if_neg hroot⟩

theorem State.respell_visit {st : State} {p : Path} (hroot : p.components ≠ root.components) :
    (st.visit p).respell root root' = (st.respell root root').visit p := by
  simp only [State.respell, State.visit, List.map_cons, if_neg hroot]

theorem State.respell_opened {st : State} {p : Path} (hroot : p ≠ root) (text : List Char) :
    (st.opened p text).respell root root' = (st.respell root root').opened p text := by
  simp only [State.respell, State.opened, List.map_append, List.map_cons, List.map_nil, respellUnit,
    Path.respell_of_ne hroot]

section Steps

variable (hplugins : options.plugins = []) (hdir : root.directory.clean = root'.directory.clean)
include hplugins hdir

theorem Task.import?_respell {t : Task} {found : Option Path} (h : t.import? (.searching fs options) = .ok found) :
    (t.respell root root').import? (.searching fs options) = .ok found :=
  Task.import?_of_clean hplugins (Path.clean_directory_respell hdir t.file) h

/-- A step of a walk is one of the walk from another spelling, as long as it does not lead to either spelling. -/
theorem Step.respell {c c' : Config} (h : Step (.searching fs options) c c')
    (havoid : ∀ t rest p, c.2 = t :: rest → t.import? (.searching fs options) = .ok (some p) →
      p.components ≠ root.components ∧ p.components ≠ root'.components) :
    Step (.searching fs options) (c.1.respell root root', c.2.map (Task.respell root root'))
      (c'.1.respell root root', c'.2.map (Task.respell root root')) := by
  cases h with
  | left himport => exact .left (Task.import?_respell hplugins hdir himport)
  | known himport hknown =>
    obtain ⟨hroot, hroot'⟩ := havoid _ _ _ rfl himport
    exact .known (Task.import?_respell hplugins hdir himport) ((State.mem_visited_respell hroot hroot').2 hknown)
  | inline himport hnew hinline =>
    obtain ⟨hroot, hroot'⟩ := havoid _ _ _ rfl himport
    rw [State.respell_visit hroot]
    exact .inline (Task.import?_respell hplugins hdir himport) ((State.mem_visited_respell hroot hroot').not.2 hnew)
      hinline
  | opened himport hnew hinline hread htext htasks =>
    obtain ⟨hroot, hroot'⟩ := havoid _ _ _ rfl himport
    have hne := fun heq => hroot (congrArg Path.components heq)
    rw [State.respell_opened hne, State.respell_visit hroot, List.map_append,
      Task.map_respell_of_ne hne (tasksOf_spec htasks).1]
    exact .opened (Task.import?_respell hplugins hdir himport) ((State.mem_visited_respell hroot hroot').not.2 hnew)
      hinline hread htext htasks

/-- The walk from another spelling of a root reports the same, but for the spelling of the root among its units. -/
theorem processor_respell {text : List Char} {r : Processed}
    (h : processor fs (.searching fs) text root options = .ok r) (hroot : Avoids (.searching fs options) r.sources root)
    (hroot' : Avoids (.searching fs options) r.sources root') :
    processor fs (.searching fs) text root' options = .ok ⟨r.imports, r.sources.map (respellUnit root root')⟩ := by
  obtain ⟨tasks, st, htasks, hrun, rfl⟩ := processor_eq_ok_iff.1 h
  -- from the end backwards: what is still pending comes from units that are reported in the end
  have hsteps : ∀ c, Walked (.searching fs options) root text c →
      Relation.ReflTransGen (Step (.searching fs options)) c (st, []) →
      Relation.ReflTransGen (Step (.searching fs options)) (c.1.respell root root', c.2.map (Task.respell root root'))
        (st.respell root root', []) := by
    intro c hc hsteps
    induction hsteps using Relation.ReflTransGen.head_induction_on with
    | refl => exact .refl
    | @head c c' hstep hrest ih =>
      have hwithin := within_of_steps hrest
      refine .head (hstep.respell hplugins hdir fun t rest p hc2 himport => ?_) (ih (hc.step hstep))
      have ht : TaskOf st.sources t := by
        have hpending := hc.pending t (by rw [hc2]; exact List.mem_cons_self)
        exact hpending.mono fun u hu => hwithin.sources (hstep.within.sources hu)
      exact ⟨hroot t p ht himport, hroot' t p ht himport⟩
  have hstart : (State.start root text).respell root root' = State.start root' text := by
    simp [State.respell, State.start, respellUnit, Path.respell]
  obtain ⟨hfile, htasks'⟩ := tasksOf_spec htasks
  have hmap : tasks.map (Task.respell root root') = tasks.map fun t => { t with file := root' } := by
    refine List.map_congr_left fun t ht => ?_
    rw [Task.respell, hfile t ht, Path.respell, if_pos rfl]
  have hrun' := hsteps _ (walked_start htasks) hrun
  rw [hstart, hmap] at hrun'
  exact processor_eq_ok_iff.2 ⟨_, _, htasks' root', hrun', rfl⟩

end Steps

end Expansion

/-! ## Listings -/

open Expansion Lister

variable {fs : FileSystem} {options : RenderOptions} {root root' : Path}

theorem Lister.resources_respell (hdir : root.directory.clean = root'.directory.clean) {u : SourceUnit} {found : List Path}
    (h : ((standard fs options).resources root options.paths u).result = .ok found) :
    ((standard fs options).resources root' options.paths (respellUnit root root' u)).result = .ok found := by
  obtain ⟨references, hscan, hfound⟩ := resources_standard_eq_ok_iff.1 h
  refine resources_standard_eq_ok_iff.2 ⟨references, hscan, hfound.imp fun candidate p hp => ?_⟩
  have hbase : (baseOf u.path candidate).clean = (baseOf (u.path.respell root root') candidate).clean := by
    unfold baseOf
    split_ifs
    · rfl
    · exact Path.clean_directory_respell hdir u.path
  exact (Locator.searching_of_clean hbase candidate options.paths).symm.trans hp

/-- Two spellings in directories that are cleaned alike have the same listing, if no import leads back to them. -/
theorem Listed.respell (hplugins : options.plugins = []) (hdir : root.directory.clean = root'.directory.clean)
    {text : List Char} {r : Processed} {deps : List Path} (h : Listed fs options root text r deps)
    (hroot : Avoids (.searching fs options) r.sources root) (hroot' : Avoids (.searching fs options) r.sources root') :
    Listed fs options root' text ⟨r.imports, r.sources.map (respellUnit root root')⟩ deps := by
  obtain ⟨found, hfound, hdeps⟩ := h.embedded
  refine ⟨processor_respell hplugins hdir h.processed hroot hroot', found, ?_, hdeps⟩
  rw [List.forall₂_map_left_iff]
  exact hfound.imp fun u ps hps => resources_respell hdir hps

/-- Without plugins, every listed path is spelled cleanly. -/
theorem Listed.exists_clean (hplugins : options.plugins = []) {text : List Char} {r : Processed} {deps : List Path}
    (h : Listed fs options root text r deps) {p : Path} (hp : p ∈ deps) : ∃ q : Path, p = q.clean := by
  obtain ⟨found, hfound, rfl⟩ := h.embedded
  rcases List.mem_append.1 (mem_of_mem_distinct hp) with hp | hp
  · obtain ⟨st, hst, hr⟩ := exists_walked_of_processor h.processed
    rw [hr] at hp
    obtain ⟨-, t, -, himport, -⟩ := hst.origin p hp
    exact Task.exists_clean_of_import? hplugins himport
  · obtain ⟨ps, hps, hp⟩ := List.mem_flatten.1 hp
    obtain ⟨u, -, hu⟩ := exists_of_forall₂_right hfound hps
    obtain ⟨references, -, hsearch⟩ := resources_standard_eq_ok_iff.1 hu
    obtain ⟨candidate, -, hsearch⟩ := exists_of_forall₂_right hsearch hp
    exact Locator.exists_clean_of_searching hsearch

end StyleTrack
