/-
The walk of `@import` as it nests: a file is parsed, and a directive is followed all the way down into the file
that it imports before the next directive is looked at. A descent is cut off at a depth, and it keeps a log of
every file that a directive led to and of every file that was read.

A descent that is not cut off does what the walk does, and it is not cut off if it may go as deep as there are
readable files that were not met yet. The log of what was read is complete: no other file matters. What a descent
keeps on the way, whether or not it fails, orders the result: the imports are the files that were met, each where
it was met first, and the units are the root and then the imports whose first directive did not take them as they
are.
-/
import StyleTrack.Proofs.File.Tree
import StyleTrack.Proofs.Import.Walk
import Mathlib

namespace StyleTrack.Expansion

/-! ## Descents -/

/-- A file that a directive led to, and whether the directive takes the file as it is. -/
structure Encounter where
  path : Path
  isInline : Bool
deriving DecidableEq, Repr

/-- The state of a descent, the files that it met and the files that it read. -/
structure Journey extends State where
  met : List Encounter
  reads : List Path

namespace Journey

/-- The journey that has not gone anywhere, with only the root known. -/
def start (root : Path) : Journey := ⟨⟨[], [], [root.components]⟩, [], []⟩

/-- Whether a path is known. -/
def knows (j : Journey) (p : Path) : Bool := j.visited.contains p.components

theorem knows_iff {j : Journey} {p : Path} : j.knows p = true ↔ p.components ∈ j.visited := List.contains_iff_mem

/-! What happens to a journey: a file is met, it is taken into the imports, it is read, and it becomes a unit. -/

def meet (j : Journey) (e : Encounter) : Journey := { j with met := j.met ++ [e] }

def visit (j : Journey) (p : Path) : Journey := { j with toState := j.toState.visit p }

def enter (j : Journey) (p : Path) : Journey := { (j.meet ⟨p, false⟩).visit p with reads := j.reads ++ [p] }

def opened (j : Journey) (p : Path) (text : List Char) : Journey := { j with toState := j.toState.opened p text }

end Journey

/-- Why a descent ends early. -/
inductive Stop where
  | failed (e : ProcessorError)
  | tooDeep

/-- Whether a descent came to its end, and the journey. -/
abbrev Outcome := Except Stop Unit × Journey

/-- Goes on with a journey that was not stopped. -/
def Outcome.next (o : Outcome) (f : Journey → Outcome) : Outcome :=
  match o with
  | (.ok (), j) => f j
  | (.error stop, j) => (.error stop, j)

/-- Follows a directive, and goes `down` into the file that it imports if the file is new. -/
def follow (s : Setting) (down : Path → List Char → Journey → Outcome) (t : Task) (j : Journey) : Outcome :=
  match t.import? s with
  | .error e => (.error (.failed e), j)
  | .ok none => (.ok (), j)
  | .ok (some p) =>
    if j.knows p then (.ok (), j.meet ⟨p, t.directive.options.isInline⟩)
    else if t.directive.options.isInline then (.ok (), (j.meet ⟨p, true⟩).visit p)
    else match readText s.fs p with
      | .error e => (.error (.failed e), j.enter p)
      | .ok text => down p text (j.enter p)

/-- Follows directives one after the other, as long as none fails. -/
def followAll (s : Setting) (down : Path → List Char → Journey → Outcome) : List Task → Journey → Outcome
  | [], j => (.ok (), j)
  | t :: rest, j => (follow s down t j).next (followAll s down rest)

/-- Parses a file and follows its directives. No more than `depth` files are open at a time. -/
def descend (s : Setting) : Nat → Path → List Char → Journey → Outcome
  | 0, _, _, j => (.error .tooDeep, j)
  | depth + 1, file, text, j =>
    match tasksOf file text with
    | .error e => (.error (.failed e), j)
    | .ok tasks => followAll s (descend s depth) tasks (j.opened file text)

/-! ## What following a directive can do -/

variable {s : Setting} {down : Path → List Char → Journey → Outcome}

/-- Everything that following a directive can come to. -/
inductive Followed (s : Setting) (down : Path → List Char → Journey → Outcome) (t : Task) (j : Journey) :
    Outcome → Prop
  /-- The directive has no meaning here. -/
  | failed {e : ProcessorError} (himport : t.import? s = .error e) : Followed s down t j (.error (.failed e), j)
  /-- The directive is not to be followed. -/
  | left (himport : t.import? s = .ok none) : Followed s down t j (.ok (), j)
  /-- The file is known. -/
  | known {p : Path} (himport : t.import? s = .ok (some p)) (hknown : p.components ∈ j.visited) :
    Followed s down t j (.ok (), j.meet ⟨p, t.directive.options.isInline⟩)
  /-- The file is taken as it is. -/
  | inline {p : Path} (himport : t.import? s = .ok (some p)) (hnew : p.components ∉ j.visited)
    (hinline : t.directive.options.isInline = true) : Followed s down t j (.ok (), (j.meet ⟨p, true⟩).visit p)
  /-- The file cannot be read. -/
  | unread {p : Path} {e : ProcessorError} (himport : t.import? s = .ok (some p)) (hnew : p.components ∉ j.visited)
    (hinline : t.directive.options.isInline = false) (hread : readText s.fs p = .error e) :
    Followed s down t j (.error (.failed e), j.enter p)
  /-- The descent goes on in the file. -/
  | opened {p : Path} {text : List Char} (himport : t.import? s = .ok (some p)) (hnew : p.components ∉ j.visited)
    (hinline : t.directive.options.isInline = false) (hread : readText s.fs p = .ok text) :
    Followed s down t j (down p text (j.enter p))

theorem follow_eq_iff {t : Task} {j : Journey} {o : Outcome} : follow s down t j = o ↔ Followed s down t j o := by
  constructor
  · rintro rfl
    unfold follow
    cases himport : t.import? s with
    | error e => exact .failed himport
    | ok found =>
      cases found with
      | none => exact .left himport
      | some p =>
        dsimp only
        by_cases hknown : p.components ∈ j.visited
        · rw [if_pos (Journey.knows_iff.2 hknown)]
          exact .known himport hknown
        rw [if_neg (mt Journey.knows_iff.1 hknown)]
        cases hinline : t.directive.options.isInline with
        | true => exact .inline himport hknown hinline
        | false =>
          cases hread : readText s.fs p with
          | error e => exact .unread himport hknown hinline hread
          | ok text => exact .opened himport hknown hinline hread
  · intro h
    unfold follow
    cases h with
    | failed himport => rw [himport]
    | left himport => rw [himport]
    | known himport hknown =>
      rw [himport]
      exact if_pos (Journey.knows_iff.2 hknown)
    | inline himport hnew hinline =>
      rw [himport]
      exact (if_neg (mt Journey.knows_iff.1 hnew)).trans (if_pos hinline)
    | unread himport hnew hinline hread =>
      rw [himport]
      refine (if_neg (mt Journey.knows_iff.1 hnew)).trans ((if_neg (by simp [hinline])).trans ?_)
      rw [hread]
    | opened himport hnew hinline hread =>
      rw [himport]
      refine (if_neg (mt Journey.knows_iff.1 hnew)).trans ((if_neg (by simp [hinline])).trans ?_)
      rw [hread]

/-! ## The walk is a descent -/

theorem readText_eq_ok_iff {fs : FileSystem} {p : Path} {text : List Char} :
    readText fs p = .ok text ↔ ∃ bytes, fs.read p = .ok bytes ∧ Text.Utf8.decode bytes = .ok text := by
  rw [readText]
  cases fs.read p with
  | error fault => simp [Except.mapError, Except.bind]
  | ok bytes =>
    simp only [Except.ok.injEq, exists_eq_left']
    exact mapError_eq_ok_iff

/-- Following tasks and then others is following all of them. -/
theorem run_append (s : Setting) (st : State) (tasks rest : List Task) :
    run s st (tasks ++ rest) = (run s st tasks).bind fun st => run s st rest := by
  fun_induction run s st tasks with
  | case1 st => rfl
  | case2 st t ts e himport => simp [run_cons, himport, Except.bind]
  | case3 st t ts himport ih => simpa [run_cons, himport] using ih
  | case4 st t ts p himport hknown ih => simpa [run_cons, himport, hknown] using ih
  | case5 st t ts p himport hnew hinline ih => simpa [run_cons, himport, hnew, hinline] using ih
  | case6 st t ts p himport hnew hinline e hopen =>
    simp [run_cons, himport, hnew, hinline, parseFile_of_openFile_error hopen, Except.bind]
  | case7 st t ts p himport hnew hinline file hopen _ ih =>
    simpa [run_cons, himport, hnew, hinline, parseFile_of_openFile hopen, Except.bind] using ih

/-- The walk of a file. -/
def runFile (s : Setting) (st : State) (p : Path) (text : List Char) : Except ProcessorError State :=
  (tasksOf p text).bind fun tasks => run s (st.opened p text) tasks

/-- Whether a descent that was not cut off came to what a walk comes to. -/
def Outcome.Agrees (o : Outcome) (x : Except ProcessorError State) : Prop :=
  o.1 ≠ .error .tooDeep → (o.1.map fun _ => o.2.toState) = x.mapError .failed

theorem Outcome.Agrees.next {o : Outcome} {f : Journey → Outcome} {x : Except ProcessorError State}
    {g : State → Except ProcessorError State} (h : o.Agrees x) (hf : ∀ j, (f j).Agrees (g j.toState)) :
    (o.next f).Agrees (x.bind g) := by
  obtain ⟨result, j⟩ := o
  cases result with
  | error stop =>
    intro hstop
    cases x with
    | error e => exact h hstop
    | ok st => cases h hstop
  | ok u =>
    have hx : x = .ok j.toState := mapError_eq_ok_iff.1 (h (by simp)).symm
    rw [hx]
    exact hf j

theorem agrees_follow (hdown : ∀ p text j, (down p text j).Agrees (runFile s j.toState p text)) (t : Task)
    (j : Journey) : (follow s down t j).Agrees (run s j.toState [t]) := by
  rw [run_cons, run]
  generalize ho : follow s down t j = o
  cases follow_eq_iff.1 ho with
  | failed himport =>
    rw [himport]
    exact fun _ => rfl
  | left himport =>
    rw [himport]
    exact fun _ => rfl
  | known himport hknown =>
    rw [himport]
    simp only [hknown, if_true]
    exact fun _ => rfl
  | inline himport hnew hinline =>
    rw [himport]
    simp only [hnew, hinline, if_false, if_true, run]
    exact fun _ => rfl
  | unread himport hnew hinline hread =>
    rw [himport]
    simp only [hnew, hinline, if_false, Bool.false_eq_true, parseFile_bind, hread]
    exact fun _ => rfl
  | opened himport hnew hinline hread =>
    rw [himport]
    simp only [hnew, hinline, if_false, Bool.false_eq_true, parseFile_bind, hread, List.append_nil]
    exact hdown _ _ _

theorem agrees_followAll (hdown : ∀ p text j, (down p text j).Agrees (runFile s j.toState p text))
    (tasks : List Task) (j : Journey) : (followAll s down tasks j).Agrees (run s j.toState tasks) := by
  induction tasks generalizing j with
  | nil =>
    rw [run]
    exact fun _ => rfl
  | cons t rest ih =>
    rw [← List.singleton_append, run_append]
    exact (agrees_follow hdown t j).next ih

theorem agrees_descend (s : Setting) (depth : Nat) (p : Path) (text : List Char) (j : Journey) :
    (descend s depth p text j).Agrees (runFile s j.toState p text) := by
  induction depth generalizing p text j with
  | zero => exact fun hstop => absurd rfl hstop
  | succ depth ih =>
    rw [descend, runFile]
    cases tasksOf p text with
    | error e => exact fun _ => rfl
    | ok tasks => exact agrees_followAll ih tasks (j.opened p text)

/-! ## Growth -/

/-- Whether a journey goes on from another. -/
structure Journey.Within (j j' : Journey) : Prop where
  visited : j.visited ⊆ j'.visited
  reads : j.reads ⊆ j'.reads

theorem Journey.Within.refl (j : Journey) : j.Within j := ⟨fun _ h => h, fun _ h => h⟩

theorem Journey.Within.trans {a b c : Journey} (h : a.Within b) (h' : b.Within c) : a.Within c :=
  ⟨fun _ hm => h'.visited (h.visited hm), fun _ hm => h'.reads (h.reads hm)⟩

theorem Journey.within_enter (j : Journey) (p : Path) : j.Within (j.enter p) :=
  ⟨List.subset_cons_self _ _, List.subset_append_left _ _⟩

theorem Journey.mem_reads_enter (j : Journey) (p : Path) : p ∈ (j.enter p).reads := by simp [enter]

theorem Journey.Within.next {j : Journey} {o : Outcome} {f : Journey → Outcome} (h : j.Within o.2)
    (hf : ∀ j : Journey, j.Within (f j).2) : j.Within (o.next f).2 := by
  obtain ⟨_ | _, j'⟩ := o
  · exact h
  · exact h.trans (hf j')

theorem within_follow (hdown : ∀ p text (j : Journey), j.Within (down p text j).2) (t : Task) (j : Journey) :
    j.Within (follow s down t j).2 := by
  generalize ho : follow s down t j = o
  cases follow_eq_iff.1 ho with
  | failed => exact .refl j
  | left => exact .refl j
  | known => exact ⟨fun _ h => h, fun _ h => h⟩
  | inline => exact ⟨List.subset_cons_self _ _, fun _ h => h⟩
  | unread => exact j.within_enter _
  | opened => exact (j.within_enter _).trans (hdown _ _ _)

theorem within_followAll (hdown : ∀ p text (j : Journey), j.Within (down p text j).2) (tasks : List Task)
    (j : Journey) : j.Within (followAll s down tasks j).2 := by
  induction tasks generalizing j with
  | nil => exact .refl j
  | cons t rest ih => exact (within_follow hdown t j).next ih

theorem within_descend (s : Setting) (depth : Nat) (p : Path) (text : List Char) (j : Journey) :
    j.Within (descend s depth p text j).2 := by
  induction depth generalizing p text j with
  | zero => exact .refl j
  | succ depth ih =>
    rw [descend]
    cases tasksOf p text with
    | error e => exact .refl j
    | ok tasks =>
      have hgrow := within_followAll (s := s) ih tasks (j.opened p text)
      exact ⟨hgrow.visited, hgrow.reads⟩

/-! ## The depth that is enough -/

theorem unvisited_le_of_within {j j' : Journey} (h : j.Within j') (keys : List (List Component)) :
    j'.unvisited keys ≤ j.unvisited keys := by
  refine (List.monotone_filter_right keys fun k hk => ?_).length_le
  rw [decide_eq_true_eq] at hk ⊢
  exact fun hmem => hk (h.visited hmem)

section Depth

variable {keys : List (List Component)} {depth : Nat}

theorem follow_ne_tooDeep (hkeys : ∀ p bytes, s.fs.read p = .ok bytes → p.components ∈ keys)
    (hdown : ∀ p text (j : Journey), j.unvisited keys < depth → (down p text j).1 ≠ .error .tooDeep) {t : Task}
    {j : Journey} (hdepth : j.unvisited keys ≤ depth) : (follow s down t j).1 ≠ .error .tooDeep := by
  generalize ho : follow s down t j = o
  cases follow_eq_iff.1 ho with
  | failed => simp
  | left => simp
  | known => simp
  | inline => simp
  | unread => simp
  | opened himport hnew hinline hread =>
    obtain ⟨bytes, hbytes, -⟩ := readText_eq_ok_iff.1 hread
    -- the file was not met before, so it counts among those that are left
    have hless := State.unvisited_visit_lt (hkeys _ bytes hbytes) hnew
    exact hdown _ _ _ (Nat.lt_of_lt_of_le hless hdepth)

theorem followAll_ne_tooDeep (hkeys : ∀ p bytes, s.fs.read p = .ok bytes → p.components ∈ keys)
    (hwithin : ∀ p text (j : Journey), j.Within (down p text j).2)
    (hdown : ∀ p text (j : Journey), j.unvisited keys < depth → (down p text j).1 ≠ .error .tooDeep) (tasks : List Task)
    {j : Journey} (hdepth : j.unvisited keys ≤ depth) : (followAll s down tasks j).1 ≠ .error .tooDeep := by
  induction tasks generalizing j with
  | nil => simp [followAll]
  | cons t rest ih =>
    have hfollow := follow_ne_tooDeep hkeys hdown (t := t) hdepth
    have hgrow := within_follow (s := s) hwithin t j
    rw [followAll]
    rcases hresult : follow s down t j with ⟨result, j'⟩
    rw [hresult] at hfollow hgrow
    cases result with
    | error stop => exact hfollow
    | ok u => exact ih (Nat.le_trans (unvisited_le_of_within hgrow keys) hdepth)

/-- A descent is not cut off if it may go deeper than there are readable files left. -/
theorem descend_ne_tooDeep (hkeys : ∀ p bytes, s.fs.read p = .ok bytes → p.components ∈ keys) (p : Path)
    (text : List Char) {j : Journey} (hdepth : j.unvisited keys < depth) :
    (descend s depth p text j).1 ≠ .error .tooDeep := by
  induction depth generalizing p text j with
  | zero => exact absurd hdepth (Nat.not_lt_zero _)
  | succ depth ih =>
    rw [descend]
    split
    · simp
    · exact followAll_ne_tooDeep hkeys (within_descend s depth) (fun p text j => ih p text) _
        (Nat.le_of_lt_succ hdepth)

end Depth

/-! ## The log of what was read -/

section Log

variable {fs' : FileSystem} {down' : Path → List Char → Journey → Outcome}

theorem readText_congr {fs : FileSystem} {p : Path} (h : fs'.read p = fs.read p) : readText fs' p = readText fs p := by
  rw [readText, readText, h]

theorem follow_congr (hwithin : ∀ p text (j : Journey), j.Within (down p text j).2)
    (hdown : ∀ p text j, (∀ q ∈ (down p text j).2.reads, fs'.read q = s.fs.read q) →
      down' p text j = down p text j) {t : Task} {j : Journey}
    (h : ∀ q ∈ (follow s down t j).2.reads, fs'.read q = s.fs.read q) :
    follow { s with fs := fs' } down' t j = follow s down t j := by
  rw [follow_eq_iff]
  revert h
  generalize ho : follow s down t j = o
  cases follow_eq_iff.1 ho with
  | failed himport => exact fun _ => .failed himport
  | left himport => exact fun _ => .left himport
  | known himport hknown => exact fun _ => .known himport hknown
  | inline himport hnew hinline => exact fun _ => .inline himport hnew hinline
  | @unread p e himport hnew hinline hread =>
    exact fun h => .unread himport hnew hinline ((readText_congr (h p (j.mem_reads_enter p))).trans hread)
  | @opened p text himport hnew hinline hread =>
    intro h
    have hp := h p ((hwithin p text _).reads (j.mem_reads_enter p))
    rw [← hdown p text _ h]
    exact .opened himport hnew hinline ((readText_congr hp).trans hread)

theorem followAll_congr (hwithin : ∀ p text (j : Journey), j.Within (down p text j).2)
    (hdown : ∀ p text j, (∀ q ∈ (down p text j).2.reads, fs'.read q = s.fs.read q) →
      down' p text j = down p text j) (tasks : List Task) {j : Journey}
    (h : ∀ q ∈ (followAll s down tasks j).2.reads, fs'.read q = s.fs.read q) :
    followAll { s with fs := fs' } down' tasks j = followAll s down tasks j := by
  induction tasks generalizing j with
  | nil => rfl
  | cons t rest ih =>
    rw [followAll] at h
    rw [followAll, followAll]
    have hgrow : (follow s down t j).2.Within ((follow s down t j).next (followAll s down rest)).2 :=
      (Journey.Within.refl _).next (within_followAll hwithin rest)
    rw [follow_congr hwithin hdown fun q hq => h q (hgrow.reads hq)]
    revert h
    obtain ⟨result, j'⟩ := follow s down t j
    cases result with
    | error stop => exact fun _ => rfl
    | ok u => exact fun h => ih h

/-- A descent depends on no file but those that it logs as read. -/
theorem descend_congr (depth : Nat) (p : Path) (text : List Char) {j : Journey}
    (h : ∀ q ∈ (descend s depth p text j).2.reads, fs'.read q = s.fs.read q) :
    descend { s with fs := fs' } depth p text j = descend s depth p text j := by
  induction depth generalizing p text j with
  | zero => rfl
  | succ depth ih =>
    rw [descend] at h
    rw [descend, descend]
    cases htasks : tasksOf p text with
    | error e => rfl
    | ok tasks =>
      rw [htasks] at h
      exact followAll_congr (within_descend s depth) (fun p text j => ih p text) tasks h

end Log

/-! ## What a descent keeps -/

variable {root : Path} {text : List Char}

namespace Journey

/-- Whether the first directive that led to a file takes the file as it is. -/
def tookInline (j : Journey) (p : Path) : Bool := (j.met.find? fun e => e.path.same p).any (·.isInline)

/-- How a journey from `root` is determined by what it met, at any time. -/
structure Sound (root : Path) (j : Journey) : Prop where
  /-- The paths that are known are the root and those that were met. -/
  visited : ∀ k, k ∈ j.visited ↔ k = root.components ∨ ∃ e ∈ j.met, e.path.components = k
  /-- The imports are the files that were met, without the root, each in the spelling that was met first. -/
  imports : j.imports = distinct ((j.met.map (·.path)).filter fun p => p.same root = false)
  /-- The files that were read are the imports that are not taken as they are. -/
  reads : j.reads = j.imports.filter fun p => j.tookInline p = false

/-- Whether the units are the root and then the files that were read, each with the text that was read. -/
def CaughtUp (s : Setting) (root : Path) (text : List Char) (j : Journey) : Prop :=
  ∃ units, j.sources = ⟨root, text⟩ :: units ∧ units.map (·.path) = j.reads ∧
    ∀ u ∈ units, readText s.fs u.path = .ok u.text

variable {j : Journey}

theorem tookInline_meet_of_mem {e : Encounter} {p : Path} (h : ∃ e' ∈ j.met, e'.path.components = p.components) :
    (j.meet e).tookInline p = j.tookInline p := by
  obtain ⟨e', he', heq⟩ := h
  have hfound : (j.met.find? fun e => e.path.same p).isSome := by
    rw [List.find?_isSome]
    exact ⟨e', he', by simp [Path.same, heq]⟩
  obtain ⟨first, hfirst⟩ := Option.isSome_iff_exists.1 hfound
  simp [tookInline, meet, List.find?_append, hfirst]

theorem tookInline_meet_of_not_mem {e : Encounter} (h : ¬ ∃ e' ∈ j.met, e'.path.components = e.path.components) :
    (j.meet e).tookInline e.path = e.isInline := by
  have hnone : (j.met.find? fun e' => e'.path.same e.path) = none := by
    rw [List.find?_eq_none]
    exact fun e' he' hsame => h ⟨e', he', by simpa [Path.same] using hsame⟩
  rw [tookInline, meet, List.find?_append, hnone]
  simp [Path.same]

/-- A file that was read becomes a unit. -/
theorem CaughtUp.opened (h : j.CaughtUp s root text) {p : Path} {content : List Char}
    (hread : readText s.fs p = .ok content) : ((j.enter p).opened p content).CaughtUp s root text := by
  obtain ⟨units, hsources, hpaths, hunits⟩ := h
  refine ⟨units ++ [⟨p, content⟩], ?_, ?_, fun u hu => ?_⟩
  · show j.sources ++ [⟨p, content⟩] = _
    rw [hsources, List.cons_append]
  · rw [List.map_append, hpaths]
    rfl
  · rcases List.mem_append.1 hu with hu | hu
    · exact hunits u hu
    · rw [List.mem_singleton.1 hu]
      exact hread

namespace Sound

theorem exists_met (h : Sound root j) {p : Path} (hp : p ∈ j.imports) :
    ∃ e ∈ j.met, e.path.components = p.components := by
  rw [h.imports] at hp
  obtain ⟨e, he, heq⟩ := List.mem_map.1 (List.mem_filter.1 (mem_of_mem_distinct hp)).1
  exact ⟨e, he, by rw [heq]⟩

/-- What was decided about an import stays decided. -/
theorem filter_tookInline_meet (h : Sound root j) (e : Encounter) :
    j.imports.filter (fun p => (j.meet e).tookInline p = false) = j.imports.filter fun p => j.tookInline p = false :=
  List.filter_congr fun p hp => by rw [tookInline_meet_of_mem (h.exists_met hp)]

/-- A known file is met once more. -/
theorem meet (h : Sound root j) {e : Encounter} (hknown : e.path.components ∈ j.visited) : Sound root (j.meet e) where
  visited k := by
    simp only [Journey.meet, List.mem_append, List.mem_singleton, or_and_right, exists_or, exists_eq_left, h.visited k]
    constructor
    · rintro (hk | hk)
      · exact .inl hk
      · exact .inr (.inl hk)
    · rintro (hk | hk | rfl)
      · exact .inl hk
      · exact .inr hk
      · exact (h.visited _).1 hknown
  imports := by
    show j.imports = distinct (((j.met ++ [e]).map (·.path)).filter fun p => p.same root = false)
    rw [List.map_append, List.filter_append, h.imports]
    by_cases hroot : e.path.components = root.components
    · simp [Path.same, hroot]
    · rcases (h.visited _).1 hknown with heq | ⟨e', he', heq⟩
      · exact absurd heq hroot
      · have hkept : e'.path ∈ (j.met.map (·.path)).filter fun p => p.same root = false :=
          List.mem_filter.2 ⟨List.mem_map_of_mem he', by simp [Path.same, heq, hroot]⟩
        rw [List.map_singleton, List.filter_cons_of_pos (by simp [Path.same, hroot]), List.filter_nil,
          distinct_concat, if_pos ⟨_, hkept, heq⟩]
  reads := h.reads.trans (h.filter_tookInline_meet e).symm

/-- A new file is met and taken into the imports, and it is read unless it is taken as it is. -/
theorem of_new (h : Sound root j) {e : Encounter} (hnew : e.path.components ∉ j.visited) {j' : Journey}
    (hstate : j'.toState = j.toState.visit e.path) (hmet : j'.met = j.met ++ [e])
    (hreads : j'.reads = if e.isInline then j.reads else j.reads ++ [e.path]) : Sound root j' := by
  obtain ⟨hroot, hunmet⟩ := not_or.1 (mt (h.visited _).2 hnew)
  have himports : j'.imports = j.imports ++ [e.path] := by rw [hstate]; rfl
  have htook : ∀ p, j'.tookInline p = (j.meet e).tookInline p := fun p => by simp only [tookInline, hmet, Journey.meet]
  refine ⟨fun k => ?_, ?_, ?_⟩
  · rw [hstate, hmet]
    simp only [State.visit, List.mem_append, List.mem_cons, List.not_mem_nil, or_false, or_and_right, exists_or,
      exists_eq_left, h.visited k]
    rw [@eq_comm _ e.path.components k, or_comm, or_assoc]
  · rw [himports, hmet, List.map_append, List.filter_append, List.map_singleton,
      List.filter_cons_of_pos (by simp [Path.same, hroot]), List.filter_nil, distinct_concat, if_neg, h.imports]
    rintro ⟨q, hq, heq⟩
    obtain ⟨e', he', rfl⟩ := List.mem_map.1 (List.mem_filter.1 hq).1
    exact hunmet ⟨e', he', heq⟩
  · simp only [htook]
    rw [himports, List.filter_append, h.filter_tookInline_meet, ← h.reads, hreads]
    cases hinline : e.isInline <;> simp [tookInline_meet_of_not_mem hunmet, hinline]

theorem visit (h : Sound root j) {p : Path} (hnew : p.components ∉ j.visited) :
    Sound root ((j.meet ⟨p, true⟩).visit p) := h.of_new hnew rfl rfl rfl

theorem enter (h : Sound root j) {p : Path} (hnew : p.components ∉ j.visited) : Sound root (j.enter p) :=
  h.of_new hnew rfl rfl rfl

theorem opened_iff {p : Path} {content : List Char} : Sound root (j.opened p content) ↔ Sound root j :=
  ⟨fun h => ⟨h.visited, h.imports, h.reads⟩, fun h => ⟨h.visited, h.imports, h.reads⟩⟩

end Sound

end Journey

/-- What a stretch of a descent keeps: at any time the journey is determined by what it met, and unless the
stretch was stopped all that was read has become a unit. -/
def Keeps (s : Setting) (root : Path) (text : List Char) (j : Journey) (o : Outcome) : Prop :=
  j.Sound root → o.2.Sound root ∧ (j.CaughtUp s root text → o.1 = .ok () → o.2.CaughtUp s root text)

variable {j : Journey}

theorem Keeps.next {o : Outcome} {f : Journey → Outcome} (h : Keeps s root text j o)
    (hf : ∀ j', Keeps s root text j' (f j')) : Keeps s root text j (o.next f) := by
  obtain ⟨result, j'⟩ := o
  intro hsound
  obtain ⟨hsound', hcaught'⟩ := h hsound
  cases result with
  | error stop => exact ⟨hsound', fun _ hok => by cases hok⟩
  | ok u => exact ⟨(hf j' hsound').1, fun hcaught hok => (hf j' hsound').2 (hcaught' hcaught rfl) hok⟩

theorem keeps_follow (hdown : ∀ p content j, Keeps s root text (j.opened p content) (down p content j)) (t : Task)
    (j : Journey) : Keeps s root text j (follow s down t j) := by
  intro hsound
  generalize ho : follow s down t j = o
  cases follow_eq_iff.1 ho with
  | failed => exact ⟨hsound, fun _ hok => by cases hok⟩
  | left => exact ⟨hsound, fun hcaught _ => hcaught⟩
  | known himport hknown => exact ⟨hsound.meet hknown, fun hcaught _ => hcaught⟩
  | inline himport hnew => exact ⟨hsound.visit hnew, fun hcaught _ => hcaught⟩
  | unread himport hnew => exact ⟨hsound.enter hnew, fun _ hok => by cases hok⟩
  | opened himport hnew hinline hread =>
    obtain ⟨hsound', hcaught'⟩ := hdown _ _ _ (Journey.Sound.opened_iff.2 (hsound.enter hnew))
    exact ⟨hsound', fun hcaught => hcaught' (hcaught.opened hread)⟩

theorem keeps_followAll (hdown : ∀ p content j, Keeps s root text (j.opened p content) (down p content j))
    (tasks : List Task) (j : Journey) : Keeps s root text j (followAll s down tasks j) := by
  induction tasks generalizing j with
  | nil => exact fun hsound => ⟨hsound, fun hcaught _ => hcaught⟩
  | cons t rest ih => exact (keeps_follow hdown t j).next ih

theorem keeps_descend (depth : Nat) (p : Path) (content : List Char) (j : Journey) :
    Keeps s root text (j.opened p content) (descend s depth p content j) := by
  induction depth generalizing p content j with
  | zero => exact fun hsound => ⟨Journey.Sound.opened_iff.1 hsound, fun _ hok => by cases hok⟩
  | succ depth ih =>
    rw [descend]
    split
    · exact fun hsound => ⟨Journey.Sound.opened_iff.1 hsound, fun _ hok => by cases hok⟩
    · exact keeps_followAll ih _ _

/-! ## Runs of the processor -/

theorem sound_start (root : Path) : (Journey.start root).Sound root where
  visited k := by simp [Journey.start]
  imports := rfl
  reads := rfl

/-- A descent from the root that is not cut off comes to what the processor comes to. -/
theorem processed_of_descend (s : Setting) (root : Path) (text : List Char) {depth : Nat} {result : Except Stop Unit}
    {j : Journey} (h : descend s depth root text (.start root) = (result, j)) (hstop : result ≠ .error .tooDeep) :
    (result.map fun _ => (⟨j.imports, j.sources⟩ : Processed)) =
      (processor s.fs s.locate text root s.options).mapError .failed := by
  have hagrees := agrees_descend s depth root text (.start root)
  rw [h] at hagrees
  have hresult : (result.map fun _ => j.toState) = _ := hagrees hstop
  have hprocessor : processor s.fs s.locate text root s.options =
      (runFile s (Journey.start root).toState root text).map fun st => ⟨st.imports, st.sources⟩ := by
    rw [processor, runFile]
    cases tasksOf root text <;> rfl
  rw [hprocessor]
  cases hrun : runFile s (Journey.start root).toState root text <;> cases result <;> rw [hrun] at hresult <;>
    cases hresult <;> rfl

/-- The walk ends, whatever the file system holds and wherever it fails: it is a descent that never has more
files open at a time than the root and the readable files besides it. It depends on no other file than those that
are logged as read. No file is read twice, and the root is not read at all. If the walk succeeds, the imports are
the files that were met, each once and without the root, and the units are the root and then, in the order of the
imports, those whose first directive did not take them as they are, each with the text that its bytes decode to. -/
theorem processor_depth_first (fs : FileSystem) (locate : Locator) (options : RenderOptions) (root : Path)
    (text : List Char) {keys : List (List Component)} (hkeys : ∀ p bytes, fs.read p = .ok bytes → p.components ∈ keys)
    {depth : Nat} (hdepth : (keys.filter fun k => k ≠ root.components).length < depth) :
    ∃ result j, descend ⟨fs, locate, options⟩ depth root text (.start root) = (result, j) ∧
      (result.map fun _ => (⟨j.imports, j.sources⟩ : Processed)) =
        (processor fs locate text root options).mapError .failed ∧
      (∀ fs' : FileSystem, (∀ p ∈ j.reads, fs'.read p = fs.read p) →
        processor fs' locate text root options = processor fs locate text root options) ∧
      j.reads.Pairwise (fun p q => p.components ≠ q.components) ∧ (∀ p ∈ j.reads, p.components ≠ root.components) ∧
      ∀ r, processor fs locate text root options = .ok r →
        r.imports.Pairwise (fun p q => p.components ≠ q.components) ∧
        (∀ p ∈ r.imports, p.components ≠ root.components) ∧
        r.imports = distinct ((j.met.map (·.path)).filter fun p => p.same root = false) ∧
        ∃ units, r.sources = ⟨root, text⟩ :: units ∧ units.map (·.path) = j.reads ∧
          j.reads = r.imports.filter (fun p => j.tookInline p = false) ∧
          ∀ u ∈ units, ∃ bytes, fs.read u.path = .ok bytes ∧ Text.Utf8.decode bytes = .ok u.text := by
  have hunvisited : (Journey.start root).unvisited keys = (keys.filter fun k => k ≠ root.components).length := by
    simp [State.unvisited, Journey.start]
  have hstop : (descend ⟨fs, locate, options⟩ depth root text (.start root)).1 ≠ .error .tooDeep :=
    descend_ne_tooDeep hkeys root text (by rw [hunvisited]; exact hdepth)
  have hkeeps : Keeps ⟨fs, locate, options⟩ root text _ _ := keeps_descend depth root text (.start root)
  obtain ⟨hsound, hcaught⟩ := hkeeps (Journey.Sound.opened_iff.2 (sound_start root))
  rcases hdescend : descend ⟨fs, locate, options⟩ depth root text (.start root) with ⟨result, j⟩
  rw [hdescend] at hstop hsound hcaught
  have hprocessed := processed_of_descend ⟨fs, locate, options⟩ root text hdescend hstop
  have hpairwise : j.imports.Pairwise fun p q => p.components ≠ q.components := by
    rw [hsound.imports]
    exact pairwise_distinct _
  have hroot : ∀ p ∈ j.imports, p.components ≠ root.components := by
    intro p hp heq
    rw [hsound.imports] at hp
    have hkept := (List.mem_filter.1 (mem_of_mem_distinct hp)).2
    simp [Path.same, heq] at hkept
  refine ⟨result, j, rfl, hprocessed, fun fs' hagree => ?_, ?_, ?_, fun r hr => ?_⟩
  · have hdescend' : descend ⟨fs', locate, options⟩ depth root text (.start root) = (result, j) := by
      rw [← hdescend]
      exact descend_congr depth root text (by rw [hdescend]; exact hagree)
    have hprocessed' := processed_of_descend ⟨fs', locate, options⟩ root text hdescend' hstop
    exact mapError_injective (fun _ _ => Stop.failed.inj) (hprocessed'.symm.trans hprocessed)
  · rw [hsound.reads]
    exact hpairwise.filter _
  · rw [hsound.reads]
    exact fun p hp => hroot p (List.mem_filter.1 hp).1
  · rw [hr] at hprocessed
    cases result with
    | error stop => cases hprocessed
    | ok u =>
      cases hprocessed
      obtain ⟨units, hsources, hpaths, hunits⟩ := hcaught ⟨[], rfl, rfl, by simp⟩ rfl
      exact ⟨hpairwise, hroot, hsound.imports, units, hsources, hpaths, hsound.reads,
        fun u hu => readText_eq_ok_iff.1 (hunits u hu)⟩

/-- A style sheet that imports two files, of which the first takes the second as it is and leads back to it. -/
def entrance : String := "@import \"a\";\n@import \"b\";"

def circular : FileTree :=
  ⟨.ofList [(.ofString "main.less", ⟨Text.Utf8.ofString entrance, ⟨100, 0⟩⟩),
    (.ofString "a.less", ⟨Text.Utf8.ofString "@import (inline) \"b\";\n@import \"main\";", ⟨101, 0⟩⟩),
    (.ofString "b.less", ⟨Text.Utf8.ofString "b", ⟨102, 0⟩⟩)], []⟩

theorem processor_depth_first_circular :
    (∀ p bytes, circular.system.read p = .ok bytes → p.components ∈ circular.files.entries.map (·.1.components)) ∧
    ((circular.files.entries.map (·.1.components)).filter
      fun k => k ≠ (Path.ofString "main.less").components).length < 3 ∧
    ∃ j, descend ⟨circular.system, .searching circular.system, {}⟩ 3 (.ofString "main.less") entrance.toList
        (.start (.ofString "main.less")) = (.ok (), j) ∧
      j.met = [⟨.ofString "a.less", false⟩, ⟨.ofString "b.less", true⟩, ⟨.ofString "main.less", false⟩,
        ⟨.ofString "b.less", false⟩] ∧
      j.reads = [.ofString "a.less"] ∧
      ∃ r, processor circular.system (.searching circular.system) entrance.toList (.ofString "main.less") {} = .ok r ∧
        r.imports = [.ofString "a.less", .ofString "b.less"] ∧
        r.sources.map (·.path) = [.ofString "main.less", .ofString "a.less"] := by
  have hkeys : ∀ p bytes, circular.system.read p = .ok bytes →
      p.components ∈ circular.files.entries.map (·.1.components) := fun p bytes => FileTree.components_mem_of_read
  have hdepth : ((circular.files.entries.map (·.1.components)).filter
      fun k => k ≠ (Path.ofString "main.less").components).length < 3 := by cbv
  have hdescend : descend ⟨circular.system, .searching circular.system, {}⟩ 3 (.ofString "main.less") entrance.toList
      (.start (.ofString "main.less")) =
      (.ok (), ⟨⟨[.ofString "a.less", .ofString "b.less"], [⟨.ofString "main.less", entrance.toList⟩,
          ⟨.ofString "a.less", "@import (inline) \"b\";\n@import \"main\";".toList⟩],
          [(Path.ofString "b.less").components, (Path.ofString "a.less").components,
            (Path.ofString "main.less").components]⟩,
        [⟨.ofString "a.less", false⟩, ⟨.ofString "b.less", true⟩, ⟨.ofString "main.less", false⟩,
          ⟨.ofString "b.less", false⟩], [.ofString "a.less"]⟩) := by cbv
  obtain ⟨result, j, hrun, hresult, -, -, -, hok⟩ := processor_depth_first circular.system
    (.searching circular.system) {} (.ofString "main.less") entrance.toList hkeys hdepth
  rw [hdescend] at hrun
  cases hrun
  have hprocessor := mapError_eq_ok_iff.1 hresult.symm
  obtain ⟨-, -, -, units, hsources, hpaths, -⟩ := hok _ hprocessor
  exact ⟨hkeys, hdepth, _, hdescend, rfl, rfl, _, hprocessor, rfl, by rw [hsources, List.map_cons, hpaths]⟩

end StyleTrack.Expansion
