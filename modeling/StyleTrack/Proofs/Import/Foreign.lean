/-
Targets that are no files of this system. References to a host or a scheme are no dependencies, and neither are the
directives with such a target: the walk goes on as if they were not there, and no locator is asked about a target on
another machine. The exception is a target that is data of its own. It is sought as a file like any other, unless its
directive is left to the reader of the style sheet.
-/
import StyleTrack.Proofs.Import.Descent
import StyleTrack.Proofs.Import.Embedded

namespace StyleTrack

open StyleTrack.Source

/-! ## Hosts and schemes -/

/-- Whether a target is data of its own, in letters of either case. -/
def IsData (target : List Char) : Prop := ['d', 'a', 't', 'a', ':'] <+: target.map Char.toLower

/-- Whether a target names a host or one of the schemes, in letters of either case. -/
def IsForeign (target : List Char) : Prop :=
  ['/', '/'] <+: target ∨ ['h', 't', 't', 'p', ':'] <+: target.map Char.toLower ∨
    ['h', 't', 't', 'p', 's', ':'] <+: target.map Char.toLower ∨ IsData target

variable {target raw word rest : List Char}

theorem isForeign_iff : IsForeign target ↔ isRemote target = true ∨ IsData target := by
  simp only [IsForeign, isRemote, Bool.or_eq_true, List.isPrefixOf_iff_prefix, startsWord_iff, or_assoc]

/-- Data of its own does not lie on another machine: the first characters differ. -/
theorem not_isData_of_isRemote (h : isRemote target = true) : ¬ IsData target := by
  intro hdata
  rw [isRemote, Bool.or_eq_true, Bool.or_eq_true, List.isPrefixOf_iff_prefix, startsWord_iff, startsWord_iff] at h
  cases target with
  | nil => simp [IsData] at hdata
  | cons c rest =>
    rw [IsData, List.map_cons, List.cons_prefix_cons] at hdata
    rw [List.map_cons, List.cons_prefix_cons, List.cons_prefix_cons, List.cons_prefix_cons, ← hdata.1] at h
    rcases h with (⟨rfl, -⟩ | ⟨hhttp, -⟩) | ⟨hhttps, -⟩
    · exact absurd hdata.1 (by decide)
    · exact absurd hhttp (by decide)
    · exact absurd hhttps (by decide)

/-- No local file is read from what is foreign, and none from what is a part only. -/
theorem localFile?_eq_none_iff : localFile? raw = none ↔ IsForeign raw ∨ raw.takeWhile (· ≠ '#') = [] := by
  have hcondition : (isRemote raw || startsWord ['d', 'a', 't', 'a', ':'] raw) = true ↔ IsForeign raw := by
    rw [Bool.or_eq_true, startsWord_iff, isForeign_iff, IsData]
  rw [isRemote] at hcondition
  unfold localFile?
  by_cases hforeign : IsForeign raw
  · rw [if_pos (hcondition.2 hforeign)]
    simp [hforeign]
  · rw [if_neg (mt hcondition.1 hforeign)]
    simp [hforeign]

/-- A word that does not end in what was appended stood there before. -/
theorem isPrefix_of_append {c : Char} (hlast : c ∈ word.getLast?) (hc : c ∉ rest) (h : word <+: target ++ rest) :
    word <+: target := by
  rcases List.prefix_or_prefix_of_prefix h (List.prefix_append target rest) with hword | ⟨tail, rfl⟩
  · exact hword
  · have htail : tail <+: rest := (List.prefix_append_right_inj target).1 h
    rcases List.eq_nil_or_concat tail with rfl | ⟨front, d, rfl⟩
    · simp
    · obtain rfl : c = d := by simpa [eq_comm] using hlast
      exact absurd (htail.subset (by simp)) hc

theorem isRemote_of_append (hslash : '/' ∉ rest) (hcolon : ':' ∉ rest) (h : isRemote (target ++ rest) = true) :
    isRemote target = true := by
  have hlower : ':' ∉ rest.map Char.toLower := by
    intro hmem
    obtain ⟨c, hc, heq⟩ := List.mem_map.1 hmem
    rw [toLower_eq_iff (by decide)] at heq
    exact hcolon (heq ▸ hc)
  simp only [isRemote, Bool.or_eq_true, List.isPrefixOf_iff_prefix, startsWord_iff, List.map_append] at h ⊢
  rcases h with (h | h) | h
  · exact .inl (.inl (isPrefix_of_append rfl hslash h))
  · exact .inl (.inr (isPrefix_of_append rfl hlower h))
  · exact .inr (isPrefix_of_append rfl hlower h)

theorem isRemote_of_fileOfTarget {target : String} (h : isRemote (fileOfTarget target).toList = true) :
    isRemote target.toList = true := by
  unfold fileOfTarget at h
  split_ifs at h
  · rw [String.toList_append] at h
    exact isRemote_of_append (by decide) (by decide) h
  · exact h

namespace Expansion

variable {options : RenderOptions} {t : Task} {target : String} {s s' : Setting}

/-! ## One directive -/

/-- What the answer of the locator means for a directive whose target is a file. -/
def Task.sought (s : Setting) (t : Task) (target : String) : Except ProcessorError (Option Path) :=
  match s.locate t.file.directory (fileOfTarget target) s.options.paths with
  | .ok found => .ok (some found)
  | .error (.notFound name tried) =>
    if t.directive.options.isOptional then .ok none
    else .error (.importNotFound target t.file (.notFound name tried))
  | .error cause => .error (.resolve cause)

theorem Task.import?_eq (hplugins : s.options.plugins = [])
    (htarget : interpolate (s.options.value? t.declared) t.directive.target = .ok target) : t.import? s =
      if isRemote target.toList || isPlainCss target.toList t.directive.options then .ok none else t.sought s target := by
  have hclaim : s.options.claim? (fileOfTarget target) t.file.directory = none := by
    simp [RenderOptions.claim?, hplugins]
  unfold Task.import? Task.sought
  simp only [htarget, Except.mapError, bind, Except.bind, hclaim, pure, Except.pure]
  rfl

/-- A directive is left alone, whatever a locator would find, exactly if it is to another machine or plain CSS. -/
theorem Task.left_alone_iff (hplugins : options.plugins = [])
    (htarget : interpolate (options.value? t.declared) t.directive.target = .ok target) (fs : FileSystem) :
    (∀ locate, t.import? ⟨fs, locate, options⟩ = .ok none) ↔
      (isRemote target.toList || isPlainCss target.toList t.directive.options) = true := by
  have heq : ∀ locate, t.import? ⟨fs, locate, options⟩ = _ := fun locate =>
    Task.import?_eq (s := ⟨fs, locate, options⟩) hplugins htarget
  constructor
  · intro h
    by_contra hfollowed
    -- A locator that finds everything shows that it is asked.
    have hfound := (heq fun base _ _ => .ok base).symm.trans (h _)
    rw [if_neg hfollowed] at hfound
    cases hfound
  · intro h locate
    rw [heq, if_pos h]

/-! ## The walk -/

theorem run_skip {st : State} {front rest : List Task} (h : t.import? s = .ok none) :
    run s st (front ++ t :: rest) = run s st (front ++ rest) := by
  rw [run_append, run_append]
  congr 1
  funext st'
  rw [run_cons, h]

/-- Walks through one file system are alike if each directive imports the same in both. -/
theorem run_congr (hfs : s'.fs = s.fs) (himport : ∀ t : Task, t.import? s' = t.import? s) (st : State)
    (tasks : List Task) : run s' st tasks = run s st tasks := by
  fun_induction run s st tasks with
  | case1 st => rw [run]
  | case2 st t ts e h => simp only [run_cons, himport, h]
  | case3 st t ts h ih => simpa only [run_cons, himport, h] using ih
  | case4 st t ts p h hknown ih => simpa only [run_cons, himport, h, hknown, if_true] using ih
  | case5 st t ts p h hnew hinline ih => simpa only [run_cons, himport, h, hnew, hinline, if_true, if_false] using ih
  | case6 st t ts p h hnew hinline e hopen =>
    simp [run_cons, himport, h, hnew, hinline, hfs, parseFile_of_openFile_error hopen, Except.bind]
  | case7 st t ts p h hnew hinline file hopen _ ih =>
    simpa [run_cons, himport, h, hnew, hinline, hfs, parseFile_of_openFile hopen, Except.bind] using ih

variable {fs : FileSystem} {locate locate' : Locator}

/-- A directive imports the same wherever locators answer alike about what is not on another machine. -/
theorem Task.import?_congr (hplugins : options.plugins = [])
    (hlocate : ∀ directory candidate search, isRemote candidate.toList = false →
      locate' directory candidate search = locate directory candidate search) (t : Task) :
    t.import? ⟨fs, locate', options⟩ = t.import? ⟨fs, locate, options⟩ := by
  cases htarget : interpolate (options.value? t.declared) t.directive.target with
  | error fault => simp only [Task.import?, htarget, Except.mapError, bind, Except.bind]
  | ok target =>
    rw [Task.import?_eq (s := ⟨fs, locate', options⟩) hplugins htarget,
      Task.import?_eq (s := ⟨fs, locate, options⟩) hplugins htarget]
    by_cases hleft : (isRemote target.toList || isPlainCss target.toList t.directive.options) = true
    · rw [if_pos hleft, if_pos hleft]
    · have hhere : isRemote (fileOfTarget target).toList = false := by
        rw [Bool.eq_false_iff]
        intro hremote
        exact hleft (by rw [isRemote_of_fileOfTarget hremote, Bool.true_or])
      rw [if_neg hleft, if_neg hleft]
      simp only [Task.sought, hlocate _ _ _ hhere]

theorem processor_congr_of_local (hplugins : options.plugins = [])
    (hlocate : ∀ directory candidate search, isRemote candidate.toList = false →
      locate' directory candidate search = locate directory candidate search) (text : List Char) (root : Path) :
    processor fs locate' text root options = processor fs locate text root options := by
  have hrun : ∀ st tasks, run ⟨fs, locate', options⟩ st tasks = run ⟨fs, locate, options⟩ st tasks :=
    run_congr rfl (Task.import?_congr hplugins hlocate)
  simp only [processor, hrun]

/-- What becomes of directives whose target names a host or a scheme, when there are no plugins. No embedded file is read
from such a target. The directive is left alone as well, whatever a locator would find, unless its target is data that is
not plain CSS: then its file is sought, and the answer of the locator decides. The walk goes on as if a directive that is
left alone were not there, and what locators say about other machines makes no difference to it. -/
theorem foreign_left_alone {options : RenderOptions} (hplugins : options.plugins = []) (fs : FileSystem) :
    (∀ raw, localFile? raw = none ↔ IsForeign raw ∨ raw.takeWhile (· ≠ '#') = []) ∧
    (∀ (t : Task) (target : String), interpolate (options.value? t.declared) t.directive.target = .ok target →
      IsForeign target.toList →
      ((∀ locate, t.import? ⟨fs, locate, options⟩ = .ok none) ↔
        (IsData target.toList → isPlainCss target.toList t.directive.options = true)) ∧
      ∀ locate, IsData target.toList → isPlainCss target.toList t.directive.options = false →
        t.import? ⟨fs, locate, options⟩ = t.sought ⟨fs, locate, options⟩ target) ∧
    (∀ (s : Setting) (t : Task), t.import? s = .ok none → ∀ (st : State) (front rest : List Task),
      run s st (front ++ t :: rest) = run s st (front ++ rest)) ∧
    ∀ locate locate' : Locator, (∀ directory candidate search, isRemote candidate.toList = false →
        locate' directory candidate search = locate directory candidate search) →
      ∀ (text : List Char) (root : Path), processor fs locate' text root options = processor fs locate text root options := by
  refine ⟨fun _ => localFile?_eq_none_iff, fun t target htarget hforeign => ⟨?_, fun locate hdata hcss => ?_⟩,
    fun s t h st front rest => run_skip h, fun _ _ => processor_congr_of_local hplugins⟩
  · rw [Task.left_alone_iff hplugins htarget, Bool.or_eq_true]
    constructor
    · rintro (hremote | hcss) hdata
      · exact absurd hdata (not_isData_of_isRemote hremote)
      · exact hcss
    · intro h
      exact (isForeign_iff.1 hforeign).imp_right h
  · have hhere : isRemote target.toList = false := Bool.eq_false_iff.2 fun hremote => not_isData_of_isRemote hremote hdata
    rw [Task.import?_eq (s := ⟨fs, locate, options⟩) hplugins htarget, hhere, hcss]
    rfl

/-- A directive of `main.less`, which declares nothing. -/
def foreignTask (target : String) (options : ImportOptions) : Task :=
  ⟨.ofString "main.less", .empty, ⟨target, options, 1⟩⟩

/-- An import from another machine is left alone even if it is to be taken as it is; an import of data is not. -/
theorem foreign_left_alone_data :
    (∀ locate, (foreignTask "HTTPS://a/b.less" { isInline := true }).import? ⟨circular.system, locate, {}⟩ = .ok none) ∧
      ¬ (∀ locate, (foreignTask "data:text/css,a" {}).import? ⟨circular.system, locate, {}⟩ = .ok none) ∧
      ∀ text root, processor circular.system (fun base candidate _ => if isRemote candidate.toList then .ok base
          else .error (.notFound candidate [])) text root {} =
        processor circular.system (fun _ candidate _ => .error (.notFound candidate [])) text root {} := by
  obtain ⟨-, htask, -, hprocessor⟩ := foreign_left_alone (show RenderOptions.plugins {} = [] from rfl) circular.system
  have hhttps : IsForeign "HTTPS://a/b.less".toList := isForeign_iff.2 (.inl (by decide))
  have hdata : IsData "data:text/css,a".toList := ⟨"text/css,a".toList, by decide⟩
  have hforeign : IsForeign "data:text/css,a".toList := .inr (.inr (.inr hdata))
  refine ⟨?_, fun h => ?_, hprocessor _ _ fun directory candidate search hhere => ?_⟩
  · refine (htask (foreignTask "HTTPS://a/b.less" { isInline := true }) "HTTPS://a/b.less" (by cbv) hhttps).1.2 fun h => ?_
    exact absurd h (not_isData_of_isRemote (by decide))
  · have hcss := (htask (foreignTask "data:text/css,a" {}) "data:text/css,a" (by cbv) hforeign).1.1 h hdata
    exact absurd hcss (by decide)
  · rw [hhere]
    rfl

end Expansion

end StyleTrack
