/-
A listing as an agenda that is worked off from the front.

The units of a style sheet, one after the other, determine what has to be done: a unit whose calls can be scanned
asks for every literal local file that it embeds, and a unit with a malformed call is one thing that cannot be done.
A listing succeeds if everything on the agenda can be done. Else it stops at the first thing that cannot, after
exactly the questions up to there.
-/
import StyleTrack.File.Tree
import StyleTrack.Proofs.Import.Listing
import Mathlib

namespace StyleTrack

open StyleTrack.Source

/-! ## Traced programs in sequence -/

namespace Traced

theorem append_empty (t : Trace) : t ++ {} = t := by
  show (⟨t.lookups ++ [], t.diagnostics ++ []⟩ : Trace) = t
  rw [List.append_nil, List.append_nil]

theorem append_assoc (s t u : Trace) : s ++ t ++ u = s ++ (t ++ u) := by
  show (⟨s.lookups ++ t.lookups ++ u.lookups, s.diagnostics ++ t.diagnostics ++ u.diagnostics⟩ : Trace) =
    ⟨s.lookups ++ (t.lookups ++ u.lookups), s.diagnostics ++ (t.diagnostics ++ u.diagnostics)⟩
  rw [List.append_assoc, List.append_assoc]

theorem lift_ok {α : Type} (a : α) : lift (.ok a) = pure a := rfl

instance : LawfulMonad Traced := LawfulMonad.mk' Traced
  (fun ⟨result, trace⟩ => by
    cases result with
    | error e => rfl
    | ok a => exact congrArg (Traced.mk _) (append_empty trace))
  (fun a f => rfl)
  (fun ⟨result, trace⟩ f g => by
    cases result with
    | error e => rfl
    | ok a =>
      show (⟨(f a).result, trace ++ (f a).trace⟩ : Traced _) >>= g =
        ⟨(f a >>= g).result, trace ++ (f a >>= g).trace⟩
      rcases f a with ⟨inner, steps⟩
      cases inner with
      | error e => rfl
      | ok b => exact congrArg (Traced.mk _) (append_assoc trace steps _))

end Traced

/-! ## Paths where they stand first -/

/-- The paths that are the same as no path in front of them. -/
def firsts (paths : List Path) : List Path :=
  (paths.zipIdx.filter fun e => !(paths.take e.2).any (·.same e.1)).map (·.1)

theorem firsts_concat (l : List Path) (p : Path) :
    firsts (l ++ [p]) = if ∃ q ∈ l, q.components = p.components then firsts l else firsts l ++ [p] := by
  have hfront : (l.zipIdx.filter fun e => !((l ++ [p]).take e.2).any (·.same e.1)) =
      l.zipIdx.filter fun e => !(l.take e.2).any (·.same e.1) := by
    refine List.filter_congr fun e he => ?_
    have hlt : e.2 < l.length := by simpa using (List.mem_zipIdx' he).1
    rw [List.take_append_of_le_length (Nat.le_of_lt hlt)]
  unfold firsts
  rw [List.zipIdx_append, List.filter_append, hfront, List.map_append]
  have hlast : ((l ++ [p]).take l.length).any (·.same p) = decide (∃ q ∈ l, q.components = p.components) := by
    rw [List.take_left, Bool.eq_iff_iff, List.any_eq_true, decide_eq_true_eq]
    simp only [Path.same, decide_eq_true_eq]
  simp only [List.zipIdx_singleton, Nat.zero_add, List.filter_singleton, hlast]
  by_cases h : ∃ q ∈ l, q.components = p.components
  · rw [if_pos h]
    simp [h]
  · rw [if_neg h]
    simp [h]

theorem distinct_eq_firsts (l : List Path) : distinct l = firsts l := by
  induction l using List.reverseRecOn with
  | nil => rfl
  | append_singleton l p ih => rw [distinct_concat, firsts_concat, ih]

/-! ## The agenda -/

namespace Lister

/-- Something that is to be done for a listing. -/
inductive Item where
  /-- A unit has a malformed call. -/
  | malformed (file : Path) (call : MalformedCall)
  /-- A file is to be located. -/
  | locate (question : Lookup)

/-- The questions to the locator. -/
def Item.lookups : Item → List Lookup
  | malformed .. => []
  | locate question => [question]

/-- What a unit puts on the agenda. -/
def itemsOf (search : List Path) (unit : SourceUnit) : List Item :=
  match Source.Reference.scan unit.text with
  | .error call => [.malformed unit.path call]
  | .ok references => (references.filterMap (·.local?)).map fun candidate =>
      .locate ⟨if (Path.ofString candidate).isAbsolute then .empty else unit.path.directory, candidate, search⟩

variable (l : Lister) (root : Path)

/-- How something on the agenda ends: with a path and whether it exists, or with the failure of the listing. -/
def settle : Item → Except ImportError (Path × Bool)
  | .malformed file call => .error (.processing root (.malformedReference file call))
  | .locate question =>
    match l.locate question.base question.candidate question.search with
    | .error cause => .error (.processing root (.resolution cause))
    | .ok path =>
      match l.fs.contains path with
      | .error fault => .error (.io fault)
      | .ok isThere => .ok (path, isThere)

/-- What is done for something on the agenda. -/
def perform (i : Item) : Traced (Option Path) :=
  match settle l root i with
  | .error e => ⟨.error e, ⟨i.lookups, []⟩⟩
  | .ok (path, isThere) =>
    ⟨.ok (if isThere then some path else none), ⟨i.lookups, if isThere then [] else [.importNotFound path]⟩⟩

variable {l root} in
theorem perform_of_error {i : Item} {e : ImportError} (h : settle l root i = .error e) :
    perform l root i = ⟨.error e, ⟨i.lookups, []⟩⟩ := by
  rw [perform, h]

variable {l root} in
theorem perform_of_ok {i : Item} {path : Path} {isThere : Bool} (h : settle l root i = .ok (path, isThere)) :
    perform l root i = ⟨.ok (if isThere then some path else none),
      ⟨i.lookups, if isThere then [] else [.importNotFound path]⟩⟩ := by
  rw [perform, h]

theorem resource_eq (file : Path) (search : List Path) (candidate : String) :
    l.resource root file search candidate = perform l root (.locate ⟨baseOf file candidate, candidate, search⟩) := by
  unfold resource perform settle
  dsimp only
  cases l.locate (baseOf file candidate) candidate search with
  | error cause => rfl
  | ok path =>
    simp only [Except.mapError, Traced.lift_ok, pure_bind]
    cases l.fs.contains path with
    | error fault => rfl
    | ok isThere => cases isThere <;> rfl

theorem resources_eq (search : List Path) (u : SourceUnit) : l.resources root search u =
    (do let found ← (itemsOf search u).mapM (perform l root); return found.filterMap id) := by
  unfold resources itemsOf
  cases Source.Reference.scan u.text with
  | error call => rfl
  | ok references =>
    dsimp only
    rw [List.mapM_map]
    exact congrArg (fun f => (references.filterMap (·.local?)).mapM f >>= fun found => pure (found.filterMap id))
      (funext fun candidate => resource_eq l root u.path search candidate)

theorem mapM_resources (search : List Path) (units : List SourceUnit) :
    (do let embedded ← units.mapM (l.resources root search); return embedded.flatten) =
      (do let found ← (units.flatMap (itemsOf search)).mapM (perform l root); return found.filterMap id) := by
  induction units with
  | nil => rfl
  | cons u units ih =>
    rw [List.mapM_cons, List.flatMap_cons, List.mapM_append, resources_eq]
    simp only [bind_assoc, pure_bind]
    congr 1
    funext first
    calc (do let embedded ← units.mapM (l.resources root search); return (first.filterMap id :: embedded).flatten)
        = (do
            let rest ← (do let embedded ← units.mapM (l.resources root search); return embedded.flatten)
            return first.filterMap id ++ rest) := by simp only [bind_assoc, pure_bind, List.flatten_cons]
      _ = _ := by simp only [ih, bind_assoc, pure_bind, List.filterMap_append]

/-! ## Working it off -/

/-- The paths that exist, of paths that were located. -/
def present (found : List (Path × Bool)) : List Path := (found.filter (·.2)).map (·.1)

/-- A diagnostic for each path that does not exist. -/
def reports (found : List (Path × Bool)) : List Diagnostic :=
  (found.filter fun x => !x.2).map fun x => .importNotFound x.1

theorem present_append (a b : List (Path × Bool)) : present (a ++ b) = present a ++ present b := by
  simp [present]

theorem reports_append (a b : List (Path × Bool)) : reports (a ++ b) = reports a ++ reports b := by
  simp [reports]

/-- Does everything on an agenda. -/
def workOff (items : List Item) : Traced (List Path) := do
  let found ← items.mapM (perform l root)
  return found.filterMap id

theorem workOff_cons (i : Item) (items : List Item) : workOff l root (i :: items) =
    match settle l root i with
    | .error e => ⟨.error e, ⟨i.lookups, []⟩⟩
    | .ok x => ⟨(workOff l root items).result.map (present [x] ++ ·),
        ⟨i.lookups, reports [x]⟩ ++ (workOff l root items).trace⟩ := by
  unfold workOff
  rw [List.mapM_cons]
  simp only [bind_assoc, pure_bind]
  cases hi : settle l root i with
  | error e =>
    rw [perform_of_error hi]
    rfl
  | ok x =>
    obtain ⟨path, isThere⟩ := x
    rw [perform_of_ok hi]
    generalize items.mapM (perform l root) = worked
    obtain ⟨result, trace⟩ := worked
    cases isThere <;> cases result <;> rfl

variable {l root} in
/-- What can be done is done before the rest. -/
theorem workOff_append_of_settled {done rest : List Item} {found : List (Path × Bool)}
    (h : List.Forall₂ (fun i x => settle l root i = .ok x) done found) : workOff l root (done ++ rest) =
      ⟨(workOff l root rest).result.map (present found ++ ·),
        ⟨done.flatMap Item.lookups, reports found⟩ ++ (workOff l root rest).trace⟩ := by
  induction h with
  | nil =>
    rw [List.nil_append]
    generalize workOff l root rest = worked
    obtain ⟨result, trace⟩ := worked
    cases result <;> rfl
  | @cons i x done found hi _ ih =>
    rw [List.cons_append, workOff_cons, hi, ih]
    rw [← List.singleton_append, present_append, reports_append, List.flatMap_cons]
    dsimp only
    rw [← Traced.append_assoc]
    cases (workOff l root rest).result with
    | error e => rfl
    | ok paths => simp only [Except.map, List.append_assoc]; rfl

theorem exists_settled (items : List Item) : ∃ done found rest, items = done ++ rest ∧
    List.Forall₂ (fun i x => settle l root i = .ok x) done found ∧
    ∀ i ∈ rest.head?, ∃ e, settle l root i = .error e := by
  induction items with
  | nil => exact ⟨[], [], [], rfl, .nil, by simp⟩
  | cons i items ih =>
    cases hi : settle l root i with
    | error e => exact ⟨[], [], i :: items, rfl, .nil, by simp [hi]⟩
    | ok x =>
      obtain ⟨done, found, rest, rfl, hdone, hrest⟩ := ih
      exact ⟨i :: done, x :: found, rest, rfl, .cons hi hdone, hrest⟩

theorem listWith_eq_workOff {options : RenderOptions} {contents : Contents} {text : List Char} {r : Processed}
    (htext : contents.text = .ok text) (hne : text ≠ []) (hprocessed : l.processor text root options = .ok r) :
    l.listWith options (some ⟨some root, some contents⟩) =
      workOff l root ((units root text r).flatMap (itemsOf options.paths)) >>= fun paths =>
        pure (distinct (r.imports ++ paths)) := by
  unfold listWith
  dsimp only
  rw [htext]
  simp only [Except.mapError, Traced.lift_ok, pure_bind, if_neg hne]
  unfold listText workOff
  rw [hprocessed]
  simp only [Except.mapError, Traced.lift_ok, pure_bind]
  rw [← mapM_resources]
  simp only [bind_assoc, pure_bind]
  rfl

/-- A listing with a processor that answers works off the agenda of the units from the front. The questions are
those of everything that could be done and of the first thing that could not, and there is a diagnostic for each
path that could be located and does not exist. The listing has the failure of that first thing, and if there is
none, it has the imports and the paths that exist, each where it stands first. -/
theorem listWith_agenda {options : RenderOptions} {contents : Contents} {text : List Char} {r : Processed}
    (htext : contents.text = .ok text) (hne : text ≠ []) (hprocessed : l.processor text root options = .ok r) :
    ∃ done found rest, (units root text r).flatMap (itemsOf options.paths) = done ++ rest ∧
      List.Forall₂ (fun i x => settle l root i = .ok x) done found ∧
      match rest with
      | [] => l.listWith options (some ⟨some root, some contents⟩) =
          ⟨.ok (firsts (r.imports ++ present found)), ⟨done.flatMap Item.lookups, reports found⟩⟩
      | i :: _ => ∃ e, settle l root i = .error e ∧ l.listWith options (some ⟨some root, some contents⟩) =
          ⟨.error e, ⟨(done ++ [i]).flatMap Item.lookups, reports found⟩⟩ := by
  obtain ⟨done, found, rest, hitems, hdone, hrest⟩ :=
    exists_settled l root ((units root text r).flatMap (itemsOf options.paths))
  refine ⟨done, found, rest, hitems, hdone, ?_⟩
  rw [listWith_eq_workOff l root htext hne hprocessed, hitems, workOff_append_of_settled hdone]
  cases rest with
  | nil =>
    have hnil : workOff l root [] = ⟨.ok [], {}⟩ := rfl
    rw [hnil, Traced.append_empty]
    show (⟨.ok (distinct (r.imports ++ (present found ++ []))), _ ++ {}⟩ : Traced _) = _
    rw [Traced.append_empty, List.append_nil, distinct_eq_firsts]
  | cons i rest =>
    obtain ⟨e, he⟩ := hrest i rfl
    refine ⟨e, he, ?_⟩
    rw [workOff_cons, he]
    show (⟨.error e, ⟨done.flatMap Item.lookups ++ i.lookups, reports found ++ []⟩⟩ : Traced _) = _
    rw [List.append_nil, List.flatMap_append, List.flatMap_singleton]

/-- A unit that embeds a file that exists and one that does not, and a unit with a malformed call. -/
def whole : SourceUnit := ⟨.ofString "s/main.less", "data-uri(x) data-uri(y)".toList⟩

def broken : SourceUnit := ⟨.ofString "s/part.less", "data-uri(z) data-uri()".toList⟩

/-- A lister that takes every candidate to lie beside the unit that embeds it. -/
def beside : Lister where
  processor _ _ _ := .ok ⟨[broken.path], [whole, broken]⟩
  locate base candidate _ := .ok (base.join (.ofString candidate))
  fs := FileTree.system ⟨.ofList [(.ofString "s/x", ⟨[], ⟨100, 0⟩⟩)], []⟩
  options := {}

/-- What cannot be done is the second unit, after both questions of the first. -/
theorem listWith_agenda_beside : (Contents.buffer (Text.Utf8.ofString "p")).text = .ok ['p'] ∧ ['p'] ≠ [] ∧
    beside.processor ['p'] whole.path {} = .ok ⟨[broken.path], [whole, broken]⟩ ∧
    ∃ done found i rest e, itemsOf [] whole ++ itemsOf [] broken = done ++ i :: rest ∧
      List.Forall₂ (fun i x => settle beside whole.path i = .ok x) done found ∧
      settle beside whole.path i = .error e ∧
      (done ++ [i]).flatMap Item.lookups = [⟨.ofString "s", "x", []⟩, ⟨.ofString "s", "y", []⟩] ∧
      reports found = [.importNotFound (.ofString "s/y")] ∧
      e = .processing whole.path (.malformedReference broken.path ⟨1, .arity 0⟩) := by
  have htext : (Contents.buffer (Text.Utf8.ofString "p")).text = .ok ['p'] := by cbv
  have hprocessed : beside.processor ['p'] whole.path {} = .ok ⟨[broken.path], [whole, broken]⟩ := rfl
  have hlisted : beside.listWith {} (some ⟨some whole.path, some (.buffer (Text.Utf8.ofString "p"))⟩) =
      ⟨.error (.processing whole.path (.malformedReference broken.path ⟨1, .arity 0⟩)),
        ⟨[⟨.ofString "s", "x", []⟩, ⟨.ofString "s", "y", []⟩],
          [.importNotFound (.ofString "s/y")]⟩⟩ := by cbv
  obtain ⟨done, found, rest, hitems, hdone, hrest⟩ :=
    listWith_agenda beside whole.path htext (by decide) hprocessed
  refine ⟨htext, by decide, hprocessed, done, found, ?_⟩
  cases rest with
  | nil =>
    rw [hlisted] at hrest
    cases (Traced.mk.inj hrest).1
  | cons i rest =>
    obtain ⟨e, he, hfailed⟩ := hrest
    rw [hlisted] at hfailed
    obtain ⟨hresult, htrace⟩ := Traced.mk.inj hfailed
    obtain ⟨hlookups, hreports⟩ := Trace.mk.inj htrace
    have hunits : (units whole.path ['p'] ⟨[broken.path], [whole, broken]⟩).flatMap (itemsOf []) =
        itemsOf [] whole ++ itemsOf [] broken := by
      rw [units, if_neg (by simp)]
      simp
    exact ⟨i, rest, e, hunits.symm.trans hitems, hdone, he, hlookups.symm, hreports.symm,
      (Except.error.inj hresult).symm⟩

end Lister

end StyleTrack
