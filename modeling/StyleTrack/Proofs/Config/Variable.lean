/-
Variables of a configuration, whose names may be written with `@` in front or without.

Of the names that are the same without `@`, the greatest one gives the value, and a name is asked for with or without
`@` alike. The lookup of an import target takes its name as it stands; where the file declares nothing, it finds what
is found for that name among the options.
-/
import StyleTrack.Config.Basic
import StyleTrack.Source.Variable
import StyleTrack.Proofs.Map.Entries
import StyleTrack.Proofs.Text.Blank
import Mathlib.Data.List.TakeWhile
import Mathlib.Data.String.Basic

namespace StyleTrack

/-! ## Keys that are renamed -/

namespace SortedMap

variable {κ κ' ν : Type} [Ord κ] [Ord κ'] [Std.TransOrd κ'] [Std.LawfulEqOrd κ']

/-- A map whose keys are renamed answers with the value of the greatest of the keys that get the name. -/
theorem get?_ofList_map_eq_some_iff [Std.TransOrd κ] (m : SortedMap κ ν) (rename : κ → κ') {k : κ'} {v : ν} :
    (ofList (m.entries.map fun e => (rename e.1, e.2))).get? k = some v ↔
      ∃ key, (key, v) ∈ m.entries ∧ rename key = k ∧ ∀ e ∈ m.entries, rename e.1 = k → compare e.1 key ≠ .gt := by
  rw [← List.filterMap_eq_map, get?_ofList_filterMap_eq_some_iff]
  constructor
  · rintro ⟨front, ⟨key, v'⟩, back, hsplit, hkey, hback⟩
    cases hkey
    have hsorted := m.sorted
    rw [hsplit] at hsorted ⊢
    obtain ⟨-, -, hbefore⟩ := List.pairwise_append.1 hsorted
    refine ⟨key, by simp, rfl, fun e he hname => ?_⟩
    rcases List.mem_append.1 he with he | he
    · simp [hbefore e he _ List.mem_cons_self]
    · rcases List.mem_cons.1 he with rfl | he
      · simp [Std.ReflCmp.compare_self]
      · exact absurd (congrArg (fun name => some (name, e.2)) hname) (hback e he e.2)
  · rintro ⟨key, hmem, rfl, hgreatest⟩
    obtain ⟨front, back, hsplit⟩ := List.append_of_mem hmem
    refine ⟨front, (key, v), back, hsplit, rfl, fun e he w hname => ?_⟩
    have hsorted := m.sorted
    rw [hsplit] at hsorted hgreatest
    obtain ⟨-, hbehind, -⟩ := List.pairwise_append.1 hsorted
    refine hgreatest e (by simp [he]) (congrArg Prod.fst (Option.some.inj hname)) ?_
    exact Std.OrientedCmp.gt_of_lt ((List.pairwise_cons.1 hbehind).1 e he)

theorem get?_ofList_map_eq_none_iff (m : SortedMap κ ν) (rename : κ → κ') {k : κ'} :
    (ofList (m.entries.map fun e => (rename e.1, e.2))).get? k = none ↔ ∀ e ∈ m.entries, rename e.1 ≠ k := by
  constructor
  · rintro hnone e he rfl
    obtain ⟨v, hv⟩ := exists_get?_ofList (List.mem_map_of_mem (f := fun e => (rename e.1, e.2)) he)
    cases hnone.symm.trans hv
  · intro hall
    cases hget : (ofList (m.entries.map fun e => (rename e.1, e.2))).get? k with
    | none => rfl
    | some v =>
      obtain ⟨k', hmem, hk⟩ := exists_mem_of_get?_ofList hget
      obtain ⟨e, he, heq⟩ := List.mem_map.1 hmem
      cases heq
      exact absurd (Std.LawfulEqOrd.eq_of_compare hk).symm (hall e he)

end SortedMap

/-! ## Names with and without `@` -/

/-- Whether a key is a name with any number of `@` in front. -/
def Spells (key name : String) : Prop := ∃ n, key.toList = List.replicate n '@' ++ name.toList

/-- The value that variables give to a name: that of the greatest key that spells it. -/
def Gives (vars : SortedMap String String) (name value : String) : Prop :=
  ∃ key, (key, value) ∈ vars.entries ∧ Spells key name ∧ ∀ e ∈ vars.entries, Spells e.1 name → e.1 ≤ key

/-- A key is stripped to a name if it spells the name, and to no other name. -/
theorem bareName_eq_iff {key name : String} (hbare : name.toList.head? ≠ some '@') :
    bareName key = name ↔ Spells key name := by
  constructor
  · rintro rfl
    refine ⟨(key.toList.takeWhile (· = '@')).length, ?_⟩
    have hsigils : key.toList.takeWhile (· = '@') = List.replicate (key.toList.takeWhile (· = '@')).length '@' :=
      List.eq_replicate_of_mem fun c hc => by simpa using List.mem_takeWhile_imp hc
    rw [← hsigils, bareName, String.toList_ofList, List.takeWhile_append_dropWhile]
  · rintro ⟨n, hkey⟩
    have hhead : ∀ c ∈ name.toList.head?, decide (c = '@') = false := fun c hc =>
      decide_eq_false fun heq => hbare (heq ▸ hc)
    rw [bareName, hkey, Text.dropWhile_append_of_head? (by simp) hhead, String.ofList_toList]

theorem get?_bareVariables_eq_some_iff {vars : SortedMap String String} {name value : String}
    (hbare : name.toList.head? ≠ some '@') : (bareVariables vars).get? name = some value ↔ Gives vars name value := by
  rw [bareVariables, SortedMap.get?_ofList_map_eq_some_iff]
  simp only [bareName_eq_iff hbare, Gives, ne_eq, compare_gt_iff_gt, not_lt]

theorem get?_bareVariables_eq_none_iff {vars : SortedMap String String} {name : String}
    (hbare : name.toList.head? ≠ some '@') :
    (bareVariables vars).get? name = none ↔ ∀ e ∈ vars.entries, ¬ Spells e.1 name := by
  rw [bareVariables, SortedMap.get?_ofList_map_eq_none_iff]
  simp only [ne_eq, bareName_eq_iff hbare]

/-! ## Lookups -/

theorem injected?_of_spelling (o : RenderOptions) {asked name : String} (hbare : name.toList.head? ≠ some '@')
    (hasked : Spells asked name) : o.injected? asked = (o.modifyVars.get? name).or (o.globalVars.get? name) := by
  have hkey : String.ofList (asked.toList.dropWhile (· = '@')) = name := (bareName_eq_iff hbare).2 hasked
  rw [RenderOptions.injected?, hkey]
  exact Option.or_eq_orElse.symm

/-- A file that declares nothing leaves the options to answer. -/
theorem value?_of_declares_nothing (o : RenderOptions) {text : List Char} (h : Source.declarations 0 true text = [])
    (name : String) :
    o.value? (Source.Variables.ofText text) name = (o.modifyVars.get? name).or (o.globalVars.get? name) := by
  rw [RenderOptions.value?, Source.Variables.ofText, h]
  exact Option.or_eq_orElse.symm

/-- A variable that is asked for with any number of `@` in front has the value of the greatest key among those that
count after a file which is its name without `@`, or else among those that count before a file, and if there is none,
it has no value. The lookup of an import target finds the same under the name itself, where the file that holds the
target declares nothing. -/
theorem ResolverConfig.variable_of_spelling (r : ResolverConfig) {asked name : String}
    (hbare : name.toList.head? ≠ some '@') (hasked : Spells asked name) :
    (∀ value, r.renderOptions.injected? asked = some value ↔
      Gives r.modifyVars name value ∨
        (∀ e ∈ r.modifyVars.entries, ¬ Spells e.1 name) ∧ Gives r.globalVars name value) ∧
    (r.renderOptions.injected? asked = none ↔
      (∀ e ∈ r.modifyVars.entries, ¬ Spells e.1 name) ∧ ∀ e ∈ r.globalVars.entries, ¬ Spells e.1 name) ∧
    ∀ text, Source.declarations 0 true text = [] →
      r.renderOptions.value? (Source.Variables.ofText text) name = r.renderOptions.injected? asked := by
  have hinjected : r.renderOptions.injected? asked =
      ((bareVariables r.modifyVars).get? name).or ((bareVariables r.globalVars).get? name) :=
    injected?_of_spelling r.renderOptions hbare hasked
  refine ⟨fun value => ?_, ?_, fun text htext => ?_⟩
  · rw [hinjected, Option.or_eq_some_iff, get?_bareVariables_eq_some_iff hbare, get?_bareVariables_eq_none_iff hbare,
      get?_bareVariables_eq_some_iff hbare]
  · rw [hinjected, Option.or_eq_none_iff, get?_bareVariables_eq_none_iff hbare, get?_bareVariables_eq_none_iff hbare]
  · rw [value?_of_declares_nothing _ htext, hinjected]
    rfl

/-- Variables whose keys are the same without `@`, among those that count before a file and among those that count
after it. -/
def crossed : ResolverConfig where
  globalVars := .ofList [("@base", "1px"), ("base", "2px"), ("width", "3px")]
  modifyVars := .ofList [("@@width", "4px"), ("@width", "5px")]

/-- The key `width` is greater, but stands among the variables that a file can declare anew. -/
theorem ResolverConfig.variable_of_spelling_crossed :
    "width".toList.head? ≠ some '@' ∧ Spells "@width" "width" ∧ "base".toList.head? ≠ some '@' ∧ Spells "@@base" "base" ∧
    Source.declarations 0 true ".a { @width: 1px }".toList = [] ∧
    crossed.renderOptions.injected? "@width" = some "5px" ∧
    crossed.renderOptions.value? (Source.Variables.ofText ".a { @width: 1px }".toList) "width" = some "5px" ∧
    crossed.renderOptions.injected? "@@base" = some "2px" := by
  have hbare : "width".toList.head? ≠ some '@' := by decide
  have hspells : Spells "@width" "width" := ⟨1, by decide⟩
  have hbase : "base".toList.head? ≠ some '@' := by decide
  have hspellsBase : Spells "@@base" "base" := ⟨2, by decide⟩
  have htext : Source.declarations 0 true ".a { @width: 1px }".toList = [] := by cbv
  have hmodify : crossed.modifyVars.entries = [("@@width", "4px"), ("@width", "5px")] := rfl
  have hglobal : crossed.globalVars.entries = [("@base", "1px"), ("base", "2px"), ("width", "3px")] := rfl
  have hnone : ∀ e ∈ crossed.modifyVars.entries, ¬ Spells e.1 "base" := by
    simp only [hmodify, ← bareName_eq_iff hbase]
    decide
  have hwidth : Gives crossed.modifyVars "width" "5px" := by
    rw [Gives, hmodify]
    have hle : ∀ e ∈ [("@@width", "4px"), ("@width", "5px")], e.1 ≤ "@width" := by decide
    exact ⟨"@width", by simp, hspells, fun e he _ => hle e he⟩
  have hdefault : Gives crossed.globalVars "base" "2px" := by
    simp only [Gives, hglobal, ← bareName_eq_iff hbase]
    have hle : ∀ e ∈ [("@base", "1px"), ("base", "2px"), ("width", "3px")], bareName e.1 = "base" → e.1 ≤ "base" := by
      decide
    exact ⟨"base", by simp, by decide, hle⟩
  obtain ⟨hsome, -, hlookup⟩ := crossed.variable_of_spelling hbare hspells
  have hfound := (hsome "5px").2 (.inl hwidth)
  refine ⟨hbare, hspells, hbase, hspellsBase, htext, hfound, (hlookup _ htext).trans hfound, ?_⟩
  exact ((crossed.variable_of_spelling hbase hspellsBase).1 "2px").2 (.inr ⟨hnone, hdefault⟩)

end StyleTrack
