/-
Walks that come back to their root. What is imported is spelled cleanly, so no file is reported in two spellings. The
root alone is taken as it is given: an import that leads back to it is the same path only where the root has the
components of its cleaned spelling. Where it has others, such an import is reported, and unless it is taken as it is,
the root is a unit twice.
-/
import StyleTrack.Proofs.Import.Spelling

namespace StyleTrack.Expansion

variable {fs : FileSystem} {options : RenderOptions} {root : Path} {text : List Char}

/-! ## What is reported once -/

/-- Whether no two imports are the same path and the units are the root and then imports, in their order. -/
structure Once (root : Path) (text : List Char) (st : State) : Prop where
  imports : st.imports.Pairwise fun p q => p.components ≠ q.components
  units : ∃ opened, st.sources = ⟨root, text⟩ :: opened ∧ (opened.map (·.path)).Sublist st.imports

namespace Once

variable {st : State} {p : Path}

theorem start (root : Path) (text : List Char) : Once root text (.start root text) :=
  ⟨.nil, [], rfl, .slnil⟩

theorem visit (h : Once root text st) (hnew : ∀ q ∈ st.imports, q.components ≠ p.components) :
    Once root text (st.visit p) := by
  obtain ⟨opened, hsources, hsub⟩ := h.units
  refine ⟨List.pairwise_append.2 ⟨h.imports, List.pairwise_singleton _ _, fun q hq r hr => ?_⟩, opened, hsources,
    hsub.trans (List.sublist_append_left _ _)⟩
  rw [List.mem_singleton.1 hr]
  exact hnew q hq

theorem opened (h : Once root text st) (hnew : ∀ q ∈ st.imports, q.components ≠ p.components) (content : List Char) :
    Once root text ((st.visit p).opened p content) := by
  obtain ⟨opened, hsources, hsub⟩ := h.units
  refine ⟨(h.visit hnew).imports, opened ++ [⟨p, content⟩], ?_, ?_⟩
  · show st.sources ++ [⟨p, content⟩] = _
    rw [hsources, List.cons_append]
  · rw [List.map_append]
    exact hsub.append (.refl [p])

theorem step {s : Setting} {c c' : Config} (h : Once root text c.1) (hc : Walked s root text c) (hstep : Step s c c') :
    Once root text c'.1 := by
  have hmet : ∀ p : Path, p.components ∉ c.1.visited → ∀ q ∈ c.1.imports, q.components ≠ p.components :=
    fun p hnew q hq heq => hnew ((hc.met _).2 (.inr ⟨q, hq, heq⟩))
  cases hstep with
  | left => exact h
  | known => exact h
  | inline himport hnew hinline => exact h.visit (hmet _ hnew)
  | opened himport hnew hinline hread htext htasks => exact h.opened (hmet _ hnew) _

end Once

theorem exists_once_of_processor {locate : Locator} {r : Processed} (h : processor fs locate text root options = .ok r) :
    ∃ st, Walked ⟨fs, locate, options⟩ root text (st, []) ∧ Once root text st ∧ r = ⟨st.imports, st.sources⟩ := by
  obtain ⟨tasks, st, htasks, hrun, hr⟩ := processor_eq_ok_iff.1 h
  have hboth := invariant_of_steps (I := fun c => Walked ⟨fs, locate, options⟩ root text c ∧ Once root text c.1)
    (fun _ _ hc hstep => ⟨hc.1.step hstep, hc.2.step hc.1 hstep⟩) hrun ⟨walked_start htasks, .start root text⟩
  exact ⟨st, hboth.1, hboth.2, hr⟩

/-! ## Without plugins -/

section Clean

variable (hplugins : options.plugins = []) {st : State}
include hplugins

theorem Task.clean_of_import? {t : Task} {p : Path} (h : t.import? (.searching fs options) = .ok (some p)) :
    p.clean = p := by
  obtain ⟨q, rfl⟩ := Task.exists_clean_of_import? hplugins h
  exact Path.clean_clean q

theorem Walked.clean_of_mem_imports (h : Walked (.searching fs options) root text (st, [])) {p : Path}
    (hp : p ∈ st.imports) : p.clean = p := by
  obtain ⟨-, t, -, himport, -⟩ := h.origin p hp
  exact Task.clean_of_import? hplugins himport

theorem Walked.pairwise_clean (h : Walked (.searching fs options) root text (st, [])) (honce : Once root text st) :
    (st.imports.map Path.clean).Nodup := by
  rw [List.map_congr_left fun p hp => h.clean_of_mem_imports hplugins hp, List.map_id']
  exact honce.imports.imp fun hne heq => hne (congrArg Path.components heq)

/-- No import is cleaned to the cleaned root if the root is spelled like that or nothing leads there, and only then. -/
theorem Walked.clean_ne_iff (h : Walked (.searching fs options) root text (st, [])) :
    (∀ p ∈ st.imports, p.clean ≠ root.clean) ↔
      root.components = root.clean.components ∨ Avoids (.searching fs options) st.sources root.clean := by
  constructor
  · intro hne
    by_contra hno
    obtain ⟨hspelled, havoid⟩ := not_or.1 hno
    refine havoid fun t p ht himport hsame => ?_
    -- the path was met, as the root or as an import
    have hmet : p.components ∈ st.visited := by
      rcases h.settled t ht with hleft | hnone | ⟨q, hq, hmet⟩
      · cases hleft
      · rw [himport] at hnone
        cases hnone
      · rw [himport] at hq
        cases hq
        exact hmet
    rcases (h.met _).1 hmet with hroot | ⟨q, hq, hpq⟩
    · exact hspelled (hroot.symm.trans hsame)
    · refine hne q hq ?_
      rw [Path.clean_congr (hpq.trans hsame), Path.clean_clean]
  · rintro hwhy p hp heq
    obtain ⟨hroot, t, ht, himport, -⟩ := h.origin p hp
    rw [Task.clean_of_import? hplugins himport] at heq
    rcases hwhy with hspelled | havoid
    · exact hroot (by rw [heq, hspelled])
    · exact havoid t p ht himport (by rw [heq])

theorem Walked.units_nodup (h : Walked (.searching fs options) root text (st, [])) (honce : Once root text st)
    (hne : ∀ p ∈ st.imports, p.clean ≠ root.clean) : (st.sources.map fun u => u.path.clean).Nodup := by
  obtain ⟨opened, hsources, hsub⟩ := honce.units
  have hopened : (opened.map fun u => u.path.clean) = (opened.map (·.path)).map Path.clean := by
    rw [List.map_map]
    rfl
  rw [hsources, List.map_cons, hopened]
  refine List.nodup_cons.2 ⟨fun hmem => ?_, (h.pairwise_clean hplugins honce).sublist (hsub.map _)⟩
  obtain ⟨p, hp, heq⟩ := List.mem_map.1 hmem
  exact hne p (hsub.subset hp) heq

/-- Which files a walk reports twice. No two imports are spellings of one path, and the units are the root and then
imports. So no file has two units and the root is not imported exactly if the root has the components of its cleaned
spelling or no directive of a unit leads back to it. -/
theorem processor_returns {r : Processed} (h : processor fs (.searching fs) text root options = .ok r) :
    (r.imports.map Path.clean).Nodup ∧
    (∃ opened, r.sources = ⟨root, text⟩ :: opened ∧ (opened.map (·.path)).Sublist r.imports) ∧
    ((r.sources.map fun u => u.path.clean).Nodup ∧ (∀ p ∈ r.imports, p.clean ≠ root.clean) ↔
      root.components = root.clean.components ∨ Avoids (.searching fs options) r.sources root.clean) := by
  obtain ⟨st, hwalked, honce, rfl⟩ := exists_once_of_processor h
  refine ⟨hwalked.pairwise_clean hplugins honce, honce.units, ?_⟩
  rw [← hwalked.clean_ne_iff hplugins]
  exact ⟨And.right, fun hne => ⟨hwalked.units_nodup hplugins honce hne, hne⟩⟩

end Clean

/-- A style sheet that imports itself. -/
def mirror : String := "@import \"main\";"

def mirrored : FileTree := ⟨.ofList [(.ofString "main.less", ⟨Text.Utf8.ofString mirror, ⟨100, 0⟩⟩)], []⟩

/-- As `main.less` it is met once, as `./main.less` it is a unit twice. -/
theorem processor_returns_mirrored :
    (∃ r, processor mirrored.system (.searching mirrored.system) mirror.toList (.ofString "main.less") {} = .ok r ∧
      (r.sources.map fun u => u.path.clean).Nodup ∧ ∀ p ∈ r.imports, p.clean ≠ (Path.ofString "main.less").clean) ∧
    ∃ r, processor mirrored.system (.searching mirrored.system) mirror.toList (.ofString "./main.less") {} = .ok r ∧
      r.imports = [.ofString "main.less"] ∧
      r.sources.map (·.path) = [.ofString "./main.less", .ofString "main.less"] ∧
      ¬ Avoids (.searching mirrored.system {}) r.sources (Path.ofString "./main.less").clean := by
  constructor
  · have h : processor mirrored.system (.searching mirrored.system) mirror.toList (.ofString "main.less") {} =
        .ok ⟨[], [⟨.ofString "main.less", mirror.toList⟩]⟩ := by cbv
    exact ⟨_, h, (processor_returns rfl h).2.2.2 (.inl (by cbv))⟩
  · have h : processor mirrored.system (.searching mirrored.system) mirror.toList (.ofString "./main.less") {} =
        .ok ⟨[.ofString "main.less"],
          [⟨.ofString "./main.less", mirror.toList⟩, ⟨.ofString "main.less", mirror.toList⟩]⟩ := by cbv
    refine ⟨_, h, rfl, rfl, fun havoid => ?_⟩
    have hclean : (Path.ofString "main.less").clean = (Path.ofString "./main.less").clean := by cbv
    exact ((processor_returns rfl h).2.2.2 (.inr havoid)).2 _ List.mem_cons_self hclean

end StyleTrack.Expansion
