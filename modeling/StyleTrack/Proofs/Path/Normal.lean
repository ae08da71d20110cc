/-
The normal form of paths. A path in normal form has no `.`, no empty segment and no separator at its end, and `..` only
where a relative path climbs above its start. These are the paths that are spelled from what folding leaves of a path,
so cleaning leaves exactly them as they are.
-/
import StyleTrack.Proofs.Path.Normalize

namespace StyleTrack.Path

open Component (slash dot)
open Text (intercalate_append notMem_of_mem_splitOn)
open Text.Utf8

variable {p : Path}

/-! ## Segments that nothing can be folded in -/

/-- Whether nothing can be folded in a path of these segments: it is the root, or names behind the root or a climb. -/
def Foldless {α : Type} (dot : α) (segments : List (List α)) : Prop :=
  segments = [[], []] ∨ ∃ front names, segments = front ++ names ∧ (front = [[]] ∨ ∀ s ∈ front, s = [dot, dot]) ∧
    ∀ s ∈ names, s ≠ [] ∧ s ≠ [dot] ∧ s ≠ [dot, dot]

namespace Remains

/-- The components behind the root. -/
def steps (r : Remains) : List Component := List.replicate r.climbs .parent ++ r.names.map .name

theorem inner_steps (r : Remains) : ∀ c ∈ r.steps, Inner c := by
  intro c hc
  rcases List.mem_append.1 hc with hc | hc
  · rw [List.eq_of_mem_replicate hc]
    trivial
  · obtain ⟨bytes, hbytes, rfl⟩ := List.mem_map.1 hc
    exact r.spelled bytes hbytes

theorem map_text_steps (r : Remains) : r.steps.map Component.text = List.replicate r.climbs [dot, dot] ++ r.names := by
  simp [steps, Component.text, Function.comp_def]

theorem ofComponents_components (r : Remains) :
    ofComponents r.components = ⟨(if r.rooted then [slash] else []) ++ joinComponents r.steps⟩ := by
  rw [components]
  cases r.rooted with
  | true => rfl
  | false => exact ofComponents_relative r.inner_steps

theorem components_ofComponents (r : Remains) : (ofComponents r.components).components = r.components := by
  rw [ofComponents_components, components]
  cases r.rooted with
  | true => exact components_ofComponents_absolute r.inner_steps
  | false => exact components_ofComponents_relative r.inner_steps

/-- What is left of a path is settled: its names stand on its climbs, or on the root. -/
theorem settled (r : Remains) : Settled r.components.reverse := by
  have hnames : ∀ (names : List (List UInt8)) {stack : List Component}, Settled stack →
      Settled ((names.map Component.name).reverse ++ stack) := by
    intro names
    induction names with
    | nil => exact fun h => h
    | cons bytes names ih =>
      intro stack h
      rw [List.map_cons, List.reverse_cons, List.append_assoc]
      exact ih (h.cons rfl)
  have hclimbs : ∀ n, Settled (List.replicate n .parent) := by
    intro n
    induction n with
    | zero => rfl
    | succ n ih =>
      refine ih.cons ?_
      cases n <;> rfl
  rw [components, List.reverse_append, List.reverse_append, List.reverse_replicate, List.append_assoc]
  refine hnames r.names ?_
  cases hrooted : r.rooted with
  | true =>
    rw [r.grounded hrooted]
    rfl
  | false =>
    rw [if_neg Bool.false_ne_true, List.reverse_nil, List.append_nil]
    exact hclimbs r.climbs

theorem clean_ofComponents (r : Remains) : (ofComponents r.components).clean = ofComponents r.components := by
  have hsettled := r.settled
  rw [Settled, List.reverse_reverse] at hsettled
  rw [clean, components_ofComponents, cleanComponents, hsettled, List.reverse_reverse]

theorem segments_ofComponents (r : Remains) : (ofComponents r.components).segments =
    (if r.rooted then [[]] else []) ++ if r.steps = [] then [[]] else List.replicate r.climbs [dot, dot] ++ r.names := by
  have hsteps : (joinComponents r.steps).splitOn slash =
      if r.steps = [] then [[]] else List.replicate r.climbs [dot, dot] ++ r.names := by
    split
    · rename_i hnil
      rw [hnil]
      rfl
    · rename_i hne
      rw [splitOn_joinComponents r.inner_steps hne, map_text_steps]
  rw [ofComponents_components, segments]
  cases r.rooted with
  | true => exact (splitOn_slash_cons _).trans (congrArg _ hsteps)
  | false => exact hsteps

theorem foldless (r : Remains) : Foldless dot (ofComponents r.components).segments := by
  have hnames : ∀ s ∈ r.names, s ≠ [] ∧ s ≠ [dot] ∧ s ≠ [dot, dot] := fun s hs =>
    ⟨(r.spelled s hs).1, (r.spelled s hs).2.1, (r.spelled s hs).2.2.1⟩
  rw [segments_ofComponents]
  cases hrooted : r.rooted with
  | true =>
    by_cases hnil : r.steps = []
    · exact .inl (by simp [hnil])
    · refine .inr ⟨[[]], r.names, ?_, .inl rfl, hnames⟩
      simp [hnil, r.grounded hrooted]
  | false =>
    by_cases hnil : r.steps = []
    · exact .inr ⟨[[]], [], by simp [hnil], .inl rfl, by simp⟩
    · refine .inr ⟨List.replicate r.climbs [dot, dot], r.names, by simp [hnil], .inr fun s hs => ?_, hnames⟩
      exact List.eq_of_mem_replicate hs

end Remains

theorem exists_remains_of_foldless (h : Foldless dot p.segments) : ∃ r : Remains, p = ofComponents r.components := by
  obtain ⟨bytes⟩ := p
  have hwhole : [slash].intercalate ((⟨bytes⟩ : Path).segments) = bytes := List.intercalate_splitOn slash
  rcases h with hroot | ⟨front, names, hsegments, hfront, hnames⟩
  · refine ⟨⟨true, 0, [], fun _ => rfl, by simp⟩, ?_⟩
    rw [← hwhole, hroot]
    rfl
  · have hspelled : ∀ s ∈ names, Inner (.name s) := by
      intro s hs
      have hmem : s ∈ (⟨bytes⟩ : Path).segments := by
        rw [hsegments]
        exact List.mem_append_right _ hs
      exact ⟨(hnames s hs).1, (hnames s hs).2.1, (hnames s hs).2.2, notMem_of_mem_splitOn hmem⟩
    rcases hfront with rfl | hfront
    · by_cases hnil : names = []
      · refine ⟨⟨false, 0, [], by simp, by simp⟩, ?_⟩
        rw [← hwhole, hsegments, hnil]
        rfl
      · refine ⟨⟨true, 0, names, fun _ => rfl, hspelled⟩, ?_⟩
        rw [← hwhole, hsegments, Remains.ofComponents_components, joinComponents, Remains.map_text_steps,
          List.singleton_append, List.intercalate_cons_of_ne_nil hnil]
        rfl
    · refine ⟨⟨false, front.length, names, by simp, hspelled⟩, ?_⟩
      rw [← hwhole, hsegments, Remains.ofComponents_components, joinComponents, Remains.map_text_steps,
        ← List.eq_replicate_of_mem hfront]
      rfl

/-- Cleaning leaves a path as it is exactly if nothing can be folded in it. -/
theorem clean_eq_self_iff_foldless : p.clean = p ↔ Foldless dot p.segments := by
  constructor
  · intro h
    obtain ⟨r, -, hclean, -⟩ := exists_remains p
    rw [← h, clean, hclean]
    exact r.foldless
  · intro h
    obtain ⟨r, rfl⟩ := exists_remains_of_foldless h
    exact r.clean_ofComponents

/-! ## Normal form -/

/-- Whether a path is spelled in normal form. -/
structure IsNormal (p : Path) : Prop where
  no_current : [dot] ∉ p.segments
  no_repeated : ¬ [slash, slash] <:+: p.bytes
  /-- The separator at the end of the root is its only one. -/
  no_trailing : p.bytes.getLast? = some slash → p.bytes = [slash]
  /-- A relative path may climb, before anything else. -/
  climbs_first : ∃ climbs rest, p.segments = List.replicate climbs [dot, dot] ++ rest ∧ [dot, dot] ∉ rest ∧
    (p.isAbsolute = true → climbs = 0)

theorem segments_of_isAbsolute (h : p.isAbsolute = true) : p.segments.head? = some [] := by
  obtain ⟨_ | ⟨b, bytes⟩⟩ := p
  · cases h
  · obtain rfl : b = slash := by simpa [isAbsolute] using h
    rw [segments, splitOn_slash_cons]
    rfl

namespace Foldless

variable {α : Type} {d : α} {segments : List (List α)}

/-- Behind another segment, only the root has an empty one. -/
theorem eq_of_nil_mem {s : List α} {rest : List (List α)} (h : Foldless d (s :: rest)) (hmem : [] ∈ rest) :
    s = [] ∧ rest = [[]] := by
  rcases h with hroot | ⟨front, names, hsegments, hfront, hnames⟩
  · exact List.cons.inj hroot
  · have hnil : [] ∈ front.tail ∨ [] ∈ names := by
      cases front with
      | nil => exact .inr (by rw [← hsegments.trans (List.nil_append _)]; exact List.mem_cons_of_mem _ hmem)
      | cons t front =>
        obtain ⟨-, rfl⟩ := List.cons.inj hsegments
        exact List.mem_append.1 hmem
    exfalso
    rcases hnil with hnil | hnil
    · rcases hfront with rfl | hfront
      · cases hnil
      · cases hfront [] (List.mem_of_mem_tail hnil)
    · exact (hnames [] hnil).1 rfl

theorem dot_notMem (h : Foldless d segments) : [d] ∉ segments := by
  rcases h with rfl | ⟨front, names, rfl, hfront, hnames⟩
  · simp
  · intro hmem
    rcases List.mem_append.1 hmem with hmem | hmem
    · rcases hfront with rfl | hfront
      · simp at hmem
      · cases hfront _ hmem
    · exact (hnames _ hmem).2.1 rfl

theorem exists_climbs (h : Foldless d segments) : ∃ climbs rest, segments = List.replicate climbs [d, d] ++ rest ∧
    [d, d] ∉ rest ∧ (segments.head? = some [] → climbs = 0) := by
  rcases h with rfl | ⟨front, names, rfl, hfront, hnames⟩
  · exact ⟨0, _, rfl, by simp, fun _ => rfl⟩
  · have hparent : [d, d] ∉ names := fun hmem => (hnames _ hmem).2.2 rfl
    rcases hfront with rfl | hfront
    · exact ⟨0, _, rfl, by simp [hparent], fun _ => rfl⟩
    · refine ⟨front.length, names, by rw [← List.eq_replicate_of_mem hfront], hparent, fun hhead => ?_⟩
      cases front with
      | nil => rfl
      | cons s front =>
        rw [hfront s List.mem_cons_self] at hhead
        cases hhead

end Foldless

theorem isNormal_of_foldless (h : Foldless dot p.segments) : IsNormal p := by
  obtain ⟨climbs, rest, hsegments, hparent, hzero⟩ := h.exists_climbs
  refine ⟨h.dot_notMem, ?_, fun hlast => ?_, climbs, rest, hsegments, hparent, fun habs => hzero (segments_of_isAbsolute habs)⟩
  · rintro ⟨before, after, hbytes⟩
    have hsplit : p.segments = before.splitOn slash ++ [] :: after.splitOn slash := by
      rw [← splitOn_slash_cons, ← List.splitOn_append_cons_self, segments, ← hbytes, List.append_assoc]
      rfl
    obtain ⟨first, more, hfirst⟩ := List.exists_cons_of_ne_nil (List.splitOn_ne_nil slash before)
    rw [hsplit, hfirst, List.cons_append] at h
    have hempty := (h.eq_of_nil_mem (by simp)).2
    have hlength := congrArg List.length hempty
    have hpos := List.length_pos_of_ne_nil (List.splitOn_ne_nil slash after)
    simp only [List.length_append, List.length_cons, List.length_nil] at hlength
    omega
  · obtain ⟨before, hbytes⟩ := List.getLast?_eq_some_iff.1 hlast
    have hsplit : p.segments = before.splitOn slash ++ [[]] := by
      rw [segments, hbytes, List.splitOn_append_cons_self, List.splitOn_nil]
    obtain ⟨first, more, hfirst⟩ := List.exists_cons_of_ne_nil (List.splitOn_ne_nil slash before)
    rw [hsplit, hfirst, List.cons_append] at h
    obtain ⟨rfl, hmore⟩ := h.eq_of_nil_mem (by simp)
    obtain rfl : more = [] := by simpa using hmore
    have hbefore : [slash].intercalate (before.splitOn slash) = before := List.intercalate_splitOn slash
    rw [hfirst] at hbefore
    rw [hbytes, ← hbefore]
    rfl

namespace IsNormal

/-- An empty segment behind another would be a separator at the end or next to one. -/
theorem segments_ne (h : IsNormal p) (hroot : p.segments ≠ [[], []]) {front : List (List UInt8)} (hfront : front ≠ [])
    (back : List (List UInt8)) : p.segments ≠ front ++ [] :: back := by
  intro heq
  have hwhole : [slash].intercalate p.segments = p.bytes := List.intercalate_splitOn slash
  rw [heq, intercalate_append hfront (by simp)] at hwhole
  by_cases hback : back = []
  · have hbytes := h.no_trailing (by rw [← hwhole, hback]; simp)
    refine hroot ?_
    rw [segments, hbytes]
    rfl
  · rw [List.intercalate_cons_of_ne_nil hback] at hwhole
    exact h.no_repeated ⟨[slash].intercalate front, [slash].intercalate back, by rw [← hwhole]; simp⟩

theorem foldless (h : IsNormal p) : Foldless dot p.segments := by
  by_cases hroot : p.segments = [[], []]
  · exact .inl hroot
  obtain ⟨climbs, rest, hsegments, hparent, -⟩ := h.climbs_first
  obtain ⟨first, more, hfirst⟩ := List.exists_cons_of_ne_nil (List.splitOn_ne_nil slash p.bytes)
  change p.segments = first :: more at hfirst
  have hmore : ∀ s ∈ more, s ≠ [] := by
    rintro s hs rfl
    obtain ⟨front, back, rfl⟩ := List.append_of_mem hs
    exact h.segments_ne hroot (List.cons_ne_nil first front) back hfirst
  have hcurrent : ∀ s ∈ p.segments, s ≠ [dot] := fun s hs heq => h.no_current (heq ▸ hs)
  by_cases hnil : first = []
  · refine .inr ⟨[[]], more, by rw [hfirst, hnil]; rfl, .inl rfl, fun s hs => ⟨hmore s hs, ?_, ?_⟩⟩
    · exact hcurrent s (by simp [hfirst, hs])
    · -- The path does not start with `..`, so `..` is nowhere in it.
      cases climbs with
      | zero =>
        rintro rfl
        exact hparent (by simp [← List.nil_append rest ▸ hsegments, hfirst, hs])
      | succ n => cases (List.cons.inj (hfirst.symm.trans hsegments)).1.symm.trans hnil
  · have hrest : ∀ s ∈ rest, s ≠ [] := by
      intro s hs
      have hmem : s ∈ first :: more := by
        rw [← hfirst, hsegments]
        exact List.mem_append_right _ hs
      rcases List.mem_cons.1 hmem with rfl | hmem
      · exact hnil
      · exact hmore s hmem
    refine .inr ⟨_, rest, hsegments, .inr fun s hs => List.eq_of_mem_replicate hs, fun s hs => ⟨hrest s hs, ?_, ?_⟩⟩
    · exact hcurrent s (by simp [hsegments, hs])
    · rintro rfl
      exact hparent hs

end IsNormal

/-- Cleaning leaves a path as it is exactly if it is in normal form. -/
theorem clean_eq_self_iff : p.clean = p ↔ IsNormal p :=
  clean_eq_self_iff_foldless.trans ⟨isNormal_of_foldless, IsNormal.foldless⟩

end StyleTrack.Path
