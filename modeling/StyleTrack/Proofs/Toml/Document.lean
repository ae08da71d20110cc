/-
Documents that are made of written lines. The lines are read one by one, and the tables that they make up are
those that were written: values in front, then tables under headers of their own, at the end of the document
or one level below a table that is only implied.
-/
import StyleTrack.Toml.Document
import StyleTrack.Proofs.Toml.Line

namespace StyleTrack.Toml

open Text (Parser)
open Text.Parser (bind_of_some bind_of_none many_flatMap)

/-! ## Lines of a document -/

/-- Whether some characters read as a line. -/
structure Reads (w : List Char) (l : Line) : Prop where
  head : ∃ c tail, w = c :: tail ∧ isLineBlank c = false
  line : ∀ rest, line (w ++ rest) = some (l, rest)

/-- The characters of lines, one after the other. -/
def joined (pieces : List (List Char × Line)) : List Char := pieces.flatMap (·.1)

theorem blanks_joined {pieces : List (List Char × Line)} (h : ∀ p ∈ pieces, Reads p.1 p.2) :
    blanks (joined pieces) = some ((), joined pieces) := by
  cases pieces with
  | nil => rfl
  | cons p pieces =>
    obtain ⟨c, tail, heq, hblank⟩ := (h p List.mem_cons_self).head
    rw [joined, List.flatMap_cons, heq]
    exact blanks_cons hblank _

/-- The lines of a document are those that its parts read as. -/
theorem lines_joined {pieces : List (List Char × Line)} (h : ∀ p ∈ pieces, Reads p.1 p.2) :
    lines (joined pieces) = some (pieces.map (·.2), []) := by
  have hread : ∀ p back, p :: back <:+ pieces →
      (line >>= fun l => blanks >>= fun _ => pure l) (p.1 ++ (back.flatMap (·.1) ++ [])) =
        some (p.2, back.flatMap (·.1) ++ []) := fun p back hback => by
    have hblank := blanks_joined fun p' hp' => h p' (hback.subset (List.mem_cons_of_mem p hp'))
    rw [List.append_nil, bind_of_some ((h p (hback.subset List.mem_cons_self)).line _)]
    exact (bind_of_some hblank).trans rfl
  have hne : ∀ p ∈ pieces, p.1 ≠ [] := fun p hp => by
    obtain ⟨c, tail, heq, -⟩ := (h p hp).head
    simp [heq]
  have hmany := many_flatMap hread hne rfl
  rw [List.append_nil] at hmany
  rw [lines, bind_of_some (blanks_joined h)]
  exact (bind_of_some hmany).trans rfl

/-- Whether some characters are lines that read as given. -/
def Spelled (w : List Char) (ls : List Line) : Prop :=
  ∃ pieces, (∀ p ∈ pieces, Reads p.1 p.2) ∧ w = joined pieces ∧ ls = pieces.map (·.2)

theorem Spelled.nil : Spelled [] [] := ⟨[], by simp, rfl, rfl⟩

theorem Spelled.append {w w' : List Char} {ls ls' : List Line} (h : Spelled w ls) (h' : Spelled w' ls') :
    Spelled (w ++ w') (ls ++ ls') := by
  obtain ⟨pieces, hreads, rfl, rfl⟩ := h
  obtain ⟨pieces', hreads', rfl, rfl⟩ := h'
  refine ⟨pieces ++ pieces', fun p hp => ?_, ?_, ?_⟩
  · rcases List.mem_append.1 hp with hp | hp
    · exact hreads p hp
    · exact hreads' p hp
  · exact List.flatMap_append.symm
  · exact List.map_append.symm

theorem Reads.spelled {w : List Char} {l : Line} (h : Reads w l) : Spelled w [l] :=
  ⟨[(w, l)], by simpa using h, by simp [joined], rfl⟩

theorem reads_empty : Reads ['\n'] .empty := ⟨⟨'\n', [], rfl, by decide⟩, line_empty⟩

theorem reads_entry {k : String} (hk : IsBare k) {w : List Char} {v : Value} (hw : Written w v) :
    Reads (k.toList ++ [' ', '=', ' '] ++ w ++ ['\n']) (.entry [] k v) := by
  obtain ⟨x, tail, heq⟩ := List.exists_cons_of_ne_nil hk.1
  refine ⟨⟨x, _, by rw [heq]; rfl, isLineBlank_of_bare (hk.2 x (heq ▸ List.mem_cons_self))⟩, fun rest => ?_⟩
  simpa only [List.append_assoc, List.cons_append, List.nil_append] using line_entry hk hw rest

theorem reads_header {k : String} (hk : IsBare k) : Reads ('[' :: (k.toList ++ [']', '\n'])) (.table [] k) := by
  refine ⟨⟨'[', _, rfl, by decide⟩, fun rest => ?_⟩
  have hkey := key_one (@IsBare.part k hk ']' ']' ('\n' :: rest) ('\n' :: rest) (by decide) (by decide) (.inl rfl)) (by decide)
  rw [List.cons_append, List.append_assoc]
  exact line_header hkey (hk.append_ne (by decide) _)

/-- The header of a table below a name, under a key that may be any text. -/
theorem reads_header_below {group : String} (hgroup : IsBare group) (k : String) :
    Reads ('[' :: (group.toList ++ '.' :: quotedKey k.toList ++ [']', '\n'])) (.table [group] k) := by
  refine ⟨⟨'[', _, rfl, by decide⟩, fun rest => ?_⟩
  have hkey := key_two (hgroup.part (by decide) (by decide) (.inl rfl)) (part_quotedKey k ('\n' :: rest)) (by decide)
  rw [List.cons_append, List.append_assoc, List.append_assoc, List.cons_append]
  exact line_header hkey (hgroup.append_ne (by decide) _)

/-! ## Nodes -/

namespace Nodes

variable {nodes : Nodes} {k : String} {x : Node}

theorem get?_append_of_none (h : nodes.get? k = none) (x : Node) : Nodes.get? (nodes ++ [(k, x)]) k = some x := by
  have hnone : List.lookup k nodes = none := h
  rw [Nodes.get?, List.lookup_append, hnone]
  simp

theorem get?_eq_none_iff : nodes.get? k = none ↔ ∀ e ∈ nodes, e.1 ≠ k := by
  rw [Nodes.get?, List.lookup_eq_none_iff]
  simp only [bne_iff_ne, ne_eq]
  constructor
  · intro h e he heq
    exact h e he heq.symm
  · intro h e he heq
    exact h e he heq.symm

theorem get?_append_of_ne (h : nodes.get? k = none) {k' : String} (hne : k' ≠ k) (x : Node) :
    Nodes.get? (nodes ++ [(k', x)]) k = none := by
  rw [get?_eq_none_iff]
  intro e he
  rcases List.mem_append.1 he with he | he
  · exact get?_eq_none_iff.1 h e he
  · rw [List.mem_singleton.1 he]
    exact hne

theorem add?_of_none (h : nodes.get? k = none) (x : Node) : nodes.add? k x = some (nodes ++ [(k, x)]) := by
  rw [Nodes.add?, h]
  rfl

theorem set_of_none (h : nodes.get? k = none) (x : Node) : nodes.set k x = nodes ++ [(k, x)] := by
  have hnone : List.lookup k nodes = none := h
  rw [Nodes.set, hnone]
  rfl

/-- What stands at the end is replaced there. -/
theorem set_last (h : nodes.get? k = none) (x y : Node) : Nodes.set (nodes ++ [(k, x)]) k y = nodes ++ [(k, y)] := by
  have hfound : List.lookup k (nodes ++ [(k, x)]) = some x := get?_append_of_none h x
  have hkeep : nodes.map (fun e => if e.1 = k then (k, y) else e) = nodes := by
    refine (List.map_congr_left fun e he => ?_).trans (List.map_id' nodes)
    exact if_neg (get?_eq_none_iff.1 h e he)
  rw [Nodes.set, hfound, Option.isSome_some, if_pos rfl, List.map_append, hkeep]
  simp

theorem remove_of_none (h : nodes.get? k = none) : nodes.remove k = nodes :=
  List.filter_eq_self.2 fun e he => decide_eq_true (get?_eq_none_iff.1 h e he)

/-- A path to what is not there yet makes it, in an implied table at the end. -/
theorem within_of_none (h : nodes.get? k = none) (change : Origin → Nodes → Option Nodes) (origin : Origin) :
    within false change [k] origin nodes = (change .implied []).map fun inner => nodes ++ [(k, .table .implied inner)] := by
  rw [within.eq_def]
  simp only [h, within, parentOrigin, Bool.false_eq_true, if_false, set_of_none h]
  cases change .implied [] <;> rfl

/-- A path to the last table changes it where it stands. -/
theorem within_last (h : nodes.get? k = none) (change : Origin → Nodes → Option Nodes) (origin kept : Origin)
    (inner : Nodes) : within false change [k] origin (nodes ++ [(k, .table kept inner)]) =
      (change kept inner).map fun inner' => nodes ++ [(k, .table kept inner')] := by
  have hfound : Nodes.get? (nodes ++ [(k, .table kept inner)]) k = some (.table kept inner) := get?_append_of_none h _
  rw [within.eq_def]
  simp only [hfound, within, Bool.false_and, Bool.false_eq_true, if_false, set_last h]
  cases change kept inner <;> rfl

end Nodes

/-! ## Sections -/

/-- The lines of keys with values. -/
def entryLines (fields : Table) : List Line := fields.map fun f => .entry [] f.1 f.2

/-- Values under their keys. -/
def valueNodes (fields : Table) : Nodes := fields.map fun f => (f.1, .value f.2)

/-- Whether no two entries have the same key. -/
def IsDistinct {ν : Type} (fields : List (String × ν)) : Prop := fields.Pairwise fun x y => x.1 ≠ y.1

theorem get?_valueNodes_eq_none {fields : Table} {k : String} (h : ∀ f ∈ fields, f.1 ≠ k) :
    (valueNodes fields).get? k = none := by
  rw [Nodes.get?_eq_none_iff]
  intro e he
  obtain ⟨f, hf, rfl⟩ := List.mem_map.1 he
  exact h f hf

namespace Draft

variable {d : Draft} {nodes inner : Nodes} {fields : Table}

/-- New keys with values join those that are collected. -/
theorem foldlM_entryLines (hfields : IsDistinct fields) (root : Nodes) (target : Target) {current : Nodes}
    (hnew : ∀ f ∈ fields, current.get? f.1 = none) :
    (entryLines fields).foldlM add ⟨root, target, current⟩ = some ⟨root, target, current ++ valueNodes fields⟩ := by
  induction fields generalizing current with
  | nil => simp [entryLines, valueNodes]
  | cons f fields ih =>
    obtain ⟨hfirst, hrest⟩ := List.pairwise_cons.1 hfields
    have hadd : add ⟨root, target, current⟩ (.entry [] f.1 f.2) =
        some ⟨root, target, current ++ [(f.1, .value f.2)]⟩ := by
      have hvalue : current.addValue? [] f.1 f.2 = some (current ++ [(f.1, .value f.2)]) :=
        Nodes.add?_of_none (hnew f List.mem_cons_self) _
      simp only [add, hvalue]
      rfl
    have hmore := ih hrest fun g hg =>
      Nodes.get?_append_of_ne (hnew g (List.mem_cons_of_mem _ hg)) (hfirst g hg) (.value f.2)
    rw [entryLines, List.map_cons, List.foldlM_cons, hadd, Option.bind_eq_bind, Option.bind_some]
    rw [entryLines] at hmore
    rw [hmore, valueNodes, valueNodes, List.map_cons, List.append_assoc]
    rfl

theorem finish_of_front (hfields : IsDistinct fields) :
    ∃ d, (entryLines fields).foldlM add .empty = some d ∧ d.finish = some (valueNodes fields) :=
  ⟨_, foldlM_entryLines hfields [] .document fun _ _ => rfl, rfl⟩

theorem foldlM_section {l : Line} {d' : Draft} (h : add d l = some d') (ls : List Line) :
    (.empty :: l :: ls).foldlM add d = ls.foldlM add d' := by
  have hempty : add d .empty = some d := rfl
  simp only [List.foldlM_cons, hempty, h, Option.bind_eq_bind, Option.bind_some]

/-- A table under a header of its own comes after what is there. -/
theorem finish_of_table (hd : d.finish = some nodes) {key : String} (hkey : nodes.get? key = none)
    (hfields : IsDistinct fields) :
    ∃ d', (.empty :: .table [] key :: entryLines fields).foldlM add d = some d' ∧
      d'.finish = some (nodes ++ [(key, .table .header (valueNodes fields))]) := by
  have hadd : add d (.table [] key) = some ⟨nodes, .table [] key, []⟩ := by
    simp only [add, hd, entriesAt, reopened?, hkey, Nodes.within, Nodes.remove_of_none hkey, Option.bind_eq_bind,
      Option.bind_some]
    rfl
  refine ⟨_, (foldlM_section hadd _).trans (foldlM_entryLines hfields _ _ fun _ _ => rfl), ?_⟩
  exact Nodes.add?_of_none hkey _

/-- Whether a draft has some tables one level below a name: the name is vacant while there are none. -/
def Grouped (d : Draft) (nodes : Nodes) (group : String) (inner : Nodes) : Prop :=
  d.finish = some (nodes ++ [(group, .table .implied inner)]) ∨ inner = [] ∧ d.finish = some nodes

/-- The header of a table below a name. -/
theorem add_below {group key : String} (hd : d.Grouped nodes group inner) (hgroup : nodes.get? group = none)
    (hkey : inner.get? key = none) :
    add d (.table [group] key) = some ⟨nodes ++ [(group, .table .implied inner)], .table [group] key, []⟩ := by
  rcases hd with hd | ⟨rfl, hd⟩
  · have hfound : Nodes.get? (nodes ++ [(group, .table .implied inner)]) group = some (.table .implied inner) :=
      Nodes.get?_append_of_none hgroup _
    simp only [add, hd, Option.bind_eq_bind, Option.bind_some, entriesAt, hfound, reopened?, hkey,
      Nodes.within_last hgroup, Nodes.remove_of_none hkey, Option.map_some]
    rfl
  · simp only [add, hd, Option.bind_eq_bind, Option.bind_some, entriesAt, hgroup, reopened?, hkey,
      Nodes.within_of_none hgroup, Nodes.remove_of_none hkey, Option.map_some]
    rfl

/-- The lines of a table one level below a name. -/
def tableLines (group : String) (t : String × Table) : List Line := .empty :: .table [group] t.1 :: entryLines t.2

/-- A table under a header of its own. -/
def tableNode (t : String × Table) : String × Node := (t.1, .table .header (valueNodes t.2))

/-- One more table below a name comes after those that are there. -/
theorem finish_of_tableLines {group : String} {t : String × Table} (hd : d.Grouped nodes group inner)
    (hgroup : nodes.get? group = none) (hkey : inner.get? t.1 = none) (hfields : IsDistinct t.2) :
    ∃ d', (tableLines group t).foldlM add d = some d' ∧
      d'.finish = some (nodes ++ [(group, .table .implied (inner ++ [tableNode t]))]) := by
  refine ⟨_, (foldlM_section (add_below hd hgroup hkey) _).trans (foldlM_entryLines hfields _ _ fun _ _ => rfl), ?_⟩
  rw [finish]
  dsimp only
  rw [Nodes.within_last hgroup, Nodes.add?_of_none hkey]
  rfl

theorem finish_of_tables {group : String} {tables : List (String × Table)} (hd : d.Grouped nodes group inner)
    (hgroup : nodes.get? group = none) (hnew : ∀ t ∈ tables, inner.get? t.1 = none) (hnames : IsDistinct tables)
    (hfields : ∀ t ∈ tables, IsDistinct t.2) :
    ∃ d', (tables.flatMap (tableLines group)).foldlM add d = some d' ∧
      d'.Grouped nodes group (inner ++ tables.map tableNode) := by
  induction tables generalizing d inner with
  | nil =>
    rw [List.map_nil, List.append_nil]
    exact ⟨d, rfl, hd⟩
  | cons t tables ih =>
    obtain ⟨hfirst, hrest⟩ := List.pairwise_cons.1 hnames
    obtain ⟨d', hfold, hfinish⟩ := finish_of_tableLines hd hgroup (hnew t List.mem_cons_self) (hfields t List.mem_cons_self)
    have hnew' : ∀ t' ∈ tables, Nodes.get? (inner ++ [tableNode t]) t'.1 = none := fun t' ht' =>
      Nodes.get?_append_of_ne (hnew t' (List.mem_cons_of_mem _ ht')) (hfirst t' ht') _
    obtain ⟨d'', hfold', hgrouped⟩ := ih (.inl hfinish) hnew' hrest fun t' ht' => hfields t' (List.mem_cons_of_mem _ ht')
    refine ⟨d'', ?_, ?_⟩
    · rw [List.flatMap_cons, List.foldlM_append, hfold]
      exact hfold'
    · rw [List.append_assoc] at hgrouped
      exact hgrouped

end Draft

/-! ## Documents -/

theorem toTable_append (nodes others : Nodes) : toTable (nodes ++ others) = toTable nodes ++ toTable others := by
  induction nodes with
  | nil => rfl
  | cons e nodes ih => rw [List.cons_append, toTable, toTable, ih, List.cons_append]

theorem toTable_valueNodes (fields : Table) : toTable (valueNodes fields) = fields := by
  induction fields with
  | nil => rfl
  | cons f fields ih => rw [valueNodes, List.map_cons, toTable, Node.toValue, ← valueNodes, ih]

theorem toTable_tableNode (tables : List (String × Table)) :
    toTable (tables.map Draft.tableNode) = tables.map fun t => (t.1, .table t.2) := by
  induction tables with
  | nil => rfl
  | cons t tables ih => rw [List.map_cons, List.map_cons, Draft.tableNode, toTable, Node.toValue, toTable_valueNodes, ih]

/-- A document of lines is the table that its lines make up. -/
theorem read_of_spelled {w : List Char} {ls : List Line} (h : Spelled w ls) (hmark : w.head? ≠ some '\uFEFF')
    {d : Draft} {nodes : Nodes} (hfold : ls.foldlM Draft.add .empty = some d) (hfinish : d.finish = some nodes) :
    read w = some (toTable nodes) := by
  have hdrop : dropByteOrderMark w = w := by
    rw [dropByteOrderMark.eq_def]
    split
    · exact absurd rfl hmark
    · rfl
  obtain ⟨pieces, hreads, rfl, rfl⟩ := h
  rw [read, hdrop, lines_joined hreads]
  simp only [Option.bind_eq_bind, Option.bind_some, hfold, hfinish]
  rfl

end StyleTrack.Toml
