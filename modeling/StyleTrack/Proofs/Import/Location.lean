/-
What a search for a file comes to, whatever the file system answers. The locations of a candidate are those that it
has below the directory it is relative to and below each search path, with `.` and `..` folded. The first of them that
is not known to be missing decides: it is what the search finds if it exists, and its fault ends the search if it
cannot be looked at. If all are missing, the failure names each of them once, in the order in which they come up.
-/
import StyleTrack.Proofs.Import.Agenda
import StyleTrack.Proofs.Path.Clean

namespace StyleTrack.Locator

variable {fs : FileSystem} {candidate : String} {p : Path} {front rest locations : List Path}

/-! ## Locations -/

theorem places_eq (base : Path) (candidate : String) (search : List Path) : places base candidate search =
    ((if base = .empty then .ofString candidate else base.join (.ofString candidate)) ::
      search.map fun dir => dir.join (.ofString candidate)).map Path.clean := by
  have hfirst : base.join (.ofString candidate) =
      if base = .empty then .ofString candidate else base.join (.ofString candidate) := by
    split
    · rename_i hbase
      simp [hbase, Path.join, Path.empty]
    · rfl
  rw [places, List.map_cons, List.map_cons, List.map_map, ← hfirst]
  rfl

/-- Whether no location has two spellings. -/
def SpelledOnce (locations : List Path) : Prop :=
  ∀ p ∈ locations, ∀ q ∈ locations, p.components = q.components → p = q

theorem spelledOnce_places (base : Path) (candidate : String) (search : List Path) :
    SpelledOnce (places base candidate search) := by
  intro p hp q hq hsame
  obtain ⟨dir, -, rfl⟩ := List.mem_map.1 hp
  obtain ⟨dir', -, rfl⟩ := List.mem_map.1 hq
  exact Path.eq_of_clean hsame

theorem mem_firsts_iff (h : SpelledOnce locations) : p ∈ firsts locations ↔ p ∈ locations := by
  rw [← distinct_eq_firsts]
  refine ⟨mem_of_mem_distinct, fun hp => ?_⟩
  obtain ⟨q, hq, hsame⟩ := exists_mem_distinct hp
  rwa [← h q (mem_of_mem_distinct hq) p hp hsame]

theorem pairwise_firsts (locations : List Path) :
    (firsts locations).Pairwise fun p q => p.components ≠ q.components := by
  rw [← distinct_eq_firsts]
  exact pairwise_distinct locations

/-! ## The location that decides -/

theorem any_same_firsts_iff : (firsts front).any p.same = true ↔ ∃ q ∈ front, q.components = p.components := by
  rw [← distinct_eq_firsts, List.any_eq_true]
  constructor
  · rintro ⟨q, hq, hsame⟩
    exact ⟨q, mem_of_mem_distinct hq, (Path.same_iff.1 hsame).symm⟩
  · rintro ⟨q, hq, hsame⟩
    obtain ⟨r, hr, hsame'⟩ := exists_mem_distinct hq
    exact ⟨r, hr, Path.same_iff.2 (hsame'.trans hsame).symm⟩

/-- Locations that are missing are passed over, whether or not they were tried before. -/
theorem firstPresent_append_of_missing {missing : List Path} (h : ∀ q ∈ missing, fs.contains q = .ok false) :
    firstPresent fs candidate (firsts front) (missing ++ rest) =
      firstPresent fs candidate (firsts (front ++ missing)) rest := by
  induction missing generalizing front with
  | nil => rw [List.append_nil, List.nil_append]
  | cons q missing ih =>
    have hstep : firstPresent fs candidate (firsts front) (q :: (missing ++ rest)) =
        firstPresent fs candidate (firsts (front ++ [q])) (missing ++ rest) := by
      rw [firstPresent, firsts_concat, if_congr any_same_firsts_iff rfl rfl, h q List.mem_cons_self]
      split <;> rfl
    rw [List.cons_append, hstep, ih fun r hr => h r (List.mem_cons_of_mem _ hr), List.append_assoc,
      List.singleton_append]

/-- A location that is not missing is asked about: it is none of those that were passed over. -/
theorem firstPresent_cons_of_present (hspelled : SpelledOnce (front ++ p :: rest))
    (hfront : ∀ q ∈ front, fs.contains q = .ok false) (hp : fs.contains p ≠ .ok false) :
    firstPresent fs candidate (firsts front) (p :: rest) =
      match fs.contains p with
      | .ok _ => .ok p
      | .error fault => .error (.io candidate fault) := by
  have hnew : ¬ (firsts front).any p.same = true := by
    rw [any_same_firsts_iff]
    rintro ⟨q, hq, hsame⟩
    rw [← hspelled q (List.mem_append_left _ hq) p (by simp) hsame] at hp
    exact hp (hfront q hq)
  rw [firstPresent, if_neg hnew]
  cases hcontains : fs.contains p with
  | error fault => rfl
  | ok exists_ =>
    cases exists_ with
    | true => rfl
    | false => exact absurd hcontains hp

/-- How a search over some locations ends. -/
inductive Ends (fs : FileSystem) (candidate : String) (locations : List Path) : Except ResolveError Path → Prop
  /-- The first location that is not missing exists. -/
  | found {front rest : List Path} {p : Path} (hsplit : locations = front ++ p :: rest)
    (hfront : ∀ q ∈ front, fs.contains q = .ok false) (hp : fs.contains p = .ok true) :
    Ends fs candidate locations (.ok p)
  /-- The first location that is not missing cannot be looked at. -/
  | fault {front rest : List Path} {p : Path} {fault : FileError} (hsplit : locations = front ++ p :: rest)
    (hfront : ∀ q ∈ front, fs.contains q = .ok false) (hp : fs.contains p = .error fault) :
    Ends fs candidate locations (.error (.io candidate fault))
  /-- All are missing. -/
  | missing (hall : ∀ q ∈ locations, fs.contains q = .ok false) :
    Ends fs candidate locations (.error (.notFound candidate (firsts locations)))

theorem Ends.firstPresent_eq {r : Except ResolveError Path} (h : Ends fs candidate locations r)
    (hspelled : SpelledOnce locations) : firstPresent fs candidate [] locations = r := by
  have hstart : ([] : List Path) = firsts [] := rfl
  cases h with
  | found hsplit hfront hp =>
    subst hsplit
    rw [hstart, firstPresent_append_of_missing hfront, List.nil_append,
      firstPresent_cons_of_present hspelled hfront (by simp [hp]), hp]
  | fault hsplit hfront hp =>
    subst hsplit
    rw [hstart, firstPresent_append_of_missing hfront, List.nil_append,
      firstPresent_cons_of_present hspelled hfront (by simp [hp]), hp]
  | missing hall =>
    calc firstPresent fs candidate [] locations
        = firstPresent fs candidate (firsts []) (locations ++ []) := by rw [List.append_nil, ← hstart]
      _ = firstPresent fs candidate (firsts locations) [] := by
        rw [firstPresent_append_of_missing hall, List.nil_append]
      _ = .error (.notFound candidate (firsts locations)) := by rw [firstPresent]

theorem exists_ends (fs : FileSystem) (candidate : String) (locations : List Path) :
    ∃ r, Ends fs candidate locations r := by
  cases hfind : locations.find? fun q => decide (fs.contains q ≠ .ok false) with
  | none =>
    refine ⟨_, .missing fun q hq => ?_⟩
    simpa using List.find?_eq_none.1 hfind q hq
  | some p =>
    obtain ⟨hp, front, rest, hsplit, hfront⟩ := List.find?_eq_some_iff_append.1 hfind
    have hmissing : ∀ q ∈ front, fs.contains q = .ok false := fun q hq => by simpa using hfront q hq
    cases hcontains : fs.contains p with
    | error fault => exact ⟨_, .fault hsplit hmissing hcontains⟩
    | ok exists_ =>
      cases exists_ with
      | true => exact ⟨_, .found hsplit hmissing hcontains⟩
      | false => simp [hcontains] at hp

theorem firstPresent_eq_iff (hspelled : SpelledOnce locations) {r : Except ResolveError Path} :
    firstPresent fs candidate [] locations = r ↔ Ends fs candidate locations r := by
  refine ⟨?_, fun h => h.firstPresent_eq hspelled⟩
  rintro rfl
  obtain ⟨r, hr⟩ := exists_ends fs candidate locations
  rwa [hr.firstPresent_eq hspelled]

/-! ## Repeats -/

/-- Locations that are the same as one that was tried do not matter. -/
theorem firstPresent_filter {tried : List Path} (hp : tried.any p.same = true) (locations : List Path) :
    firstPresent fs candidate tried (locations.filter fun q => q.same p = false) =
      firstPresent fs candidate tried locations := by
  induction locations generalizing tried with
  | nil => rfl
  | cons q rest ih =>
    by_cases hsame : q.same p = true
    · have hq : tried.any q.same = true := by
        obtain ⟨r, hr, hpr⟩ := List.any_eq_true.1 hp
        exact List.any_eq_true.2 ⟨r, hr, Path.same_iff.2 ((Path.same_iff.1 hsame).trans (Path.same_iff.1 hpr))⟩
      rw [List.filter_cons_of_neg (by simp [hsame]), ih hp, firstPresent, if_pos hq]
    · have htried : (tried ++ [q]).any p.same = true := by rw [List.any_append, hp, Bool.true_or]
      rw [List.filter_cons_of_pos (by simpa using hsame), firstPresent, firstPresent, ih hp, ih htried]

theorem firstPresent_distinct (tried : List Path) : ∀ locations : List Path,
    firstPresent fs candidate tried (distinct locations) = firstPresent fs candidate tried locations
  | [] => rfl
  | p :: rest => by
    rw [distinct_cons, firstPresent, firstPresent, firstPresent_distinct tried,
      firstPresent_distinct (tried ++ [p])]
    by_cases hp : tried.any p.same = true
    · rw [if_pos hp, if_pos hp, firstPresent_filter hp]
    · rw [if_neg hp, if_neg hp, firstPresent_filter (by simp [Path.same])]
termination_by locations => locations.length
decreasing_by all_goals exact Nat.lt_succ_of_le (List.length_filter_le _ _)

/-! ## Searching -/

/-- The locations of a candidate are below the directory that it is relative to and then below each search path. The
first of them that is not known to be missing is what is found or what the search fails with, and if all are missing,
the failure lists each of them once. Repeated locations can be left out. -/
theorem searching_ends (fs : FileSystem) (base : Path) (candidate : String) (search : List Path) :
    places base candidate search =
        ((if base = .empty then .ofString candidate else base.join (.ofString candidate)) ::
          search.map fun dir => dir.join (.ofString candidate)).map Path.clean ∧
      (∀ r, searching fs base candidate search = r ↔ Ends fs candidate (places base candidate search) r) ∧
      (∀ p, p ∈ firsts (places base candidate search) ↔ p ∈ places base candidate search) ∧
      (firsts (places base candidate search)).Pairwise (fun p q => p.components ≠ q.components) ∧
      firstPresent fs candidate [] (firsts (places base candidate search)) =
        searching fs base candidate search := by
  have hspelled := spelledOnce_places base candidate search
  refine ⟨places_eq base candidate search, fun r => firstPresent_eq_iff hspelled, fun p => mem_firsts_iff hspelled,
    pairwise_firsts _, ?_⟩
  rw [← distinct_eq_firsts, firstPresent_distinct, searching]

end StyleTrack.Locator
