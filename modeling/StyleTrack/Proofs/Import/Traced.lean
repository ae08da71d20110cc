/-
What traced programs answer, leaving aside what they do on the way, and which paths a listing keeps:
the result of a sequence of traced programs is the sequence of their results, and of several spellings
of one path the first stays.
-/
import StyleTrack.Import.Listing
import Mathlib.Data.List.Forall2
import Mathlib.Data.List.Pairwise

namespace StyleTrack

/-! ## Results -/

theorem mapError_eq_ok_iff {ε ε' α : Type} {f : ε → ε'} {x : Except ε α} {a : α} :
    x.mapError f = .ok a ↔ x = .ok a := by
  cases x <;> simp [Except.mapError]

theorem mapError_injective {ε ε' α : Type} {f : ε → ε'} (hf : Function.Injective f) :
    Function.Injective fun x : Except ε α => x.mapError f := by
  intro x y h
  cases x with
  | error e =>
    cases y with
    | error e' => rw [hf (Except.error.inj h)]
    | ok b => cases h
  | ok a =>
    cases y with
    | error e' => cases h
    | ok b => rw [Except.ok.inj h]

theorem map_eq_ok_iff {ε α β : Type} {f : α → β} {x : Except ε α} {b : β} :
    x.map f = .ok b ↔ ∃ a, x = .ok a ∧ f a = b := by
  cases x <;> simp [Except.map]

theorem bind_eq_ok_iff {ε α β : Type} {x : Except ε α} {f : α → Except ε β} {b : β} :
    (x >>= f) = .ok b ↔ ∃ a, x = .ok a ∧ f a = .ok b := by
  cases x <;> simp [bind, Except.bind]

/-- Running a program on every element succeeds exactly when it succeeds on each one. -/
theorem mapM_eq_ok_iff {ε α β : Type} {f : α → Except ε β} :
    ∀ {l : List α} {r : List β}, l.mapM f = .ok r ↔ List.Forall₂ (fun a b => f a = .ok b) l r
  | [], r => by
    simp only [List.mapM_nil, List.forall₂_nil_left_iff]
    exact ⟨fun h => by cases h; rfl, fun h => by rw [h]; rfl⟩
  | a :: l, r => by
    rw [List.mapM_cons, List.forall₂_cons_left_iff]
    cases hf : f a with
    | error e =>
      constructor
      · intro h; cases h
      · rintro ⟨b, _, h, -⟩; cases h
    | ok b =>
      cases hl : l.mapM f with
      | error e =>
        constructor
        · intro h; cases h
        · rintro ⟨_, r', -, h, -⟩
          rw [← mapM_eq_ok_iff, hl] at h
          cases h
      | ok bs =>
        constructor
        · intro h; cases h; exact ⟨b, bs, rfl, mapM_eq_ok_iff.1 hl, rfl⟩
        · rintro ⟨b', r', hb, h, rfl⟩
          cases hb
          rw [← mapM_eq_ok_iff, hl] at h
          cases h
          rfl

theorem exists_of_forall₂_left {α β : Type} {R : α → β → Prop} :
    ∀ {l : List α} {r : List β}, List.Forall₂ R l r → ∀ {a}, a ∈ l → ∃ b ∈ r, R a b
  | _, _, .cons hab hlr, a, h => by
    rcases List.mem_cons.1 h with rfl | h
    · exact ⟨_, List.mem_cons_self, hab⟩
    · obtain ⟨b, hb, hr⟩ := exists_of_forall₂_left hlr h
      exact ⟨b, List.mem_cons_of_mem _ hb, hr⟩

theorem exists_of_forall₂_right {α β : Type} {R : α → β → Prop} {l : List α} {r : List β}
    (h : List.Forall₂ R l r) {b : β} (hb : b ∈ r) : ∃ a ∈ l, R a b :=
  exists_of_forall₂_left h.flip hb

namespace Traced

variable {α β : Type}

@[simp]
theorem result_pure (a : α) : (pure a : Traced α).result = .ok a := rfl

@[simp]
theorem result_lift (r : Except ImportError α) : (lift r).result = r := rfl

@[simp]
theorem result_asked (q : Lookup) : (asked q).result = .ok () := rfl

theorem result_bind (x : Traced α) (f : α → Traced β) :
    (x >>= f).result = x.result >>= fun a => (f a).result := by
  obtain ⟨r, trace⟩ := x
  cases r <;> rfl

theorem result_mapM (f : α → Traced β) (l : List α) : (l.mapM f).result = l.mapM fun a => (f a).result := by
  have loop : ∀ (l : List α) (acc : List β),
      (List.mapM.loop f l acc).result = List.mapM.loop (fun a => (f a).result) l acc := by
    intro l
    induction l with
    | nil => intro acc; rfl
    | cons a l ih =>
      intro acc
      simp only [List.mapM.loop, result_bind, ih]
  exact loop l []

end Traced

/-! ## Distinct paths -/

theorem distinct_cons (p : Path) (l : List Path) :
    distinct (p :: l) = p :: distinct (l.filter fun q => q.same p = false) :=
  List.eraseDupsBy_cons

theorem mem_of_mem_distinct {p : Path} : ∀ {l : List Path}, p ∈ distinct l → p ∈ l
  | [], h => h
  | q :: l, h => by
    rw [distinct_cons] at h
    rcases List.mem_cons.1 h with rfl | h
    · exact List.mem_cons_self
    · exact List.mem_cons_of_mem _ (List.mem_filter.1 (mem_of_mem_distinct h)).1
termination_by l => l.length
decreasing_by exact Nat.lt_succ_of_le (List.length_filter_le _ _)

/-- Every path stays, in the spelling in which it was met first. -/
theorem exists_mem_distinct {p : Path} : ∀ {l : List Path}, p ∈ l → ∃ q ∈ distinct l, q.components = p.components
  | q :: l, h => by
    rw [distinct_cons]
    by_cases hs : p.components = q.components
    · exact ⟨q, List.mem_cons_self, hs.symm⟩
    · rcases List.mem_cons.1 h with rfl | h
      · exact absurd rfl hs
      · have hkeep : p ∈ l.filter fun r => r.same q = false := by simp [h, Path.same, hs]
        obtain ⟨r, hr, heq⟩ := exists_mem_distinct hkeep
        exact ⟨r, List.mem_cons_of_mem _ hr, heq⟩
termination_by l => l.length
decreasing_by exact Nat.lt_succ_of_le (List.length_filter_le _ _)

/-- No two of the paths that stay are the same. -/
theorem pairwise_distinct : ∀ l : List Path, (distinct l).Pairwise fun p q => p.components ≠ q.components
  | [] => .nil
  | p :: l => by
    rw [distinct_cons]
    refine List.pairwise_cons.2 ⟨fun q hq => ?_, pairwise_distinct _⟩
    have hkept := (List.mem_filter.1 (mem_of_mem_distinct hq)).2
    intro heq
    simp [Path.same, heq] at hkept
termination_by l => l.length
decreasing_by exact Nat.lt_succ_of_le (List.length_filter_le _ _)

theorem eq_of_mem_distinct {p q : Path} {l : List Path} (hp : p ∈ distinct l) (hq : q ∈ distinct l)
    (h : p.components = q.components) : p = q := by
  have : Std.Symm fun p q : Path => p.components ≠ q.components := ⟨fun _ _ h => h.symm⟩
  by_contra hne
  exact (pairwise_distinct l).forall hp hq hne h

/-- One more path stays if it is not the same as an earlier one. -/
theorem distinct_concat {p : Path} : ∀ l : List Path,
    distinct (l ++ [p]) = if ∃ q ∈ l, q.components = p.components then distinct l else distinct l ++ [p]
  | [] => by simp [distinct, List.eraseDupsBy_cons]
  | q :: l => by
    rw [List.cons_append, distinct_cons, distinct_cons, List.filter_append]
    by_cases hs : p.components = q.components
    · rw [if_pos ⟨q, List.mem_cons_self, hs.symm⟩, List.filter_cons_of_neg (by simp [Path.same, hs]), List.filter_nil,
        List.append_nil]
    · have hmem : (∃ r ∈ l.filter fun r => r.same q = false, r.components = p.components) ↔
          ∃ r ∈ q :: l, r.components = p.components := by
        constructor
        · rintro ⟨r, hr, heq⟩
          exact ⟨r, List.mem_cons_of_mem _ (List.mem_filter.1 hr).1, heq⟩
        · rintro ⟨r, hr, heq⟩
          rcases List.mem_cons.1 hr with rfl | hr
          · exact absurd heq.symm hs
          · exact ⟨r, List.mem_filter.2 ⟨hr, by simp [Path.same, heq, hs]⟩, heq⟩
      rw [List.filter_cons_of_pos (by simp [Path.same, hs]), List.filter_nil, distinct_concat, if_congr hmem rfl rfl]
      split <;> rfl
termination_by l => l.length
decreasing_by exact Nat.lt_succ_of_le (List.length_filter_le _ _)

end StyleTrack
