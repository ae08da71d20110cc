/-
The rows compute the edit distance. The distance is defined by recursion on what the two sequences begin with, and the
rows go from one beginning of a sequence to the next longer one, so the recursion is needed for the last elements as
well. It holds there because the distance is the least cost of an alignment, and an alignment can be read backwards.
-/
import StyleTrack.Text.EditDistance
import Mathlib.Data.List.Basic
import Mathlib.Data.List.Infix
import Mathlib.Order.MinMax
import Mathlib.Order.Nat

namespace StyleTrack.Text

/-! ## The distance by recursion -/

variable {α : Type} [DecidableEq α]

/-- What it costs to put one element in the place of another. -/
def substitution (a b : α) : Nat := if a = b then 0 else 1

/-- The least number of insertions, deletions and substitutions of one element that turn the first sequence into the
second: the first element of the one is deleted, or that of the other inserted, or the one takes the other's place. -/
def leastEdits : List α → List α → Nat
  | [], bs => bs.length
  | as, [] => as.length
  | a :: as, b :: bs =>
    min (min (leastEdits as (b :: bs) + 1) (leastEdits (a :: as) bs + 1)) (leastEdits as bs + substitution a b)
termination_by as bs => as.length + bs.length

/-- A way to turn one sequence into another, element by element, and what it costs. -/
inductive Alignment : List α → List α → Nat → Prop
  | nil : Alignment [] [] 0
  | delete {as bs : List α} {n : Nat} (a : α) (h : Alignment as bs n) : Alignment (a :: as) bs (n + 1)
  | insert {as bs : List α} {n : Nat} (b : α) (h : Alignment as bs n) : Alignment as (b :: bs) (n + 1)
  | replace {as bs : List α} {n : Nat} (a b : α) (h : Alignment as bs n) :
      Alignment (a :: as) (b :: bs) (n + substitution a b)

variable {as bs cs ds : List α} {m n : Nat}

theorem leastEdits_nil_left (bs : List α) : leastEdits [] bs = bs.length := by rw [leastEdits]

theorem leastEdits_nil_right (as : List α) : leastEdits as [] = as.length := by
  cases as with
  | nil => rw [leastEdits]
  | cons a as => rw [leastEdits]; simp

theorem leastEdits_cons_cons (a b : α) (as bs : List α) : leastEdits (a :: as) (b :: bs) =
    min (min (leastEdits as (b :: bs) + 1) (leastEdits (a :: as) bs + 1)) (leastEdits as bs + substitution a b) := by
  rw [leastEdits]

theorem leastEdits_self (as : List α) : leastEdits as as = 0 := by
  induction as with
  | nil => exact leastEdits_nil_left []
  | cons a as ih => rw [leastEdits_cons_cons, ih, substitution, if_pos rfl, Nat.min_zero]

/-! ## Alignments -/

namespace Alignment

theorem deletions (as : List α) : Alignment as [] as.length := by
  induction as with
  | nil => exact .nil
  | cons a as ih => exact .delete a ih

theorem insertions (bs : List α) : Alignment [] bs bs.length := by
  induction bs with
  | nil => exact .nil
  | cons b bs ih => exact .insert b ih

theorem append (h : Alignment as bs m) (h' : Alignment cs ds n) : Alignment (as ++ cs) (bs ++ ds) (m + n) := by
  induction h with
  | nil => simpa using h'
  | delete a _ ih => simpa [Nat.add_right_comm] using ih.delete a
  | insert b _ ih => simpa [Nat.add_right_comm] using ih.insert b
  | replace a b _ ih => simpa [Nat.add_right_comm] using ih.replace a b

theorem reverse (h : Alignment as bs n) : Alignment as.reverse bs.reverse n := by
  induction h with
  | nil => exact .nil
  | delete a _ ih => simpa using ih.append (.delete a .nil)
  | insert b _ ih => simpa using ih.append (.insert b .nil)
  | replace a b _ ih => simpa using ih.append (.replace a b .nil)

end Alignment

theorem alignment_leastEdits (as bs : List α) : Alignment as bs (leastEdits as bs) := by
  fun_induction leastEdits as bs with
  | case1 bs => exact .insertions bs
  | case2 as => exact .deletions as
  | case3 a as b bs ih1 ih2 ih3 =>
    rcases min_choice (min (leastEdits as (b :: bs) + 1) (leastEdits (a :: as) bs + 1))
      (leastEdits as bs + substitution a b) with hmin | hmin
    · rw [hmin]
      rcases min_choice (leastEdits as (b :: bs) + 1) (leastEdits (a :: as) bs + 1) with hmin | hmin
      · rw [hmin]
        exact ih1.delete a
      · rw [hmin]
        exact ih2.insert b
    · rw [hmin]
      exact ih3.replace a b

/-- One more element costs one step at most. -/
theorem leastEdits_cons_left_le (a : α) (as bs : List α) : leastEdits (a :: as) bs ≤ leastEdits as bs + 1 := by
  cases bs with
  | nil => simp [leastEdits_nil_right]
  | cons b bs =>
    rw [leastEdits_cons_cons]
    exact (min_le_left _ _).trans (min_le_left _ _)

theorem leastEdits_cons_right_le (b : α) (as bs : List α) : leastEdits as (b :: bs) ≤ leastEdits as bs + 1 := by
  cases as with
  | nil => simp [leastEdits_nil_left]
  | cons a as =>
    rw [leastEdits_cons_cons]
    exact (min_le_left _ _).trans (min_le_right _ _)

theorem leastEdits_le (h : Alignment as bs n) : leastEdits as bs ≤ n := by
  induction h with
  | nil => rw [leastEdits_nil_left]; rfl
  | delete a _ ih => exact (leastEdits_cons_left_le a _ _).trans (Nat.succ_le_succ ih)
  | insert b _ ih => exact (leastEdits_cons_right_le b _ _).trans (Nat.succ_le_succ ih)
  | replace a b _ ih =>
    rw [leastEdits_cons_cons]
    exact (min_le_right _ _).trans (Nat.add_le_add_right ih _)

/-- No alignment costs less than the distance and one costs as much, so it is the same backwards. -/
theorem leastEdits_reverse (as bs : List α) : leastEdits as.reverse bs.reverse = leastEdits as bs := by
  refine Nat.le_antisymm (leastEdits_le (alignment_leastEdits as bs).reverse) ?_
  have hback := (alignment_leastEdits as.reverse bs.reverse).reverse
  rw [List.reverse_reverse, List.reverse_reverse] at hback
  exact leastEdits_le hback

/-- The recursion on the last elements. -/
theorem leastEdits_concat_concat (as bs : List α) (a b : α) : leastEdits (as ++ [a]) (bs ++ [b]) =
    min (min (leastEdits as (bs ++ [b]) + 1) (leastEdits (as ++ [a]) bs + 1)) (leastEdits as bs + substitution a b) := by
  have hreverse : ∀ xs ys : List α, leastEdits xs ys = leastEdits xs.reverse ys.reverse := fun xs ys =>
    (leastEdits_reverse xs ys).symm
  rw [hreverse, hreverse as (bs ++ [b]), hreverse (as ++ [a]) bs, hreverse as bs]
  simp only [List.reverse_append, List.reverse_cons, List.reverse_nil, List.nil_append, List.cons_append]
  exact leastEdits_cons_cons a b as.reverse bs.reverse

/-! ## Rows -/

/-- The row of a sequence: its distances to every beginning of another. -/
def distances (as bs : List α) : List Nat := bs.inits.map (leastEdits as)

theorem distances_nil (bs : List α) : distances [] bs = List.range (bs.length + 1) := by
  refine List.ext_getElem (by simp [distances]) fun i hi _ => ?_
  simp only [distances, List.length_map, List.length_inits] at hi
  simp [distances, leastEdits_nil_left, List.getElem_inits, Nat.min_eq_left (Nat.le_of_lt_succ hi)]

theorem editRow_distances (as : List α) (a : α) (done bs : List α) :
    editRow a bs (leastEdits (as ++ [a]) done) (leastEdits as done)
        (bs.inits.tail.map fun front => leastEdits as (done ++ front)) =
      bs.inits.tail.map fun front => leastEdits (as ++ [a]) (done ++ front) := by
  induction bs generalizing done with
  | nil => rfl
  | cons b bs ih =>
    -- The first cell is the recursion on the last elements; behind it the row goes on from one element more.
    have hcell := leastEdits_concat_concat as done a b
    have htail : ∀ xs : List α, (bs.inits.map fun front => leastEdits xs (done ++ b :: front)) =
        leastEdits xs (done ++ [b]) :: bs.inits.tail.map fun front => leastEdits xs ((done ++ [b]) ++ front) := by
      intro xs
      cases bs <;> simp
    simp only [List.inits_cons, List.tail_cons, List.map_map, Function.comp_def]
    rw [htail, htail, editRow]
    simp only [substitution] at hcell
    rw [← hcell, ih (done ++ [b])]

theorem nextRow_distances (as bs : List α) (a : α) : nextRow a bs (distances as bs) = distances (as ++ [a]) bs := by
  have hrow := editRow_distances as a [] bs
  simp only [List.nil_append, leastEdits_nil_right, List.length_append, List.length_singleton] at hrow
  have hsplit : ∀ xs : List α, distances xs bs = xs.length :: bs.inits.tail.map (leastEdits xs) := by
    intro xs
    rw [distances, ← leastEdits_nil_right xs]
    cases bs <;> simp
  rw [hsplit as, hsplit (as ++ [a]), nextRow, hrow, List.length_append, List.length_singleton]

/-- After any number of rounds the row is that of what has been read. -/
theorem foldl_nextRow (done as bs : List α) :
    as.foldl (fun row a => nextRow a bs row) (distances done bs) = distances (done ++ as) bs := by
  induction as generalizing done with
  | nil => rw [List.foldl_nil, List.append_nil]
  | cons a as ih => rw [List.foldl_cons, nextRow_distances, ih, List.append_assoc, List.singleton_append]

theorem editDistance_eq_leastEdits (as bs : List α) : editDistance as bs = leastEdits as bs := by
  have hlast : (distances as bs).getLast? = some (leastEdits as bs) := by
    have hinits : bs.inits[bs.length]? = some bs := by
      rw [List.getElem?_eq_getElem (by simp), List.getElem_inits, List.take_length]
    rw [distances, List.getLast?_map, List.getLast?_eq_getElem?, List.length_inits, Nat.add_sub_cancel, hinits,
      Option.map_some]
  rw [editDistance, ← distances_nil, foldl_nextRow, List.nil_append, List.getLastD_eq_getLast?, hlast]
  rfl

end StyleTrack.Text
