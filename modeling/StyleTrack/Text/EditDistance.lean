/-
The edit distance of two sequences: the least number of insertions, deletions and substitutions of
one element that turn the first into the second. It is computed row by row: row `i` holds the
distances of the first `i` elements of the one sequence to every beginning of the other.
-/

namespace StyleTrack.Text

/-- The cells of the next row after its first cell, which is `left`. The cell above the first one is
`diagonal` and the cells above the others are `above`. -/
def editRow {α : Type} [DecidableEq α] (a : α) :
    List α → (left diagonal : Nat) → (above : List Nat) → List Nat
  | b :: bs, left, diagonal, up :: above =>
    let cell := min (min (up + 1) (left + 1)) (diagonal + if a = b then 0 else 1)
    cell :: editRow a bs cell up above
  | _, _, _, _ => []

/-- The row that follows `row` when one more element is read. -/
def nextRow {α : Type} [DecidableEq α] (a : α) (bs : List α) : List Nat → List Nat
  | [] => []
  | first :: rest => (first + 1) :: editRow a bs (first + 1) first rest

/-- The edit distance of two sequences, at cost one for each step. -/
def editDistance {α : Type} [DecidableEq α] (as bs : List α) : Nat :=
  (as.foldl (fun row a => nextRow a bs row) (List.range (bs.length + 1))).getLastD 0

end StyleTrack.Text
