/-
JSON values: settings that are passed through without being looked at.

Whole numbers and fractions are different values even where they are numerically equal. The fields
of an object are kept in the order of their names.
-/
import StyleTrack.SortedMap

namespace StyleTrack

/-- A JSON value. -/
inductive Json where
  | null
  | bool (b : Bool)
  | whole (n : Int)
  | fraction (x : Float)
  | string (s : String)
  | array (items : List Json)
  | object (fields : List (String × Json))

namespace Json

/-- The object with the given fields; of two fields of one name the later one counts. -/
def ofFields (fields : List (String × Json)) : Json := object (SortedMap.ofList fields).entries

mutual

/-- Whether two values are equal. -/
def beq : Json → Json → Bool
  | null, null => true
  | bool a, bool b => a == b
  | whole a, whole b => a == b
  | fraction a, fraction b => a == b
  | string a, string b => a == b
  | array a, array b => beqItems a b
  | object a, object b => beqFields a b
  | _, _ => false

/-- Whether two lists of values are equal. -/
def beqItems : List Json → List Json → Bool
  | [], [] => true
  | a :: as, b :: bs => beq a b && beqItems as bs
  | _, _ => false

/-- Whether two lists of fields are equal. -/
def beqFields : List (String × Json) → List (String × Json) → Bool
  | [], [] => true
  | (k, a) :: as, (l, b) :: bs => k == l && beq a b && beqFields as bs
  | _, _ => false

end

instance : BEq Json := ⟨beq⟩

instance : Inhabited Json := ⟨null⟩

end Json

end StyleTrack
