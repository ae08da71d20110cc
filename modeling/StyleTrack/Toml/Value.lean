/-
Values of TOML documents.

The entries of a table are kept in the order in which the document introduces them. A date or time
counts as a table with one entry under a key of its own, and a table that begins with such an entry
counts as a date or time.
-/
import StyleTrack.Toml.Datetime.Parser

namespace StyleTrack.Toml

/-- A value. -/
inductive Value where
  | string (s : String)
  | integer (n : Int)
  | float (x : Float)
  | boolean (b : Bool)
  | datetime (d : Datetime)
  | array (items : List Value)
  | table (entries : List (String × Value))

/-- The least number above zero that is too great for a whole number, which has 64 bits with a sign. -/
def integerLimit : Nat := 0x8000000000000000

/-- A table. -/
abbrev Table := List (String × Value)

/-- The value under a key. -/
def Table.get? (t : Table) (key : String) : Option Value := t.lookup key

/-- The key under which a date or time counts as the entry of a table. -/
def datetimeKey : String := "$__toml_private_datetime"

/-- The entries of a value that is a table; a date or time counts as a table with one entry. -/
def Value.entries? : Value → Option Table
  | table entries => some entries
  | datetime d => some [(datetimeKey, string d.text)]
  | _ => none

/-- The text of a value that is a string. -/
def Value.string? : Value → Option String
  | string s => some s
  | _ => none

/-- The date or time under `datetimeKey`. -/
def Value.datetimeText? (v : Value) : Option Datetime := do Datetime.ofText? (← v.string?).toList

mutual

/-- The value with dates and times in place of the tables that count as such. There is none if what
stands under `datetimeKey` is no text of a date or time. -/
def Value.withDatetimes? : Value → Option Value
  | array items => do return array (← Value.itemsWithDatetimes? items)
  | table [] => some (table [])
  | table ((key, v) :: rest) =>
    if key = datetimeKey then do return datetime (← v.datetimeText?)
    else do return table ((key, ← v.withDatetimes?) :: (← Value.entriesWithDatetimes? rest))
  | v => some v

/-- The items of an array with dates and times in place of the tables that count as such. -/
def Value.itemsWithDatetimes? : List Value → Option (List Value)
  | [] => some []
  | v :: rest => do return (← v.withDatetimes?) :: (← Value.itemsWithDatetimes? rest)

/-- The entries of a table with dates and times in place of the tables that count as such. -/
def Value.entriesWithDatetimes? : Table → Option Table
  | [] => some []
  | (key, v) :: rest => do return (key, ← v.withDatetimes?) :: (← Value.entriesWithDatetimes? rest)

end

end StyleTrack.Toml
