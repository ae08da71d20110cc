/-
The lines of a sink that prints objects. Whatever a diagnostic holds is escaped, so that each line is a
JSON document of its own, which says of its diagnostic what it is and what it is about.
-/
import StyleTrack.Proofs.Diagnostic.Line
import StyleTrack.Proofs.Json.Document
import Mathlib.Data.String.Basic

namespace StyleTrack

open Json (Document)
open Text (lines?)

/-! ## What a line says -/

/-- A text, or null where there is none. -/
def Json.Document.ofOption : Option String → Document
  | some text => .string text
  | none => .null

/-- What is said about a diagnostic: its kind, its message, and everything that it holds, in the order of the
names. -/
def Diagnostic.members (d : Diagnostic) : List (String × Document) :=
  match d with
  | importNotFound path =>
    [("event", .string "import_not_found"), ("message", .string d.message), ("path", .string path.display)]
  | evidenceUnavailable path reason =>
    [("event", .string "evidence_unavailable"), ("message", .string d.message), ("path", .string path.display),
      ("reason", .string reason)]
  | cacheEntryUnreadable root reason =>
    [("event", .string "cache_entry_unreadable"), ("message", .string d.message), ("reason", .string reason),
      ("root", .string root.display)]
  | unknownKey key file suggestion =>
    [("event", .string "config_warning"), ("file", .string file.display), ("key", .string key),
      ("message", .string d.message), ("suggestion", .ofOption suggestion)]

theorem Diagnostic.pairwise_members (d : Diagnostic) : d.members.Pairwise fun a b => a.1 < b.1 := by
  have hnames : ∀ names : List String, d.members.map Prod.fst = names → names.Pairwise (· < ·) →
      d.members.Pairwise fun a b => a.1 < b.1 := by
    rintro names rfl h
    exact List.pairwise_map.1 h
  cases d with
  | importNotFound => exact hnames ["event", "message", "path"] rfl (by decide)
  | evidenceUnavailable => exact hnames ["event", "message", "path", "reason"] rfl (by decide)
  | cacheEntryUnreadable => exact hnames ["event", "message", "reason", "root"] rfl (by decide)
  | unknownKey => exact hnames ["event", "file", "key", "message", "suggestion"] rfl (by decide)

namespace Sink

theorem members_eq_map_fields (d : Diagnostic) : d.members = (fields d).map fun f => (f.1, .ofOption f.2) := by
  cases d <;> rfl

/-- What stands behind the colon of a field. -/
def fieldValue (f : String × Option String) : List Char :=
  match f.2 with
  | some text => Json.quoted text.toList
  | none => ['n', 'u', 'l', 'l']

theorem value_fieldValue (f : String × Option String) (depth : Nat) (rest : List Char) :
    Json.Reader.value (depth + 1) (fieldValue f ++ rest) = some (.ofOption f.2, rest) := by
  obtain ⟨name, _ | text⟩ := f
  · exact Json.Reader.value_null depth rest
  · have hread := Json.Reader.value_quoted depth text.toList rest
    rwa [String.ofList_toList] at hread

theorem fields_ne_nil (d : Diagnostic) : fields d ≠ [] := by
  cases d <;> simp [fields]

theorem read?_object (d : Diagnostic) : Document.read? (object d) = some (.object d.members) := by
  refine Document.read?_of_value ?_
  rw [members_eq_map_fields]
  exact Json.Reader.value_object (fields_ne_nil d) (fun f _ => value_fieldValue f) _ []

/-! ## Lines of a sink -/

theorem le_of_mem_fieldValue {f : String × Option String} {c : Char} (h : c ∈ fieldValue f) : ' ' ≤ c := by
  obtain ⟨name, _ | text⟩ := f
  · simp only [fieldValue, List.mem_cons, List.not_mem_nil, or_false] at h
    rcases h with rfl | rfl | rfl | rfl <;> decide
  · exact Json.le_of_mem_quoted h

theorem le_of_mem_field {f : String × Option String} {c : Char} (h : c ∈ field f) : ' ' ≤ c := by
  have hfield : field f = Json.quoted f.1.toList ++ ':' :: fieldValue f := rfl
  rw [hfield, List.mem_append, List.mem_cons] at h
  rcases h with h | rfl | h
  · exact Json.le_of_mem_quoted h
  · decide
  · exact le_of_mem_fieldValue h

/-- No control character is part of an object, so that no newline is. -/
theorem le_of_mem_object {d : Diagnostic} {c : Char} (h : c ∈ object d) : ' ' ≤ c := by
  rw [object, List.mem_cons, List.mem_append, List.mem_singleton] at h
  rcases h with rfl | h | rfl
  · decide
  · rcases Text.mem_of_mem_intercalate h with h | ⟨t, ht, hc⟩
    · rw [List.mem_singleton.1 h]
      decide
    · obtain ⟨f, -, rfl⟩ := List.mem_map.1 ht
      exact le_of_mem_field hc
  · decide

theorem newline_notMem_encode_object (d : Diagnostic) : newline ∉ Text.Utf8.encode (object d) := by
  intro h
  exact absurd (le_of_mem_object ((Text.Utf8.mem_encode_iff (d := '\n') (by decide)).1 h)) (by decide)

/-- In bytes, each object has a newline behind it. -/
theorem ofString_output_json (ds : List Diagnostic) : Text.Utf8.ofString (json.output ds) =
    (ds.map fun d => Text.Utf8.encode (object d)).flatMap (· ++ [newline]) := by
  rw [Text.Utf8.ofString, toList_output, Text.Utf8.encode_flatMap, List.flatMap_map]
  simp only [line, String.toList_ofList, Text.Utf8.encode_append]
  rfl

/-- A sink for objects prints a line for each diagnostic, in their order. Each line is the JSON document of an
object whose members are what the diagnostic holds, each under its name and in the order of the names. -/
theorem json_lines (ds : List Diagnostic) : ∃ lines,
    lines? newline (Text.Utf8.ofString (json.output ds)) = some lines ∧ lines.length = ds.length ∧
      List.Forall₂ (fun d line => Document.ofBytes? line = some (.object d.members)) ds lines ∧
      ∀ d ∈ ds, d.members.Pairwise fun a b => a.1 < b.1 := by
  refine ⟨ds.map fun d => Text.Utf8.encode (object d), ?_, List.length_map _, ?_, fun d _ => d.pairwise_members⟩
  · refine Text.lines?_eq_some_iff.2 ⟨ofString_output_json ds, List.forall_mem_map.2 fun d _ => ?_⟩
    exact newline_notMem_encode_object d
  · rw [List.forall₂_map_right_iff, List.forall₂_same]
    intro d _
    rw [Document.ofBytes?, Text.Utf8.decode_encode]
    exact read?_object d

end Sink

end StyleTrack
