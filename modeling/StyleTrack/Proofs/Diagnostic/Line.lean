/-
The lines of a sink that prints messages. A message holds the texts of its diagnostic as they are, so a
newline in one of them ends the line early: there is a line more for each newline, and only the first
line of a diagnostic has the label in front.
-/
import StyleTrack.Diagnostic.Sink
import StyleTrack.Proofs.Text.Line
import StyleTrack.Proofs.Text.Utf8

namespace StyleTrack

open Text (lines? lines?_flatMap_splitOn length_splitOn splitOn_append_of_notMem)

/-! ## Diagnostics on one line -/

/-- The byte of a newline. -/
def Sink.newline : UInt8 := 0x0A

namespace Diagnostic

open Sink (newline)

/-- Whether no path and no text of a diagnostic holds a newline. -/
def IsOneLine : Diagnostic → Prop
  | importNotFound path => newline ∉ path.bytes
  | evidenceUnavailable path reason => newline ∉ path.bytes ∧ '\n' ∉ reason.toList
  | cacheEntryUnreadable root reason => newline ∉ root.bytes ∧ '\n' ∉ reason.toList
  | unknownKey key file suggestion =>
    '\n' ∉ key.toList ∧ newline ∉ file.bytes ∧ ∀ s ∈ suggestion, '\n' ∉ s.toList

theorem newline_mem_display {p : Path} : '\n' ∈ p.display.toList ↔ newline ∈ p.bytes := by
  rw [Path.display, Text.Utf8.toStringLossy, String.toList_ofList, Text.Utf8.mem_decodeLossy_iff (by decide)]
  rfl

/-- A message has the newlines of what it shows, and none of its own. -/
theorem isOneLine_iff {d : Diagnostic} : d.IsOneLine ↔ '\n' ∉ d.message.toList := by
  unfold IsOneLine message hint
  cases d with
  | importNotFound path => simp [← newline_mem_display, toString]
  | evidenceUnavailable path reason => simp [← newline_mem_display, toString]
  | cacheEntryUnreadable root reason => simp [← newline_mem_display, toString]
  | unknownKey key file suggestion => cases suggestion <;> simp [← newline_mem_display, toString]

end Diagnostic

namespace Sink

/-! ## Lines of a sink -/

/-- What stands in front of a message. -/
def opening : Option String → List Char
  | none => []
  | some label => '[' :: label.toList ++ [']', ' ']

theorem toList_line_plain (label : Option String) (d : Diagnostic) :
    ((plain label).line d).toList = opening label ++ d.message.toList ++ ['\n'] := by
  cases label <;> simp [line, opening, toString]

theorem toList_output (sink : Sink) (ds : List Diagnostic) :
    (sink.output ds).toList = ds.flatMap fun d => (sink.line d).toList := by
  rw [output, String.toList_join, List.flatMap_map]

theorem newline_notMem_opening {label : Option String} (h : ∀ l ∈ label, '\n' ∉ l.toList) : '\n' ∉ opening label := by
  cases label with
  | none => simp [opening]
  | some label => simpa [opening] using h label rfl

/-- The lines of messages, the first line of each behind the label. -/
def messageLines (label : Option String) (ds : List Diagnostic) : List (List Char) :=
  ds.flatMap fun d => (d.message.toList.splitOn '\n').modifyHead (opening label ++ ·)

theorem lines?_output_plain {label : Option String} (h : ∀ l ∈ label, '\n' ∉ l.toList) (ds : List Diagnostic) :
    lines? '\n' ((plain label).output ds).toList = some (messageLines label ds) := by
  rw [toList_output]
  simp only [toList_line_plain]
  rw [lines?_flatMap_splitOn]
  simp only [splitOn_append_of_notMem (newline_notMem_opening h)]
  rfl

theorem length_messageLines (label : Option String) (ds : List Diagnostic) :
    (messageLines label ds).length = ds.length + (ds.map fun d => d.message.toList.count '\n').sum := by
  induction ds with
  | nil => rfl
  | cons d ds ih =>
    rw [messageLines, List.flatMap_cons, List.length_append, ← messageLines, ih, List.length_modifyHead,
      length_splitOn, List.length_cons, List.map_cons, List.sum_cons]
    omega

theorem messageLines_of_isOneLine (label : Option String) {ds : List Diagnostic} (h : ∀ d ∈ ds, d.IsOneLine) :
    messageLines label ds = ds.map fun d => opening label ++ d.message.toList := by
  rw [List.map_eq_flatMap]
  refine List.flatMap_congr fun d hd => ?_
  rw [List.splitOn_eq_singleton (Diagnostic.isOneLine_iff.1 (h d hd))]
  rfl

/-- A sink with a label prints the lines of the messages, which is a line for each diagnostic and one more for each
newline in a message. There is one for each diagnostic, with the label in front of each, exactly if no path and no
text of a diagnostic holds a newline; then the lines are the messages behind the label. -/
theorem plain_lines {label : Option String} (h : ∀ l ∈ label, '\n' ∉ l.toList) (ds : List Diagnostic) :
    lines? '\n' ((plain label).output ds).toList = some (messageLines label ds) ∧
      (messageLines label ds).length = ds.length + (ds.map fun d => d.message.toList.count '\n').sum ∧
      (List.Forall₂ (fun _ line => opening label <+: line) ds (messageLines label ds) ↔ ∀ d ∈ ds, d.IsOneLine) ∧
      ((∀ d ∈ ds, d.IsOneLine) → messageLines label ds = ds.map fun d => opening label ++ d.message.toList) := by
  refine ⟨lines?_output_plain h ds, length_messageLines label ds, ⟨fun hlabelled d hd => ?_, fun hall => ?_⟩,
    messageLines_of_isOneLine label⟩
  · have hsum : (ds.map fun d => d.message.toList.count '\n').sum = 0 := by
      have hsame := hlabelled.length_eq
      rw [length_messageLines] at hsame
      omega
    rw [List.sum_eq_zero_iff, List.forall_mem_map] at hsum
    exact Diagnostic.isOneLine_iff.2 (List.count_eq_zero.1 (hsum d hd))
  · rw [messageLines_of_isOneLine label hall, List.forall₂_map_right_iff, List.forall₂_same]
    exact fun d _ => List.prefix_append _ _

/-- A cache entry that is refused for a reason of two lines. -/
def wrapped : Diagnostic := .cacheEntryUnreadable (.ofString "/s/main.less") "bad\nentry"

/-- The second line of the reason is a line of its own, without the label. -/
theorem plain_lines_wrapped : (∀ l ∈ some "lessdeps", '\n' ∉ l.toList) ∧
    lines? '\n' ((plain (some "lessdeps")).output [wrapped]).toList =
      some ["[lessdeps] Ignoring cache entry for '/s/main.less': bad".toList, "entry".toList] ∧
    ¬List.Forall₂ (fun _ line => opening (some "lessdeps") <+: line) [wrapped]
      ["[lessdeps] Ignoring cache entry for '/s/main.less': bad".toList, "entry".toList] := by
  have hlabel : ∀ l ∈ some "lessdeps", '\n' ∉ l.toList := by
    rintro l ⟨⟩
    decide
  have hroot : (Path.ofString "/s/main.less").display = "/s/main.less" := Text.Utf8.toStringLossy_ofString _
  have hmessage : wrapped.message = "Ignoring cache entry for '/s/main.less': bad\nentry" := by
    unfold wrapped Diagnostic.message
    dsimp only
    rw [hroot]
    rfl
  have hlines : messageLines (some "lessdeps") [wrapped] =
      ["[lessdeps] Ignoring cache entry for '/s/main.less': bad".toList, "entry".toList] := by
    rw [messageLines, List.flatMap_singleton, hmessage]
    decide
  obtain ⟨hread, -, hiff, -⟩ := plain_lines hlabel [wrapped]
  rw [hlines] at hread hiff
  exact ⟨hlabel, hread, fun hlabelled => (hiff.1 hlabelled wrapped List.mem_cons_self).2 (by decide)⟩

end Sink

end StyleTrack
