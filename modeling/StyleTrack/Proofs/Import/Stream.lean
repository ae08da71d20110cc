/-
Streams. It does not matter how the contents of a file are cut into pieces, nor how often reading them is interrupted: a
stream is listed as the buffer of its bytes. A stream that breaks off is not listed at all, and nobody is asked about it.
-/
import StyleTrack.Import.Standard
import StyleTrack.File.Tree
import Mathlib

namespace StyleTrack

/-! ## Reading a stream -/

namespace Chunk

/-- The bytes that a read hands over. -/
def content : Chunk → List UInt8
  | bytes piece => piece
  | fault _ => []

/-- Whether reading goes on after a read: it gave some bytes, or it was interrupted. -/
def GoesOn : Chunk → Prop
  | bytes piece => piece ≠ []
  | fault f => f.kind = .interrupted

/-- Whether a stream is at its end: nothing is left of it, or the next read is empty. -/
def AtEnd : List Chunk → Prop
  | [] => True
  | c :: _ => c = bytes []

variable {c : Chunk} {chunks rest : List Chunk}

theorem readAll_cons_of_goesOn (h : c.GoesOn) (rest : List Chunk) :
    readAll (c :: rest) = (readAll rest).map (c.content ++ ·) := by
  cases c with
  | bytes piece =>
    obtain ⟨b, piece, rfl⟩ := List.exists_cons_of_ne_nil h
    rw [readAll, content]
    simp
  | fault f =>
    have hkind : f.kind = .interrupted := h
    rw [readAll, if_pos hkind]
    cases readAll rest <;> rfl

theorem readAll_append_of_goesOn (h : ∀ c ∈ chunks, c.GoesOn) (rest : List Chunk) :
    readAll (chunks ++ rest) = (readAll rest).map (chunks.flatMap content ++ ·) := by
  induction chunks with
  | nil => cases hrest : readAll rest <;> simp [hrest, Except.map]
  | cons c chunks ih =>
    rw [List.forall_mem_cons] at h
    rw [List.cons_append, readAll_cons_of_goesOn h.1, ih h.2]
    cases readAll rest <;> simp [Except.map]

theorem readAll_of_atEnd (h : AtEnd rest) : readAll rest = .ok [] := by
  cases rest with
  | nil => rw [readAll]
  | cons c rest =>
    obtain rfl : c = bytes [] := h
    rw [readAll]

theorem readAll_of_fault {f : IoFault} (h : f.kind ≠ .interrupted) (rest : List Chunk) :
    readAll (fault f :: rest) = .error f := by rw [readAll, if_neg h]

end Chunk

/-! ## The text of a stream -/

namespace Contents

open Chunk

variable {chunks rest : List Chunk}

theorem text_stream_of_atEnd (h : ∀ c ∈ chunks, c.GoesOn) (hend : AtEnd rest) :
    (stream (chunks ++ rest)).text = (buffer (chunks.flatMap content)).text := by
  have hread : readAll (chunks ++ rest) = .ok (chunks.flatMap content) := by
    rw [readAll_append_of_goesOn h, readAll_of_atEnd hend, Except.map, List.append_nil]
  simp only [text, bytes, hread]

theorem text_stream_of_fault (h : ∀ c ∈ chunks, c.GoesOn) {f : IoFault} (hf : f.kind ≠ .interrupted) :
    (stream (chunks ++ fault f :: rest)).text = .error f := by
  have hread : readAll (chunks ++ fault f :: rest) = .error f := by
    rw [readAll_append_of_goesOn h, readAll_of_fault hf, Except.map]
  simp only [text, bytes, hread]
  rfl

end Contents

/-! ## Listing a stream -/

namespace Lister

open Chunk

variable {l : Lister} {options : RenderOptions} {contents contents' : Contents}

theorem listWith_congr (h : contents.text = contents'.text) (path : Option Path) :
    l.listWith options (some ⟨path, some contents⟩) = l.listWith options (some ⟨path, some contents'⟩) := by
  cases path with
  | none => rfl
  | some root => simp only [listWith, h]

theorem listWith_of_text_error {fault : IoFault} (h : contents.text = .error fault) (root : Path) :
    l.listWith options (some ⟨some root, some contents⟩) = ⟨.error (.read root fault), {}⟩ := by
  rw [listWith, h]
  rfl

/-- However the bytes of a file are cut into pieces that are not empty, and however often reading them is interrupted, a
stream that comes to its end has the result, the questions to the locator and the diagnostics of the buffer of its bytes.
And where a read meets another fault, the listing fails with it: with every processor and every locator alike, and with
no question to the locator and no diagnostic. -/
theorem listWith_stream (l : Lister) (options : RenderOptions) {chunks : List Chunk} (h : ∀ c ∈ chunks, c.GoesOn) :
    (∀ (path : Option Path) (bytes : List UInt8) (rest : List Chunk), chunks.flatMap content = bytes → AtEnd rest →
        l.listWith options (some ⟨path, some (.stream (chunks ++ rest))⟩) =
          l.listWith options (some ⟨path, some (.buffer bytes)⟩)) ∧
      ∀ (root : Path) (f : IoFault) (rest : List Chunk), f.kind ≠ .interrupted →
        l.listWith options (some ⟨some root, some (.stream (chunks ++ fault f :: rest))⟩) =
          ⟨.error (.read root f), {}⟩ := by
  constructor
  · rintro path bytes rest rfl hend
    exact listWith_congr (Contents.text_stream_of_atEnd h hend) path
  · intro root f rest hf
    exact listWith_of_text_error (Contents.text_stream_of_fault h hf) root

/-- A style sheet that embeds a file with a name beyond ASCII, read in pieces of which one ends inside that name. -/
def embedding : List UInt8 := Text.Utf8.ofString "data-uri('é')"

def pieces : List Chunk := [.bytes (embedding.take 11), .fault ⟨.interrupted, ""⟩, .bytes (embedding.drop 11)]

/-- A file system with that file, and a processor that finds nothing to import. -/
def sole : Lister where
  processor _ _ _ := .ok ⟨[], []⟩
  locate base candidate _ := .ok (base.join (.ofString candidate))
  fs := FileTree.system ⟨.ofList [(.ofString "s/é", ⟨[], ⟨100, 0⟩⟩)], []⟩
  options := {}

/-- The stream that ends is listed with the embedded file, and the one that breaks off is not listed. -/
theorem listWith_stream_pieces : (∀ c ∈ pieces, c.GoesOn) ∧ pieces.flatMap content = embedding ∧
    AtEnd [.bytes [], .bytes [0xFF]] ∧ IoKind.permissionDenied ≠ .interrupted ∧
    (sole.listWith {} (some ⟨some (.ofString "s/a"), some (.stream (pieces ++ [.bytes [], .bytes [0xFF]]))⟩)).result =
      .ok [.ofString "s/é"] ∧
    sole.listWith {} (some ⟨some (.ofString "s/a"), some (.stream (pieces ++ [.fault ⟨.permissionDenied, "no"⟩]))⟩) =
      ⟨.error (.read (.ofString "s/a") ⟨.permissionDenied, "no"⟩), {}⟩ := by
  have hpieces : ∀ c ∈ pieces, c.GoesOn := by
    simp only [pieces, List.forall_mem_cons, GoesOn]
    exact ⟨by decide, trivial, by decide, by simp⟩
  have hbytes : pieces.flatMap content = embedding := by decide
  obtain ⟨hends, hbreaks⟩ := listWith_stream sole {} hpieces
  refine ⟨hpieces, hbytes, rfl, by decide, ?_, hbreaks _ _ [] (by decide)⟩
  rw [hends _ embedding [.bytes [], .bytes [0xFF]] hbytes rfl]
  cbv

end Lister

end StyleTrack
