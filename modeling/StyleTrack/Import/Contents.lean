/-
The contents of a style sheet, as one buffer or as a stream of pieces.

A stream is read until it ends, and only then decoded, so it does not matter where the pieces are
cut. A read that is interrupted is tried again; any other fault ends the reading.
-/
import StyleTrack.File.Error

namespace StyleTrack

/-! ## Streams -/

/-- What one read of a stream gives. -/
inductive Chunk where
  /-- Some bytes; none at all are the end of the stream. -/
  | bytes (bytes : List UInt8)
  /-- A fault. -/
  | fault (fault : IoFault)
deriving DecidableEq, Repr

/-- The bytes of a stream up to its end. -/
def Chunk.readAll : List Chunk → Except IoFault (List UInt8)
  | [] | .bytes [] :: _ => .ok []
  | .bytes piece :: rest => (readAll rest).map (piece ++ ·)
  | .fault f :: rest => if f.kind = .interrupted then readAll rest else .error f

/-! ## Contents -/

/-- The contents of a file. -/
inductive Contents where
  | buffer (bytes : List UInt8)
  | stream (chunks : List Chunk)
deriving DecidableEq, Repr

namespace Contents

/-- The bytes of the contents. -/
def bytes : Contents → Except IoFault (List UInt8)
  | buffer bytes => .ok bytes
  | stream chunks => Chunk.readAll chunks

/-- The text of the contents. -/
def text (c : Contents) : Except IoFault (List Char) := do
  (Text.Utf8.decode (← c.bytes)).mapError .ofUtf8

/-- What can be said about contents without reading them. -/
def describe : Contents → String
  | buffer bytes => s!"Buffer({bytes.length})"
  | stream _ => "Stream(..)"

end Contents

/-- A style sheet that enters the pipeline; either part may be missing as yet. -/
structure Stylesheet where
  path : Option Path := none
  contents : Option Contents := none
deriving DecidableEq, Repr

end StyleTrack
