import TreeCorpus.Disk.Basic

/-!
# Lines of a file

The lines of what a file holds. A line of bytes that is not the encoding of a text is kept as
none, so the lines before it can still be read.
-/

namespace TreeCorpus

/-- The bytes between the line feeds; nothing after the last line feed is no line. -/
def byteLines (bytes : List UInt8) : List (List UInt8) :=
  let ps := Text.pieces (· == 10) bytes
  if ps.getLast? = some [] then ps.dropLast else ps

def Content.lines : Content → List (Option String)
  | text s => (Text.lines s).map some
  | binary bytes => (byteLines bytes).map fun line => String.fromUTF8? ⟨line.toArray⟩

end TreeCorpus
