import TemplateAnalysis.Position

namespace TemplateAnalysis

/-- Two byte offsets into a text, the second one exclusive. -/
structure Span where
  start : Nat
  stop : Nat
  deriving DecidableEq, Inhabited

/-- A named text. Offsets into it count UTF-8 bytes, positions count lines and UTF-16 units. -/
structure Source where
  name : String
  text : String
  deriving DecidableEq, Inhabited

namespace Source

/-- The characters of the text. -/
def chars (source : Source) : List Char :=
  source.text.toList

/-- The length of the text in bytes. -/
def size (source : Source) : Nat :=
  Text.byteLength source.chars

/-- The offsets at which lines begin, after the line that begins at the front. -/
def lineStartsAfter (offset : Nat) : List Char → List Nat
  | [] => []
  | c :: rest =>
    let next := offset + c.utf8Size
    if c = '\n' then next :: lineStartsAfter next rest else lineStartsAfter next rest

/-- The offsets at which the lines begin. A text that ends in a line feed has an empty last line. -/
def lineStarts (source : Source) : List Nat :=
  0 :: lineStartsAfter 0 source.chars

/-- The offset and the text from the beginning of a line on. -/
def fromLine (line offset : Nat) : List Char → Option (Nat × List Char)
  | [] => if line = 0 then some (offset, []) else none
  | c :: rest =>
    if line = 0 then some (offset, c :: rest)
    else fromLine (if c = '\n' then line - 1 else line) (offset + c.utf8Size) rest

/-- The characters of the first line of a text, without its line feed and without one carriage
    return before that. -/
def firstLine (text : List Char) : List Char :=
  let line := text.takeWhile (· ≠ '\n')
  if line.getLast? = some '\r' then line.dropLast else line

/-- The offset at which a line begins, with the characters of the line. -/
def line? (source : Source) (line : Nat) : Option (Nat × List Char) :=
  (fromLine line 0 source.chars).map fun (offset, text) => (offset, firstLine text)

/-- The text of a line without its ending; empty for a line that does not exist. -/
def lineText (source : Source) (line : Nat) : String :=
  match source.line? line with
  | some (_, text) => String.ofList text
  | none => ""

/-- The number of bytes of the shortest beginning of a line that has so many UTF-16 units. The
    whole line counts if it has fewer. -/
def bytesBefore : Nat → List Char → Nat
  | 0, _ => 0
  | _ + 1, [] => 0
  | units + 1, c :: rest => c.utf8Size + bytesBefore (units + 1 - Text.units16 c) rest

/-- The offset of a position. A column beyond the end of its line stands for the end, and a line
    beyond the last one has no offset. -/
def offsetAt (source : Source) (position : Position) : Option Nat :=
  (source.line? position.line).map fun (start, text) => start + bytesBefore position.character text

/-- The position that lies `count` bytes further on in a text. An offset inside a character counts
    as the beginning of its line, and one past the end as the end. -/
def positionFrom (position : Position) : Nat → List Char → Position
  | 0, _ => position
  | _ + 1, [] => position
  | count + 1, c :: rest =>
    if c.utf8Size ≤ count + 1 then positionFrom (position.after c) (count + 1 - c.utf8Size) rest
    else { position with character := 0 }

/-- The position of an offset. -/
def positionAt (source : Source) (offset : Nat) : Position :=
  positionFrom {} offset source.chars

/-- The range between the positions of two offsets. -/
def rangeOf (source : Source) (span : Span) : Range :=
  { start := source.positionAt span.start, stop := source.positionAt span.stop }

/-- The position at the end of the text. -/
def endPosition (source : Source) : Position :=
  (Place.past {} source.chars).position

/-- The line, the column in bytes and the text of the line of an offset, with line and column
    counted from one as diagnostics print them. -/
def location (source : Source) (offset : Nat) : Nat × Nat × String :=
  let offset := min offset source.size
  let starts := source.lineStarts.filter (· ≤ offset)
  (starts.length, offset - starts.getLastD 0 + 1, source.lineText (starts.length - 1))

end Source

/-- The text between the two offsets, empty where they do not cut a piece out of the text. -/
def Span.text (span : Span) (source : Source) : String :=
  String.ofList ((Text.slice? span.start span.stop source.chars).getD [])

end TemplateAnalysis
