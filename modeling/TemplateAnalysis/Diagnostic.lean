import TemplateAnalysis.Identifier
import TemplateAnalysis.Source
import TemplateAnalysis.Text.Blank

namespace TemplateAnalysis.Diagnostic

/-- A text of some length that repeats one character. -/
def repeated (count : Nat) (c : Char) : String :=
  String.ofList (List.replicate count c)

/-- A line number, with blanks before it up to three places. -/
def gutter (line : Nat) : String :=
  let digits := toString line
  repeated (3 - digits.length) ' ' ++ digits

/-- A message about the offsets of a part of a source, with the line that it is on and carets below
    that part. There is a caret at least, and none beyond the line. -/
def atOffsets (source : Source) (start stop : Nat) (message : String) : String :=
  let (line, column, text) := source.location start
  let room := max (Text.byteLength text.toList - (column - 1)) 1
  let carets := if start < stop then min (stop - start) room else 1
  message ++ "\n  --> " ++ source.name ++ ":" ++ toString line ++ ":" ++ toString column ++
    "\n   |\n" ++ gutter line ++ "| " ++ String.ofList (Text.trimEnd text.toList) ++
    "\n   | " ++ repeated (column - 1) ' ' ++ repeated carets '^'

/-- A message about a range of a source. A range outside of the source is only told. -/
def atRange (source : Source) (range : Range) (message : String) : String :=
  match source.offsetAt range.start, source.offsetAt range.stop with
  | some start, some stop => atOffsets source start stop message
  | _, _ =>
    message ++ " (at Position \x7b line: " ++ toString range.start.line ++ ", character: " ++
      toString range.start.character ++ " \x7d)"

/-- The diagnostic of a reference that has no declaration. -/
def ofUndefined (source : Source) (identifier : Identifier) : String :=
  atRange source identifier.range ("Error: " ++ identifier.error.getD "undefined variable")

end TemplateAnalysis.Diagnostic
