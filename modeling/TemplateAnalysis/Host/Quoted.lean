import TemplateAnalysis.Source

namespace TemplateAnalysis.Host.Quoted

/-- Whether a character is a quote mark. -/
def isQuote (c : Char) : Bool :=
  c == '"' || c == '\''

/-- What stands before the first quote mark of a literal; nothing if it has none. -/
def modifiers (text : List Char) : List Char :=
  if text.any isQuote then text.takeWhile (fun c => !isQuote c) else []

/-- The quote mark that opens a literal: three characters or one. -/
def mark (text : List Char) : List Char :=
  let body := text.drop (modifiers text).length
  if ['"', '"', '"'].isPrefixOf body || ['\'', '\'', '\''].isPrefixOf body then body.take 3
  else body.take 1

/-- Everything before the content of a literal. -/
def opening (text : List Char) : List Char :=
  modifiers text ++ mark text

/-- The mark that closes a literal: the quote mark again, and as many hash signs as there are before
    it. An unfinished literal has none. -/
def closing (text : List Char) : List Char :=
  let expected := mark text ++ (modifiers text).filter (· == '#')
  if expected.isSuffixOf (text.drop (opening text).length) then expected else []

/-- The content of a literal. -/
def content (text : List Char) : List Char :=
  let body := text.drop (opening text).length
  body.take (body.length - (closing text).length)

/-- The offsets of the content of a literal that stands at the given offsets. -/
def contentSpan (span : Span) (text : List Char) : Span :=
  let start := span.start + Text.byteLength (opening text)
  { start, stop := max (span.stop - Text.byteLength (closing text)) start }

end TemplateAnalysis.Host.Quoted
