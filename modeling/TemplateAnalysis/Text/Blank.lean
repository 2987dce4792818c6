import TemplateAnalysis.Text.CodePoints

namespace TemplateAnalysis.Text

/-- The code points with the Unicode property `White_Space`. -/
def blankCodePoints : CodePoints := [
  (0x9, 0xd), (0x20, 0x20), (0x85, 0x85), (0xa0, 0xa0), (0x1680, 0x1680), (0x2000, 0x200a),
  (0x2028, 0x2029), (0x202f, 0x202f), (0x205f, 0x205f), (0x3000, 0x3000)]

/-- Whether a character separates words. Core's class knows four of these characters only. -/
def isBlank (c : Char) : Bool :=
  blankCodePoints.contains c

/-- The text without the blanks at its beginning. -/
def trimStart (text : List Char) : List Char :=
  text.dropWhile isBlank

/-- The text without the blanks at its end. -/
def trimEnd (text : List Char) : List Char :=
  (text.reverse.dropWhile isBlank).reverse

/-- The text without the blanks at either end. -/
def trim (text : List Char) : List Char :=
  trimEnd (trimStart text)

end TemplateAnalysis.Text
