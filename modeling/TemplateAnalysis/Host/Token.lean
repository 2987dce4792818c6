import TemplateAnalysis.Host.Quoted
import TemplateAnalysis.Identifier

namespace TemplateAnalysis.Host

/-- The coarse classes of tokens of a host language. -/
inductive TokenKind
  | word
  | string
  | number
  | punctuation
  deriving DecidableEq, Inhabited

/-- A token of a program, with the place at which it begins and its text. -/
structure Token where
  kind : TokenKind
  start : Place
  text : String
  deriving DecidableEq, Inhabited

namespace Token

/-- Whether a token is this operator or mark. -/
def isMark (kind : TokenKind) (text mark : String) : Bool :=
  kind == .punctuation && text == mark

/-- Whether the token is this operator or mark. -/
def isPunctuation (token : Token) (mark : String) : Bool :=
  isMark token.kind token.text mark

/-- The word of the token as an identifier. -/
def identifier (token : Token) (kind : IdentifierKind) : Identifier :=
  { range := token.start.rangeOf token.text.toList, name := token.text, kind }

/-- The content of a string literal as an identifier. -/
def contentIdentifier (token : Token) (kind : IdentifierKind) : Identifier :=
  let text := token.text.toList
  let content := Quoted.content text
  { range := (token.start.past (Quoted.opening text)).rangeOf content
    name := String.ofList content, kind }

/-- Whether a bracket opens here. -/
def opensBracket (token : Token) : Bool :=
  token.text == "(" || token.text == "[" || token.text == "\x7b"

/-- Whether a bracket closes here. -/
def closesBracket (token : Token) : Bool :=
  token.text == ")" || token.text == "]" || token.text == "\x7d"

end Token

end TemplateAnalysis.Host
