import TemplateAnalysis.Position

namespace TemplateAnalysis.Template

/-- The words that head statements or act as operators. -/
inductive Keyword
  | forKw | endforKw | ifKw | elifKw | elseKw | endifKw | setKw | endsetKw | withKw | endwithKw
  | macroKw | endmacroKw | callKw | endcallKw | blockKw | endblockKw | filterKw | endfilterKw
  | rawKw | endrawKw | extendsKw | includeKw | importKw | fromKw | asKw | inKw | isKw | andKw | orKw
  | notKw | recursiveKw
  deriving DecidableEq, Inhabited

namespace Keyword

/-- The spelling of a keyword. -/
def text : Keyword → String
  | forKw => "for"
  | endforKw => "endfor"
  | ifKw => "if"
  | elifKw => "elif"
  | elseKw => "else"
  | endifKw => "endif"
  | setKw => "set"
  | endsetKw => "endset"
  | withKw => "with"
  | endwithKw => "endwith"
  | macroKw => "macro"
  | endmacroKw => "endmacro"
  | callKw => "call"
  | endcallKw => "endcall"
  | blockKw => "block"
  | endblockKw => "endblock"
  | filterKw => "filter"
  | endfilterKw => "endfilter"
  | rawKw => "raw"
  | endrawKw => "endraw"
  | extendsKw => "extends"
  | includeKw => "include"
  | importKw => "import"
  | fromKw => "from"
  | asKw => "as"
  | inKw => "in"
  | isKw => "is"
  | andKw => "and"
  | orKw => "or"
  | notKw => "not"
  | recursiveKw => "recursive"

/-- Every keyword, in the order of the list of spellings. -/
def all : List Keyword :=
  [forKw, endforKw, ifKw, elifKw, elseKw, endifKw, setKw, endsetKw, withKw, endwithKw, macroKw,
    endmacroKw, callKw, endcallKw, blockKw, endblockKw, filterKw, endfilterKw, rawKw, endrawKw,
    extendsKw, includeKw, importKw, fromKw, asKw, inKw, isKw, andKw, orKw, notKw, recursiveKw]

/-- The keyword with this spelling. -/
def ofText? (text : String) : Option Keyword :=
  all.find? (·.text == text)

/-- The keywords that an expression reserves. The other ones head statements only, so within an
    expression they are ordinary names. -/
def isOperator : Keyword → Bool
  | inKw | isKw | andKw | orKw | notKw | ifKw | elseKw | recursiveKw => true
  | _ => false

end Keyword

/-- Operators and punctuation inside a tag. -/
inductive Symbol
  | pipe | dot | comma | colon | tilde | leftParen | rightParen | leftBracket | rightBracket
  | leftBrace | rightBrace | assign | equal | notEqual | lessThan | lessEqual | greaterThan
  | greaterEqual | plus | minus | star | starStar | slash | slashSlash | percent
  deriving DecidableEq, Inhabited

/-- The spelling of a symbol. -/
def Symbol.text : Symbol → String
  | pipe => "|"
  | dot => "."
  | comma => ","
  | colon => ":"
  | tilde => "~"
  | leftParen => "("
  | rightParen => ")"
  | leftBracket => "["
  | rightBracket => "]"
  | leftBrace => "\x7b"
  | rightBrace => "\x7d"
  | assign => "="
  | equal => "=="
  | notEqual => "!="
  | lessThan => "<"
  | lessEqual => "<="
  | greaterThan => ">"
  | greaterEqual => ">="
  | plus => "+"
  | minus => "-"
  | star => "*"
  | starStar => "**"
  | slash => "/"
  | slashSlash => "//"
  | percent => "%"

/-- The two forms of a tag: one prints a value, the other one is a statement. -/
inductive TagForm
  | expression
  | statement
  deriving DecidableEq, Inhabited

/-- What a token is. Tags hold words, literals and symbols; the text around tags is one token. -/
inductive TokenKind
  | endOfFile
  | unknown
  | text
  | tagBegin (form : TagForm)
  | tagEnd (form : TagForm)
  | identifier
  | integer
  | float
  | string
  | keyword (word : Keyword)
  | symbol (mark : Symbol)
  deriving DecidableEq, Inhabited

namespace TokenKind

/-- How messages call a kind of token. -/
def label : TokenKind → String
  | endOfFile => "end of file"
  | unknown => "error"
  | text => "Text"
  | tagBegin .expression => "ExprBegin"
  | tagEnd .expression => "ExprEnd"
  | tagBegin .statement => "StmtBegin"
  | tagEnd .statement => "StmtEnd"
  | identifier => "Identifier"
  | integer => "Integer"
  | float => "Float"
  | string => "StringLiteral"
  | keyword word => word.text
  | symbol mark => mark.text

/-- Whether the token is a keyword. -/
def isKeyword : TokenKind → Bool
  | keyword _ => true
  | _ => false

/-- Whether the token can be a name. -/
def isWord : TokenKind → Bool
  | identifier | keyword _ => true
  | _ => false

/-- Whether the token is a keyword that an expression reserves. -/
def isOperatorKeyword : TokenKind → Bool
  | keyword word => word.isOperator
  | _ => false

/-- Whether the token is a name that a statement can declare. -/
def isName (kind : TokenKind) : Bool :=
  kind.isWord && !kind.isOperatorKeyword

/-- Whether the token opens a tag. -/
def isTagBegin : TokenKind → Bool
  | tagBegin _ => true
  | _ => false

/-- Whether the token closes a tag. -/
def isTagEnd : TokenKind → Bool
  | tagEnd _ => true
  | _ => false

/-- Whether the token can stand between the two ends of a tag. -/
def isInsideTag (kind : TokenKind) : Bool :=
  !(kind == endOfFile || kind.isTagEnd || kind.isTagBegin)

end TokenKind

/-- A piece of a document that has a text and a range of its own. -/
structure Name where
  text : String
  range : Range
  deriving DecidableEq, Inhabited

/-- The text without one quote mark at the front and then one at the back. The two marks need not
    agree, so an unfinished literal loses its only mark. -/
def unquote (text : List Char) : List Char :=
  let isQuote := fun (c : Char) => c = '"' || c = '\''
  let body :=
    match text with
    | c :: rest => if isQuote c then rest else text
    | [] => []
  if body.getLast?.any isQuote then body.dropLast else body

/-- A token, with the place at which it begins and its text. -/
structure Token where
  kind : TokenKind
  start : Place
  text : String
  deriving DecidableEq, Inhabited

namespace Token

/-- The place at which the token ends. -/
def stop (token : Token) : Place :=
  token.start.past token.text.toList

/-- The range of the token. -/
def range (token : Token) : Range :=
  token.start.rangeOf token.text.toList

/-- The token as a name. -/
def name (token : Token) : Name :=
  { text := token.text, range := token.range }

/-- What stands between the quote marks of a string literal. -/
def content (token : Token) : Name :=
  let text := token.text.toList
  let opening := text.take 1 |>.filter fun c => c = '"' || c = '\''
  let inner := unquote text
  { text := String.ofList inner, range := (token.start.past opening).rangeOf inner }

end Token

end TemplateAnalysis.Template
