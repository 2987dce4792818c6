import TemplateAnalysis.Template.Token
import TemplateAnalysis.Text.Blank
import TemplateAnalysis.Text.Numeric
import TemplateAnalysis.Text.Search

namespace TemplateAnalysis.Template

namespace Lexer

/-- What is being read: the text around tags, or the inside of a tag of some form with the number
    of braces that are open in it. -/
inductive Mode
  | data
  | code (form : TagForm) (depth : Nat)
  deriving DecidableEq, Inhabited

/-- One piece of the input: the kind of token that it makes, or no kind if it is skipped, the number
    of its characters after the first one, and the mode after it. A piece has a first character, so
    reading goes forward. -/
structure Piece where
  kind : Option TokenKind
  more : Nat
  next : Mode
  deriving DecidableEq, Inhabited

/-- Whether a name can begin with this character. -/
def isNameStart (c : Char) : Bool :=
  Text.isAlphabetic c || c == '_'

/-- Whether a name can go on with this character. -/
def isNamePart (c : Char) : Bool :=
  Text.isAlphanumeric c || c == '_'

/-- Whether a tag or a comment opens here. -/
def opensTag : List Char → Bool
  | '{' :: c :: _ => c == '{' || c == '%' || c == '#'
  | _ => false

/-- The number of characters before the next tag or comment. -/
def textLength : List Char → Nat
  | [] => 0
  | c :: rest => if opensTag (c :: rest) then 0 else textLength rest + 1

/-- Whether the text begins with a mark of white space control. -/
def signLength : List Char → Nat
  | c :: _ => if c = '-' ∨ c = '+' then 1 else 0
  | [] => 0

/-- The piece at a character outside of tags. A comment runs through the next closing mark, which
    may share the hash sign of its opening, or to the end of the input. -/
def dataPiece (c : Char) (rest : List Char) : Piece :=
  match c, rest with
  | '{', '#' :: _ =>
    { kind := none, more := Text.lengthThrough ['#', '}'] rest, next := .data }
  | '{', '{' :: inner =>
    { kind := some (.tagBegin .expression), more := 1 + signLength inner
      next := .code .expression 0 }
  | '{', '%' :: inner =>
    { kind := some (.tagBegin .statement), more := 1 + signLength inner
      next := .code .statement 0 }
  | _, _ => { kind := some .text, more := textLength rest, next := .data }

/-- The number of characters of the closing mark of a tag, if one stands here. A statement ends at
    its mark whatever braces are open; in an expression the braces must balance. -/
def closerLength? (form : TagForm) (depth : Nat) (text : List Char) : Option Nat :=
  let sign := signLength text
  match form, text.drop sign with
  | .statement, '%' :: '}' :: _ => some (sign + 2)
  | .expression, '}' :: '}' :: _ => if depth = 0 then some (sign + 2) else none
  | _, _ => none

/-- Whether a number goes on with this character. -/
def isDigitPart (c : Char) : Bool :=
  c.isDigit || c == '_'

/-- The number of digits and underscores that the text begins with. -/
def digitsLength (text : List Char) : Nat :=
  (text.takeWhile isDigitPart).length

/-- The number of characters of a fraction. A point that no digit follows is an attribute access. -/
def fractionLength : List Char → Nat
  | '.' :: d :: rest => if d.isDigit then 1 + digitsLength (d :: rest) else 0
  | _ => 0

/-- The number of characters of an exponent. -/
def exponentLength : List Char → Nat
  | e :: rest =>
    let sign := signLength rest
    if (e = 'e' ∨ e = 'E') ∧ (rest.drop sign).head?.any Char.isDigit then
      1 + sign + digitsLength (rest.drop sign)
    else 0
  | [] => 0

/-- The number of characters of a string literal after its opening quote mark. An escape may hide
    any character; a line feed ends an unfinished literal, so that it does not take in the rest of
    the document. -/
def stringLength (quote : Char) : List Char → Nat
  | [] => 0
  | '\\' :: [] => 1
  | '\\' :: _ :: rest => 2 + stringLength quote rest
  | c :: rest =>
    if c = '\n' then 0 else if c = quote then 1 else 1 + stringLength quote rest

/-- The symbol of one character. -/
def symbol? : Char → Option Symbol
  | '(' => some .leftParen
  | ')' => some .rightParen
  | '[' => some .leftBracket
  | ']' => some .rightBracket
  | '{' => some .leftBrace
  | '}' => some .rightBrace
  | '|' => some .pipe
  | '.' => some .dot
  | ',' => some .comma
  | ':' => some .colon
  | '~' => some .tilde
  | '+' => some .plus
  | '-' => some .minus
  | '%' => some .percent
  | '*' => some .star
  | '/' => some .slash
  | '=' => some .assign
  | '<' => some .lessThan
  | '>' => some .greaterThan
  | _ => none

/-- The symbol of two characters. -/
def doubleSymbol? : Char → Char → Option Symbol
  | '*', '*' => some .starStar
  | '/', '/' => some .slashSlash
  | '=', '=' => some .equal
  | '<', '=' => some .lessEqual
  | '>', '=' => some .greaterEqual
  | '!', '=' => some .notEqual
  | _, _ => none

/-- The number of open braces after a symbol. -/
def depthAfter (depth : Nat) : Option Symbol → Nat
  | some .leftBrace => depth + 1
  | some .rightBrace => depth - 1
  | _ => depth

/-- The piece for a number that begins with a digit. -/
def numberPiece (rest : List Char) (next : Mode) : Piece :=
  let whole := digitsLength rest
  let fraction := fractionLength (rest.drop whole)
  let exponent := exponentLength (rest.drop (whole + fraction))
  { kind := some (if fraction + exponent = 0 then .integer else .float)
    more := whole + fraction + exponent, next }

/-- The kind of a word. -/
def wordKind (word : List Char) : TokenKind :=
  match Keyword.ofText? (String.ofList word) with
  | some keyword => .keyword keyword
  | none => .identifier

/-- The piece for an operator or for a character that has no meaning in a tag. -/
def symbolPiece (form : TagForm) (depth : Nat) (c : Char) (rest : List Char) : Piece :=
  match rest.head?.bind (doubleSymbol? c) with
  | some symbol => { kind := some (.symbol symbol), more := 1, next := .code form depth }
  | none =>
    let symbol := symbol? c
    { kind := some (symbol.elim .unknown .symbol), more := 0
      next := .code form (depthAfter depth symbol) }

/-- The piece at a character inside a tag. A tag that is not finished when the next one opens ends
    there, unless the opening stands within braces. -/
def codePiece (form : TagForm) (depth : Nat) (c : Char) (rest : List Char) : Piece :=
  if Text.isBlank c then
    { kind := none, more := (rest.takeWhile Text.isBlank).length, next := .code form depth }
  else
    match closerLength? form depth (c :: rest) with
    | some length => { kind := some (.tagEnd form), more := length - 1, next := .data }
    | none =>
      if depth = 0 ∧ opensTag (c :: rest) then dataPiece c rest
      else if isNameStart c then
        let tail := rest.takeWhile isNamePart
        { kind := some (wordKind (c :: tail)), more := tail.length, next := .code form depth }
      else if c.isDigit then numberPiece rest (.code form depth)
      else if c = '"' ∨ c = '\'' then
        { kind := some .string, more := stringLength c rest, next := .code form depth }
      else symbolPiece form depth c rest

/-- The piece at a character. -/
def piece : Mode → Char → List Char → Piece
  | .data, c, rest => dataPiece c rest
  | .code form depth, c, rest => codePiece form depth c rest

/-- The tokens of a text, from a place on. -/
def tokensFrom (mode : Mode) (start : Place) : List Char → List Token
  | [] => [{ kind := .endOfFile, start, text := "" }]
  | c :: rest =>
    let piece := piece mode c rest
    let lexeme := c :: rest.take piece.more
    let later := tokensFrom piece.next (start.past lexeme) (rest.drop piece.more)
    match piece.kind with
    | some kind => { kind, start, text := String.ofList lexeme } :: later
    | none => later
  termination_by text => text.length
  decreasing_by
    simp only [List.length_cons, List.length_drop]
    omega

end Lexer

/-- The tokens of a template; the last one marks the end of the file. -/
def tokenize (text : List Char) : List Token :=
  Lexer.tokensFrom .data {} text

end TemplateAnalysis.Template
