import TemplateAnalysis.Identifier
import TemplateAnalysis.Template.Token
import TemplateAnalysis.Text.Search

namespace TemplateAnalysis.Template

/-- What a piece of template code mentions, each list in the order of the text. -/
structure Mentions where
  references : List Name := []
  filters : List Name := []
  templates : List Name := []
  links : List Name := []
  deriving DecidableEq, Inhabited

instance : Append Mentions where
  append first second :=
    { references := first.references ++ second.references
      filters := first.filters ++ second.filters
      templates := first.templates ++ second.templates
      links := first.links ++ second.links }

/-- What a string literal means where it stands: a plain value, or the name of a template. -/
inductive StringMeaning
  | value
  | template
  deriving DecidableEq, Inhabited

/-- Whether a plain string looks like a path on the site or like an address. -/
def looksLikeLink (text : List Char) : Bool :=
  text.head? == some '/' || Text.includes [':', '/', '/'] text

namespace Mentions

/-- The mention of a string literal. A plain string counts only if it looks like a link. -/
def ofString (meaning : StringMeaning) (token : Token) : Mentions :=
  match meaning with
  | .template => { templates := [token.content] }
  | .value => if looksLikeLink token.content.text.toList then { links := [token.content] } else {}

/-- The part of an expression to the left of a token that decides what the token means: the kinds
    of the last two tokens, and the number of open brackets. -/
structure Left where
  last : Option TokenKind := none
  lastButOne : Option TokenKind := none
  depth : Nat := 0
  deriving DecidableEq, Inhabited

/-- Whether the next word names a test: it follows `is` or `is not`. -/
def Left.expectsTest (left : Left) : Bool :=
  left.last == some (.keyword .isKw) ||
    (left.last == some (.keyword .notKw) && left.lastButOne == some (.keyword .isKw))

/-- The mention of a word. A word after a point is an attribute, one after a bar a filter, and one
    after `is` a test; a word within brackets before an equals sign names an argument. Any other
    word that the expression does not reserve is a variable. -/
def ofWord (left : Left) (token : Token) (rest : List Token) : Mentions :=
  if left.last = some (.symbol .dot) then {}
  else if left.last = some (.symbol .pipe) then { filters := [token.name] }
  else if left.expectsTest ∧ token.kind ≠ .keyword .notKw then {}
  else if token.kind.isOperatorKeyword then {}
  else if 0 < left.depth ∧ rest.head?.map (·.kind) = some (.symbol .assign) then {}
  else { references := [token.name] }

/-- What one token of an expression mentions: at most one thing. -/
def ofToken (meaning : StringMeaning) (left : Left) (token : Token) (rest : List Token) :
    Mentions :=
  match token.kind with
  | .string => ofString meaning token
  | .identifier | .keyword _ => ofWord left token rest
  | _ => {}

/-- Whether a bracket opens here. -/
def opensBracket : TokenKind → Bool
  | .symbol .leftParen | .symbol .leftBracket | .symbol .leftBrace => true
  | _ => false

/-- Whether a bracket closes here. -/
def closesBracket : TokenKind → Bool
  | .symbol .rightParen | .symbol .rightBracket | .symbol .rightBrace => true
  | _ => false

/-- What lies to the left of the next token, after one more token. -/
def Left.push (left : Left) (kind : TokenKind) : Left :=
  { last := some kind
    lastButOne := left.last
    depth :=
      if opensBracket kind then left.depth + 1
      else if closesBracket kind then left.depth - 1
      else left.depth }

/-- Whether an expression ends before a token: outside of all brackets, at a word that the statement
    gives a meaning of its own, or at a bracket that closes something around the expression. -/
def endsAt (stops : List String) (left : Left) (token : Token) : Bool :=
  left.depth == 0 && (stops.contains token.text || closesBracket token.kind)

/-- Reads an expression: what it mentions, and the tokens after it. -/
def scan (stops : List String) (meaning : StringMeaning) (left : Left) :
    List Token → Mentions × List Token
  | [] => ({}, [])
  | token :: rest =>
    if endsAt stops left token then ({}, token :: rest)
    else
      let (later, after) := scan stops meaning (left.push token.kind) rest
      (ofToken meaning left token rest ++ later, after)

/-- What follows an expression is no longer than the expression with it. -/
theorem length_scan_le (stops : List String) (meaning : StringMeaning) (left : Left)
    (tokens : List Token) : (scan stops meaning left tokens).2.length ≤ tokens.length := by
  induction tokens generalizing left with
  | nil => simp [scan]
  | cons token rest ih =>
    rw [scan]
    split
    · simp
    · exact Nat.le_succ_of_le (ih _)

/-- Reads an expression whose strings are plain values. -/
def expression (stops : List String) (tokens : List Token) : Mentions × List Token :=
  scan stops .value {} tokens

/-- Reads an expression whose strings are the names of templates. -/
def templateNames (stops : List String) (tokens : List Token) : Mentions × List Token :=
  scan stops .template {} tokens

end Mentions

end TemplateAnalysis.Template
