import TemplateAnalysis.Template.Lexer
import TemplateAnalysis.Template.Tag

namespace TemplateAnalysis.Syntax

open Template (Keyword Name Symbol Tag TagForm Token TokenKind)
open Template.Lexer

/-- A name that is no keyword. -/
structure Ident where
  first : Char
  rest : List Char
  begins : isNameStart first = true
  continues : rest.all isNamePart = true
  free : wordKind (first :: rest) = .identifier
  deriving DecidableEq

/-- The spelling of a name. -/
def Ident.chars (ident : Ident) : List Char :=
  ident.first :: ident.rest

/-- Digits, among which underscores may stand after the first one. -/
structure Digits where
  first : Char
  rest : List Char
  begins : first.isDigit = true
  continues : rest.all isDigitPart = true
  deriving DecidableEq

def Digits.chars (digits : Digits) : List Char :=
  digits.first :: digits.rest

/-- The exponent of a number. -/
structure Exponent where
  letter : Char
  isLetter : letter = 'e' ∨ letter = 'E'
  sign : Option Char
  isSign : sign = none ∨ sign = some '+' ∨ sign = some '-'
  digits : Digits
  deriving DecidableEq

def Exponent.chars (exponent : Exponent) : List Char :=
  exponent.letter :: exponent.sign.toList ++ exponent.digits.chars

/-- A number without a sign. -/
structure Numeral where
  whole : Digits
  fraction : Option Digits := none
  exponent : Option Exponent := none
  deriving DecidableEq

namespace Numeral

/-- The characters after the first one. -/
def tail (numeral : Numeral) : List Char :=
  numeral.whole.rest ++ (numeral.fraction.elim [] fun digits => '.' :: digits.chars) ++
    numeral.exponent.elim [] Exponent.chars

def kind (numeral : Numeral) : TokenKind :=
  if numeral.fraction.isNone ∧ numeral.exponent.isNone then .integer else .float

theorem kind_cases (numeral : Numeral) : numeral.kind = .integer ∨ numeral.kind = .float := by
  unfold kind
  split
  · exact .inl rfl
  · exact .inr rfl

end Numeral

/-- Whether a text can stand between quote marks of a kind: it holds no such mark and no line feed
    without a backslash before it, and it does not end in a backslash that hides the closing mark. -/
def isQuotable (quote : Char) : List Char → Bool
  | [] => true
  | ['\\'] => false
  | '\\' :: _ :: rest => isQuotable quote rest
  | c :: rest => c != '\n' && c != quote && isQuotable quote rest

/-- A string literal that is closed. -/
structure Literal where
  quote : Char
  body : List Char
  isQuote : quote = '"' ∨ quote = '\''
  isBody : isQuotable quote body = true
  deriving DecidableEq

theorem Literal.isQuote_double : '"' = '"' ∨ '"' = '\'' := .inl rfl

/-- What can stand between blanks inside a tag. -/
inductive Lexeme
  | name (ident : Ident)
  | keyword (word : Keyword)
  | number (value : Numeral)
  | string (value : Literal)
  | symbol (mark : Symbol)
  deriving DecidableEq

namespace Lexeme

def kind : Lexeme → TokenKind
  | name _ => .identifier
  | keyword word => .keyword word
  | number value => value.kind
  | string _ => .string
  | symbol mark => .symbol mark

def chars : Lexeme → List Char
  | name ident => ident.chars
  | keyword word => word.text.toList
  | number value => value.whole.first :: value.tail
  | string value => value.quote :: value.body ++ [value.quote]
  | symbol mark => mark.text.toList

/-- The number of open braces after a lexeme. -/
def depthAfter (depth : Nat) : Lexeme → Nat
  | symbol mark => Template.Lexer.depthAfter depth (some mark)
  | _ => depth

end Lexeme

/-- What a lexeme does where it stands: a variable is read around the statement or inside its body, a
    name is declared by the statement or names the statement itself, a filter is applied. Everything
    else is plain. -/
inductive Role
  | plain
  | read
  | readInside
  | declared
  | title
  | filter
  deriving DecidableEq, Inhabited

/-- Whether a variable is read. -/
def Role.isRead : Role → Bool
  | .read | .readInside => true
  | _ => false

/-- Whether a lexeme belongs to an expression. -/
def Role.isCode : Role → Bool
  | .plain | .read | .filter => true
  | _ => false

/-- The tokens that have a role. -/
def select (role : Role) (marked : List (Token × Role)) : List Token :=
  (marked.filter (·.2 == role)).map (·.1)

/-- A lexeme in its role. -/
structure Part where
  lexeme : Lexeme
  role : Role := .plain
  deriving DecidableEq

namespace Part

def kind (part : Part) : TokenKind :=
  part.lexeme.kind

def chars (part : Part) : List Char :=
  part.lexeme.chars

def text (part : Part) : String :=
  String.ofList part.chars

def mark (mark : Symbol) : Part :=
  { lexeme := .symbol mark }

def word (word : Keyword) : Part :=
  { lexeme := .keyword word }

def name (role : Role) (ident : Ident) : Part :=
  { lexeme := .name ident, role }

/-- The parts with a blank before each of them. -/
def spaced (parts : List Part) : List Char :=
  parts.flatMap fun part => ' ' :: part.chars

/-- The tokens of parts that are printed from a place on, each in its role. -/
def locate (place : Place) : List Part → List (Token × Role)
  | [] => []
  | part :: rest =>
    let start := place.after ' '
    ({ kind := part.kind, start, text := part.text }, part.role) ::
      locate (start.past part.chars) rest

/-- Whether tokens in their roles spell parts, wherever they stand. -/
def Spells (marked : List (Token × Role)) (parts : List Part) : Prop :=
  marked.map (fun (token, role) => (token.kind, token.text, role)) =
    parts.map fun part => (part.kind, part.text, part.role)

/-- The number of open braces after several parts. -/
def depthAfter (depth : Nat) (parts : List Part) : Nat :=
  parts.foldl (fun depth part => part.lexeme.depthAfter depth) depth

end Part

/-- The marks around a tag. -/
def opening : TagForm → List Char
  | .expression => ['{', '{']
  | .statement => ['{', '%']

def closing : TagForm → List Char
  | .expression => ['}', '}']
  | .statement => ['%', '}']

/-- The mark of white space control beside a mark of a tag. -/
inductive Trim
  | unmarked
  | strip
  | keep
  deriving DecidableEq

def Trim.chars : Trim → List Char
  | unmarked => []
  | strip => ['-']
  | keep => ['+']

/-- Whether a text opens no tag and does not end in the first half of an opening mark. -/
def isPlain : List Char → Bool
  | [] => true
  | [c] => c != '{'
  | c :: next :: rest => !opensTag (c :: next :: rest) && isPlain (next :: rest)

/-- A text around tags. -/
structure PlainText where
  chars : List Char
  isPlain : isPlain chars = true
  deriving DecidableEq

/-- A part of a printed template. The braces of an expression close within it. -/
inductive Fragment
  | text (content : PlainText)
  | tag (form : TagForm) (parts : List Part)
  deriving DecidableEq

namespace Fragment

def chars : Fragment → List Char
  | text content => content.chars
  | tag form parts => opening form ++ (Part.spaced parts ++ ' ' :: closing form)

/-- Whether all braces of an expression are closed, so that it is read up to its closing mark. -/
def Closes : Fragment → Prop
  | tag .expression parts => Part.depthAfter 0 parts = 0
  | _ => True

/-- The tag that is read where parts are printed from a place on. -/
def tagAt (form : TagForm) (place : Place) (parts : List Part) : Tag where
  form
  start := place.position
  body := (Part.locate (place.past (opening form)) parts).map (·.1)
  after := (place.past (chars (.tag form parts))).position

/-- The tags of fragments that are printed from a place on. -/
def tags (place : Place) : List Fragment → List Tag
  | [] => []
  | text content :: rest => tags (place.past content.chars) rest
  | tag form parts :: rest => tagAt form place parts :: tags (place.past (chars (.tag form parts))) rest

end Fragment

end TemplateAnalysis.Syntax
