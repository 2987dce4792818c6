import TemplateAnalysis.Host.Language
import TemplateAnalysis.Host.Token
import TemplateAnalysis.Text.Blank
import TemplateAnalysis.Text.Numeric
import TemplateAnalysis.Text.Search

namespace TemplateAnalysis.Host

namespace Lexer

/-- One piece of a program: the kind of token that it makes, or no kind if it is skipped, and the
    number of its characters after the first one. -/
structure Piece where
  kind : Option TokenKind
  more : Nat
  deriving DecidableEq, Inhabited

/-- The number of characters of a comment that may hold other comments, given how many are open. An
    unfinished comment runs to the end of the program. -/
def nestedCommentLength : Nat → List Char → Nat
  | _, [] => 0
  | depth, '/' :: '*' :: rest => 2 + nestedCommentLength (depth + 1) rest
  | depth, '*' :: '/' :: rest =>
    if depth ≤ 1 then 2 else 2 + nestedCommentLength (depth - 1) rest
  | depth, _ :: rest => 1 + nestedCommentLength depth rest

/-- The number of characters to the end of the line. -/
def restOfLine (text : List Char) : Nat :=
  (text.takeWhile (· ≠ '\n')).length

/-- The number of characters of the comment that begins here, if one does. -/
def comment? : HostLanguage → List Char → Option Nat
  | .rust, '/' :: '/' :: rest => some (2 + restOfLine rest)
  | .rust, '/' :: '*' :: rest => some (nestedCommentLength 0 ('/' :: '*' :: rest))
  | .python, '#' :: rest => some (1 + restOfLine rest)
  | _, _ => none

/-- The number of characters of a literal on one line or several after its quote mark. A backslash
    hides the next character. Where lines end literals, the line feed is not part of the literal. -/
def plainLength (quote : Char) (endsAtLine : Bool) : List Char → Nat
  | [] => 0
  | '\\' :: [] => 1
  | '\\' :: _ :: rest => 2 + plainLength quote endsAtLine rest
  | c :: rest =>
    if endsAtLine && c == '\n' then 0
    else if c = quote then 1
    else 1 + plainLength quote endsAtLine rest

/-- The number of characters of the literal whose quote mark is the first character. -/
def quotedLength (language : HostLanguage) : List Char → Nat
  | [] => 0
  | quote :: rest =>
    if language = .python ∧ rest.take 2 = [quote, quote] then
      3 + Text.lengthThrough [quote, quote, quote] (rest.drop 2)
    else 1 + plainLength quote (language == .python) rest

/-- Whether letters can stand before a quote mark and belong to the literal. -/
def isModifier : HostLanguage → List Char → Bool
  | .rust, modifier =>
    [['r'], ['b'], ['b', 'r'], ['c'], ['c', 'r']].contains modifier
  | .python, modifier =>
    !modifier.isEmpty && modifier.length ≤ 2 &&
      modifier.all (['r', 'b', 'f', 'u', 'R', 'B', 'F', 'U'].contains ·)

/-- The number of characters of a raw literal from its hash signs on, if it is one. It ends at a
    quote mark with as many hash signs after it. -/
def rawLength? (text : List Char) : Option Nat :=
  let hashes := text.takeWhile (· == '#')
  match text.drop hashes.length with
  | '"' :: rest => some (hashes.length + 1 + Text.lengthThrough ('"' :: hashes) rest)
  | _ => none

/-- The number of characters of the literal that begins with letters before its quote mark, if one
    begins here. -/
def modifiedLength? (language : HostLanguage) (text : List Char) : Option Nat :=
  let modifier := text.takeWhile Char.isAlpha
  let rest := text.drop modifier.length
  if !isModifier language modifier then none
  else if language = .rust ∧ modifier.getLast? = some 'r' then
    (rawLength? rest).map (modifier.length + ·)
  else if rest.head? = some '"' ∨ language = .python ∧ rest.head? = some '\'' then
    some (modifier.length + quotedLength language rest)
  else none

/-- The number of characters after the apostrophe of a character literal; zero if the apostrophe
    belongs to the name of a lifetime. An escape runs to the next apostrophe on its line. -/
def characterLength : List Char → Nat
  | '\\' :: rest =>
    let escape := rest.takeWhile fun c => c ≠ '\'' ∧ c ≠ '\n'
    if (rest.drop escape.length).head? = some '\'' then escape.length + 2 else 0
  | _ :: '\'' :: _ => 2
  | _ => 0

/-- The operators of two characters. -/
def operators : List (Char × Char) :=
  [('=', '>'), ('=', '='), ('!', '='), ('<', '='), ('>', '='), ('-', '>'), (':', ':'), ('*', '*'),
    ('/', '/')]

/-- The piece at a character. -/
def piece (language : HostLanguage) (c : Char) (rest : List Char) : Piece :=
  if Text.isBlank c then { kind := none, more := 0 }
  else
    match comment? language (c :: rest), modifiedLength? language (c :: rest) with
    | some length, _ => { kind := none, more := length - 1 }
    | none, some length => { kind := some .string, more := length - 1 }
    | none, none =>
      if Text.isAlphabetic c || c == '_' then
        let tail := rest.takeWhile fun c => Text.isAlphanumeric c || c == '_'
        { kind := some .word, more := tail.length }
      else if c.isDigit then
        let tail := rest.takeWhile fun c => c.isAlphanum || c == '_' || c == '.'
        { kind := some .number, more := tail.length }
      else if c = '"' ∨ c = '\'' ∧ language = .python then
        { kind := some .string, more := quotedLength language (c :: rest) - 1 }
      else if c = '\'' then
        let more := characterLength rest
        { kind := if more = 0 then none else some .string, more }
      else
        let isOperator := rest.head?.any fun next => operators.contains (c, next)
        { kind := some .punctuation, more := if isOperator then 1 else 0 }

/-- The tokens of a program, from a place on. -/
def tokensFrom (language : HostLanguage) (start : Place) : List Char → List Token
  | [] => []
  | c :: rest =>
    let piece := piece language c rest
    let lexeme := c :: rest.take piece.more
    let later := tokensFrom language (start.past lexeme) (rest.drop piece.more)
    match piece.kind with
    | some kind => { kind, start, text := String.ofList lexeme } :: later
    | none => later
  termination_by text => text.length
  decreasing_by
    simp only [List.length_cons, List.length_drop]
    omega

end Lexer

/-- The tokens of a program. Comments and white space make none. -/
def tokenize (language : HostLanguage) (text : List Char) : List Token :=
  Lexer.tokensFrom language {} text

end TemplateAnalysis.Host
