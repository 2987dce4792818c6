import TemplateAnalysis.Template.Mention
import TemplateAnalysis.Template.Tag

namespace TemplateAnalysis.Template

/-- The statements that enclose a part of the template up to a statement that ends them. -/
inductive BlockKind
  | forLoop
  | ifBranch
  | setBlock
  | withBlock
  | macroBody
  | call
  | block
  | filter
  deriving DecidableEq, Inhabited

/-- What a tag says. -/
inductive Statement
  /-- Text or a statement without any name in it. -/
  | other
  /-- An expression, or a statement of one expression only. -/
  | evaluate (mentions : Mentions)
  /-- The opening of a branch with its condition. -/
  | beginIf (condition : Mentions)
  /-- The opening of a loop. The sequence is evaluated outside of it and the filter inside. -/
  | beginFor (word : Token) (targets : List Token) (sequence filter : Mentions)
  /-- The last branch of a loop or a condition. -/
  | otherwise
  /-- An assignment. -/
  | assign (targets : List Token) (value : Mentions)
  /-- The opening of an assignment whose value is the text up to its end. -/
  | beginSet (targets : List Token) (mentions : Mentions)
  /-- The opening of a block with variables of its own, whose values are evaluated outside. -/
  | beginWith (word : Token) (names : List Token) (values : Mentions)
  /-- The opening of a macro. The default values of its parameters are evaluated outside. -/
  | beginMacro (word : Token) (name : Option Token) (parameters : List Token)
    (defaults : Mentions)
  /-- The opening of a call with a body. All its expressions are evaluated outside. -/
  | beginCall (word : Token) (parameters : List Token) (mentions : Mentions)
  /-- The opening of a block that other templates can replace. -/
  | beginBlock (word : Token) (name : Option Token)
  /-- The opening of a part that is passed through filters. -/
  | beginFilter (mentions : Mentions)
  /-- The opening of a part that is put out as it stands. -/
  | beginRaw
  /-- The end of such a part. -/
  | endRaw
  /-- The import of a template under a name. -/
  | importTemplate (mentions : Mentions) (alias? : Option Token)
  /-- The import of names out of a template. -/
  | importNames (mentions : Mentions) (names : List Token)
  /-- The end of a block. -/
  | endBlock (kind : BlockKind)
  deriving DecidableEq, Inhabited

namespace Statement

/-- Whether the tokens begin with this kind. -/
def startsWith (kind : TokenKind) (tokens : List Token) : Bool :=
  tokens.head?.any (·.kind == kind)

/-- The tokens without a first one of this kind. -/
def skip (kind : TokenKind) (tokens : List Token) : List Token :=
  if startsWith kind tokens then tokens.tail else tokens

/-- The name that the tokens begin with. -/
def name? (tokens : List Token) : Option Token :=
  tokens.head?.filter (·.kind.isName)

/-- The tokens without a name at their beginning. -/
def skipName (tokens : List Token) : List Token :=
  if (name? tokens).isSome then tokens.tail else tokens

/-- Reads names between commas. A comma need not be followed by a name. -/
def names : List Token → List Token × List Token
  | [] => ([], [])
  | [token] => if token.kind.isName then ([token], []) else ([], [token])
  | token :: next :: rest =>
    if token.kind.isName then
      if next.kind = .symbol .comma then
        let (later, after) := names rest
        (token :: later, after)
      else ([token], next :: rest)
    else ([], token :: next :: rest)

/-- Reads the head of a loop after its word. -/
def forHead (word : Token) (tokens : List Token) : Statement :=
  let parenthesized := startsWith (.symbol .leftParen) tokens
  let (targets, afterTargets) := names (skip (.symbol .leftParen) tokens)
  let afterTargets :=
    if parenthesized then skip (.symbol .rightParen) afterTargets else afterTargets
  let (sequence, afterSequence) :=
    if startsWith (.keyword .inKw) afterTargets then
      Mentions.expression ["if", "recursive"] afterTargets.tail
    else ({}, afterTargets)
  let filter :=
    if startsWith (.keyword .ifKw) afterSequence then
      (Mentions.expression ["recursive"] afterSequence.tail).1
    else {}
  .beginFor word targets sequence filter

/-- Reads the targets of an assignment. A target with an attribute changes an object and mentions
    its variable, any other target declares a name. -/
def setTargets : List Token → List Token × Mentions × List Token
  | [] => ([], {}, [])
  | token :: rest =>
    if token.kind.isName then
      let isAttribute := startsWith (.symbol .dot) rest
      let afterTarget := if isAttribute then skipName rest.tail else rest
      let (targets, mentions, after) :=
        if startsWith (.symbol .comma) afterTarget then setTargets afterTarget.tail
        else ([], {}, afterTarget)
      if isAttribute then (targets, { references := [token.name] } ++ mentions, after)
      else (token :: targets, mentions, after)
    else ([], {}, token :: rest)
  termination_by tokens => tokens.length
  decreasing_by
    unfold skipName
    split <;> (try split) <;> simp <;> omega

/-- Reads an assignment after its word. -/
def setHead (tokens : List Token) : Statement :=
  let (targets, mentions, after) := setTargets tokens
  if startsWith (.symbol .assign) after then
    .assign targets (mentions ++ (Mentions.expression [] after.tail).1)
  else .beginSet targets (mentions ++ (Mentions.expression [] after).1)

/-- Reads the variables of a block with their values. -/
def withVariables : List Token → List Token × Mentions
  | token :: sign :: rest =>
    if token.kind.isWord ∧ sign.kind = .symbol .assign then
      let value := Mentions.expression [","] rest
      if startsWith (.symbol .comma) value.2 then
        let (names, later) := withVariables value.2.tail
        (token :: names, value.1 ++ later)
      else ([token], value.1)
    else ([], {})
  | _ => ([], {})
  termination_by tokens => tokens.length
  decreasing_by
    have := Mentions.length_scan_le [","] .value {} rest
    simp [Mentions.expression]; omega

/-- Reads parameters up to the closing bracket. What is no parameter is passed over. -/
def parameters : List Token → List Token × Mentions × List Token
  | [] => ([], {}, [])
  | token :: rest =>
    if token.kind.isName then
      let default :=
        if startsWith (.symbol .assign) rest then Mentions.expression [","] rest.tail
        else ({}, rest)
      let (names, later, after) := parameters default.2
      (token :: names, default.1 ++ later, after)
    else if token.kind = .symbol .rightParen then ([], {}, rest)
    else parameters rest
  termination_by tokens => tokens.length
  decreasing_by
    · have := Mentions.length_scan_le [","] .value {} rest.tail
      simp only [List.length_tail, List.length_cons] at *
      split
      · exact Nat.lt_succ_of_le (Nat.le_trans this (Nat.sub_le ..))
      · exact Nat.lt_succ_self _
    · simp

/-- Reads parameters if a bracket opens here. -/
def parameterList (tokens : List Token) : List Token × Mentions × List Token :=
  if startsWith (.symbol .leftParen) tokens then parameters tokens.tail else ([], {}, tokens)

/-- Reads the head of a block with variables of its own after its word. -/
def withHead (word : Token) (tokens : List Token) : Statement :=
  let (names, values) := withVariables tokens
  .beginWith word names values

/-- Reads the head of a macro after its word. -/
def macroHead (word : Token) (tokens : List Token) : Statement :=
  let (parameters, defaults, _) := parameterList (skipName tokens)
  .beginMacro word (name? tokens) parameters defaults

/-- Reads the head of a call after its word. -/
def callHead (word : Token) (tokens : List Token) : Statement :=
  let (parameters, defaults, after) := parameterList tokens
  .beginCall word parameters (defaults ++ (Mentions.expression [] after).1)

/-- Reads the head of a filter part after its word. -/
def filterHead (tokens : List Token) : Statement :=
  .beginFilter ({ filters := (name? tokens).toList.map Token.name } ++
    (Mentions.expression [] (skipName tokens)).1)

/-- Reads the import of a template after its word. -/
def importHead (tokens : List Token) : Statement :=
  let (mentions, after) := Mentions.templateNames ["as"] tokens
  .importTemplate mentions (if startsWith (.keyword .asKw) after then name? after.tail else none)

/-- Reads the names that are imported. Each of them may be given another name. -/
def importedNames : List Token → List Token
  | [] => []
  | token :: rest =>
    if token.kind.isName ∧ token.text ≠ "with" ∧ token.text ≠ "without" then
      let renamed := startsWith (.keyword .asKw) rest
      let localName := if renamed then (name? rest.tail).getD token else token
      let after := if renamed then skipName rest.tail else rest
      localName :: if startsWith (.symbol .comma) after then importedNames after.tail else []
    else []
  termination_by tokens => tokens.length
  decreasing_by
    unfold skipName
    split <;> (try split) <;> simp <;> omega

/-- Reads the import of names after its word. -/
def fromHead (tokens : List Token) : Statement :=
  let (mentions, after) := Mentions.templateNames ["import"] tokens
  .importNames mentions
    (if startsWith (.keyword .importKw) after then importedNames after.tail else [])

/-- The statements of one expression that begin with an ordinary name. -/
def expressionWords : List String :=
  ["do", "print", "autoescape"]

/-- Reads the body of a statement tag. Statements that are not known hold no variables. -/
def ofBody : List Token → Statement
  | [] => .other
  | token :: rest =>
    match token.kind with
    | .keyword .forKw => forHead token rest
    | .keyword .ifKw => .beginIf (Mentions.expression [] rest).1
    | .keyword .elifKw => .evaluate (Mentions.expression [] rest).1
    | .keyword .elseKw => .otherwise
    | .keyword .setKw => setHead rest
    | .keyword .withKw => withHead token rest
    | .keyword .macroKw => macroHead token rest
    | .keyword .callKw => callHead token rest
    | .keyword .blockKw => .beginBlock token (name? rest)
    | .keyword .filterKw => filterHead rest
    | .keyword .rawKw => .beginRaw
    | .keyword .extendsKw | .keyword .includeKw =>
      .evaluate (Mentions.templateNames ["ignore", "with", "without"] rest).1
    | .keyword .importKw => importHead rest
    | .keyword .fromKw => fromHead rest
    | .keyword .endforKw => .endBlock .forLoop
    | .keyword .endifKw => .endBlock .ifBranch
    | .keyword .endsetKw => .endBlock .setBlock
    | .keyword .endwithKw => .endBlock .withBlock
    | .keyword .endmacroKw => .endBlock .macroBody
    | .keyword .endcallKw => .endBlock .call
    | .keyword .endblockKw => .endBlock .block
    | .keyword .endfilterKw => .endBlock .filter
    | .keyword .endrawKw => .endRaw
    | .identifier =>
      if expressionWords.contains token.text then .evaluate (Mentions.expression [] rest).1
      else .other
    | _ => .other

/-- Reads a tag. -/
def ofTag (tag : Tag) : Statement :=
  match tag.form with
  | .expression => .evaluate (Mentions.expression [] tag.body).1
  | .statement => ofBody tag.body

end Statement

end TemplateAnalysis.Template
