import TemplateAnalysis.Proofs.Scope.Environment
import TemplateAnalysis.Proofs.Syntax.Markup

namespace TemplateAnalysis.Syntax

open Template (Name Token)

/-- A variable that is read, with what it refers to. -/
structure Use where
  name : Name
  declaration : Option Declaration
  deriving DecidableEq

/-- The variables that a part of a template reads, in order, and the environment after it. -/
structure Outcome where
  uses : List Use
  environment : Environment

/-- The declaration of a name that stands in the text. -/
def declared (kind : IdentifierKind) (token : Token) : Declaration :=
  { name := token.text, kind, range := token.range }

/-- What variables refer to. -/
def lookups (environment : Environment) (tokens : List Token) : List Use :=
  tokens.map fun token => { name := token.name, declaration := environment.lookup token.text }

/-- The tokens of a tag that is printed from a place on, each in its role. -/
def Fragment.tokens (place : Place) : Fragment → List (Token × Role)
  | .text _ => []
  | .tag form parts => Part.locate (place.past (Syntax.opening form)) parts

/-- The place after a fragment. -/
def Fragment.after (place : Place) (fragment : Fragment) : Place :=
  place.past fragment.chars

/-- The kind of the names that a statement declares. -/
def Action.kind : Action → IdentifierKind
  | .importNames _ _ _ => .macroName
  | _ => .setVariable

/-- A statement that stands alone reads its variables first, then its names take effect. -/
def Action.run (environment : Environment) (place : Place) (action : Action) : Outcome :=
  let tokens := (Fragment.action action).tokens place
  { uses := lookups environment (select .read tokens)
    environment := environment.declare ((select .declared tokens).map (declared action.kind)) }

namespace Opening

variable (tokens : List (Token × Role))

/-- The names that a block declares around it: a macro can be used in its own parameters and body. -/
def namesAround : Opening → List Declaration
  | macroBody _ _ => (select .title tokens).map (declared .macroName)
  | _ => []

/-- The names inside a block that its head can see already. The first target of a loop is its key. -/
def namesInHead : Opening → List Declaration
  | loop _ =>
    match select .declared tokens with
    | [] => []
    | key :: values => declared .forLoopKey key :: values.map (declared .forLoopValue)
  | macroBody _ _ | call _ _ => (select .declared tokens).map (declared .macroParameter)
  | withBlock _ | block _ _ => []

/-- The names that only the body of a block can see. Some of them have no declaration in the text. -/
def namesInBody : Opening → List Declaration
  | loop _ =>
    (select .title tokens).map fun word =>
      { name := "loop", kind := .forLoopCount, range := word.range }
  | withBlock _ => (select .declared tokens).map (declared .withVariable)
  | macroBody _ _ =>
    (select .title tokens).flatMap fun name =>
      ["caller", "varargs", "kwargs"].map fun implied =>
        { name := implied, kind := .macroParameter, range := name.range, implicit := true }
  | call _ _ | block _ _ => []

/-- The environment around a block, from its head on. -/
def surround (environment : Environment) (place : Place) (opening : Opening) : Environment :=
  environment.declare (opening.namesAround ((Fragment.opening opening).tokens place))

/-- The head of a block reads its variables outside, but the condition of a loop inside. -/
def enter (environment : Environment) (place : Place) (opening : Opening) : Outcome :=
  let tokens := (Fragment.opening opening).tokens place
  let outer := opening.surround environment place
  let inner := Environment.inner [] outer |>.declare (opening.namesInHead tokens)
  { uses := lookups outer (select .read tokens) ++ lookups inner (select .readInside tokens)
    environment := inner.declare (opening.namesInBody tokens) }

end Opening

mutual

/-- Runs a template that is printed from a place on. The body of a block with names of its own runs in a
    new frame, which is gone afterwards; any other body runs in the frame around it. -/
def Markup.run (environment : Environment) (place : Place) : Markup → Outcome
  | .done => { uses := [], environment }
  | .text content next => next.run environment (place.past content.chars)
  | .action action next =>
    let first := action.run environment place
    let rest := next.run first.environment ((Fragment.action action).after place)
    { uses := first.uses ++ rest.uses, environment := rest.environment }
  | .block opening body next =>
    let start := (Fragment.opening opening).after place
    let first := opening.enter environment place
    let inner := body.run first.environment start
    let rest := next.run (opening.surround environment place)
      ((Fragment.word opening.ending).after (start.past body.chars))
    { uses := first.uses ++ (inner.uses ++ rest.uses), environment := rest.environment }
  | .loopElse loop body otherwise next =>
    let start := (Fragment.opening (.loop loop)).after place
    let first := (Opening.loop loop).enter environment place
    let inner := body.run first.environment start
    let middle := (Fragment.word .elseKw).after (start.past body.chars)
    let other := otherwise.run environment middle
    let rest := next.run other.environment
      ((Fragment.word .endforKw).after (middle.past otherwise.chars))
    { uses := first.uses ++ (inner.uses ++ (other.uses ++ rest.uses)), environment := rest.environment }
  | .capture targets filters body next =>
    let tokens := (Fragment.capture targets filters).tokens place
    let start := (Fragment.capture targets filters).after place
    let inner := body.run environment start
    let rest := next.run
      (inner.environment.declare ((select .declared tokens).map (declared .setVariable)))
      ((Fragment.word .endsetKw).after (start.past body.chars))
    { uses := lookups environment (select .read tokens) ++ (inner.uses ++ rest.uses)
      environment := rest.environment }
  | .filter first others body next =>
    let tokens := (Fragment.filter first others).tokens place
    let start := (Fragment.filter first others).after place
    let inner := body.run environment start
    let rest := next.run inner.environment ((Fragment.word .endfilterKw).after (start.past body.chars))
    { uses := lookups environment (select .read tokens) ++ (inner.uses ++ rest.uses)
      environment := rest.environment }
  | .branch condition body branches next =>
    let tokens := (Fragment.condition .ifKw condition).tokens place
    let start := (Fragment.condition .ifKw condition).after place
    let inner := body.run environment start
    let middle := start.past body.chars
    let others := branches.run inner.environment middle
    let rest := next.run others.environment (middle.past branches.chars)
    { uses := lookups environment (select .read tokens) ++ (inner.uses ++ (others.uses ++ rest.uses))
      environment := rest.environment }

/-- Runs the other branches of a condition. -/
def Branches.run (environment : Environment) (place : Place) : Branches → Outcome
  | .done => { uses := [], environment }
  | .otherwise body => body.run environment ((Fragment.word .elseKw).after place)
  | .elseIf condition body branches =>
    let tokens := (Fragment.condition .elifKw condition).tokens place
    let start := (Fragment.condition .elifKw condition).after place
    let inner := body.run environment start
    let others := branches.run inner.environment (start.past body.chars)
    { uses := lookups environment (select .read tokens) ++ (inner.uses ++ others.uses)
      environment := others.environment }

end

/-- The variables of a template, with what they refer to. -/
def Markup.uses (markup : Markup) : List Use :=
  (markup.run (.outermost []) {}).uses

end TemplateAnalysis.Syntax
