import TemplateAnalysis.Proofs.Syntax.Expression
import TemplateAnalysis.Template.Statement

namespace TemplateAnalysis.Syntax

open Template (BlockKind Keyword TagForm)

/-- Pieces with commas between them. -/
def separated : List (List Part) → List Part
  | [] => []
  | [piece] => piece
  | piece :: rest => piece ++ .mark .comma :: separated rest

/-- Pieces in parentheses. -/
def bracketed (pieces : List (List Part)) : List Part :=
  .mark .leftParen :: (separated pieces ++ [.mark .rightParen])

/-- A filter with its arguments. -/
structure Filter where
  name : Ident
  arguments : Arguments := .none

def Filter.parts (filter : Filter) : List Part :=
  .name .filter filter.name :: filter.arguments.parts

/-- Filters that are applied one after the other. -/
def pipeline (filters : List Filter) : List Part :=
  filters.flatMap fun filter => .mark .pipe :: filter.parts

/-- What an assignment changes: a variable, or an attribute of an object. -/
inductive Target
  | name (ident : Ident)
  | member (object field : Ident)

def Target.parts : Target → List Part
  | name ident => [.name .declared ident]
  | member object field => [.name .read object, .mark .dot, .name .plain field]

/-- A variable with its value. -/
structure Assignment where
  name : Ident
  value : Expr

def Assignment.parts (assignment : Assignment) : List Part :=
  .name .declared assignment.name :: .mark .assign :: assignment.value.guarded [","]

/-- A parameter, perhaps with the value that it has by default. -/
structure Parameter where
  name : Ident
  default : Option Expr := none

def Parameter.parts (parameter : Parameter) : List Part :=
  .name .declared parameter.name ::
    parameter.default.elim [] fun value => .mark .assign :: value.guarded [","]

/-- A name that is imported, perhaps under another name. -/
structure Import where
  original : Ident
  local? : Option Ident := none

def Import.parts (imported : Import) : List Part :=
  match imported.local? with
  | none => [.name .declared imported.original]
  | some name => [.name .plain imported.original, .word .asKw, .name .declared name]

namespace Ident

/-- The names that some statements read as words of their own. -/
def without : Ident := ⟨'w', ['i', 't', 'h', 'o', 'u', 't'], by decide, by decide, by decide⟩

def context : Ident := ⟨'c', ['o', 'n', 't', 'e', 'x', 't'], by decide, by decide, by decide⟩

def ignore : Ident := ⟨'i', ['g', 'n', 'o', 'r', 'e'], by decide, by decide, by decide⟩

def missing : Ident := ⟨'m', ['i', 's', 's', 'i', 'n', 'g'], by decide, by decide, by decide⟩

end Ident

/-- Whether another template sees the variables of this one, if a statement says so. -/
inductive Sharing
  | unspecified
  | shared
  | separate

def Sharing.parts : Sharing → List Part
  | unspecified => []
  | shared => [.word .withKw, .name .plain .context]
  | separate => [.name .plain .without, .name .plain .context]

/-- The statements that stand alone, and the expressions that are put out. -/
inductive Action
  | print (value : Expr)
  | assign (targets : List Target) (value : Expr)
  | inherit (template : Expr)
  | insert (template : Expr) (ignoresMissing : Bool) (sharing : Sharing)
  | importAs (template : Expr) (name : Ident) (sharing : Sharing)
  | importNames (template : Expr) (names : List Import) (sharing : Sharing)

namespace Action

def form : Action → TagForm
  | print _ => .expression
  | _ => .statement

def parts : Action → List Part
  | print value => value.parts
  | assign targets value =>
    .word .setKw :: (separated (targets.map Target.parts) ++ .mark .assign :: value.parts)
  | inherit template => .word .extendsKw :: template.guarded ["ignore", "with", "without"]
  | insert template ignoresMissing sharing =>
    .word .includeKw :: (template.guarded ["ignore", "with", "without"] ++
      ((if ignoresMissing then [.name .plain .ignore, .name .plain .missing] else []) ++ sharing.parts))
  | importAs template name sharing =>
    .word .importKw :: (template.guarded ["as"] ++ .word .asKw :: .name .declared name :: sharing.parts)
  | importNames template names sharing =>
    .word .fromKw :: (template.guarded ["import"] ++
      .word .importKw :: (separated (names.map Import.parts) ++ sharing.parts))

end Action

/-- The head of a loop. The condition is checked for each item, so it is read inside. -/
structure Loop where
  targets : List Ident
  isBracketed : Bool := false
  sequence : Expr
  condition : Option Expr := none
  isRecursive : Bool := false

/-- The role that a lexeme of an expression has where the expression is evaluated inside a statement. -/
def Role.inner : Role → Role
  | .read => .readInside
  | role => role

/-- The lexemes of an expression that is evaluated inside the statement that holds it. -/
def inside (parts : List Part) : List Part :=
  parts.map fun part => { part with role := part.role.inner }

namespace Loop

def names (loop : Loop) : List Part :=
  let pieces := loop.targets.map fun target => [Part.name .declared target]
  if loop.isBracketed then bracketed pieces else separated pieces

def ending (loop : Loop) : List Part :=
  (loop.condition.elim [] fun condition => .word .ifKw :: inside (condition.guarded ["recursive"])) ++
    if loop.isRecursive then [.word .recursiveKw] else []

def parts (loop : Loop) : List Part :=
  { lexeme := .keyword .forKw, role := .title } :: (loop.names ++
    .word .inKw :: (loop.sequence.guarded ["if", "recursive"] ++ loop.ending))

end Loop

/-- The statements that open a block with names of its own. -/
inductive Opening
  | loop (head : Loop)
  | withBlock (assignments : List Assignment)
  | macroBody (name : Ident) (parameters : List Parameter)
  | call (parameters : List Parameter) (callee : Expr)
  | block (name : Ident) (modifiers : List Ident)

namespace Opening

/-- The parameters of a call. They can be left out only where the callee is not taken for them. -/
def signature (parameters : List Parameter) (callee : Expr) : List Part :=
  if parameters.isEmpty && callee.parts.head?.all (·.kind != .symbol .leftParen) then []
  else bracketed (parameters.map Parameter.parts)

def parts : Opening → List Part
  | loop head => head.parts
  | withBlock assignments => .word .withKw :: separated (assignments.map Assignment.parts)
  | macroBody name parameters =>
    .word .macroKw :: .name .title name :: bracketed (parameters.map Parameter.parts)
  | call parameters callee => .word .callKw :: (signature parameters callee ++ callee.parts)
  | block name modifiers => .word .blockKw :: .name .title name :: modifiers.map (.name .plain)

/-- The word that ends the block. -/
def ending : Opening → Keyword
  | loop _ => .endforKw
  | withBlock _ => .endwithKw
  | macroBody _ _ => .endmacroKw
  | call _ _ => .endcallKw
  | block _ _ => .endblockKw

def kind : Opening → BlockKind
  | loop _ => .forLoop
  | withBlock _ => .withBlock
  | macroBody _ _ => .macroBody
  | call _ _ => .call
  | block _ _ => .block

end Opening

mutual

/-- The templates whose blocks are closed, each with what comes after it. -/
inductive Markup
  | done
  | text (content : PlainText) (next : Markup)
  | action (action : Action) (next : Markup)
  | block (opening : Opening) (body next : Markup)
  | loopElse (loop : Loop) (body otherwise next : Markup)
  | capture (targets : List Target) (filters : List Filter) (body next : Markup)
  | filter (first : Filter) (others : List Filter) (body next : Markup)
  | branch (condition : Expr) (body : Markup) (branches : Branches) (next : Markup)

/-- The other branches of a condition, up to its end. -/
inductive Branches
  | done
  | otherwise (body : Markup)
  | elseIf (condition : Expr) (body : Markup) (branches : Branches)

end

namespace Fragment

def action (action : Action) : Fragment := .tag action.form action.parts

def opening (opening : Opening) : Fragment := .tag .statement opening.parts

/-- A statement of one word. -/
def word (word : Keyword) : Fragment := .tag .statement [.word word]

def capture (targets : List Target) (filters : List Filter) : Fragment :=
  .tag .statement (.word .setKw :: (separated (targets.map Target.parts) ++ pipeline filters))

def filter (first : Filter) (others : List Filter) : Fragment :=
  .tag .statement (.word .filterKw :: (first.parts ++ pipeline others))

def condition (word : Keyword) (condition : Expr) : Fragment :=
  .tag .statement (.word word :: condition.parts)

end Fragment

mutual

/-- The text and the tags of a template in order. -/
def Markup.fragments : Markup → List Fragment
  | .done => []
  | .text content next => .text content :: next.fragments
  | .action action next => .action action :: next.fragments
  | .block opening body next =>
    .opening opening :: (body.fragments ++ .word opening.ending :: next.fragments)
  | .loopElse loop body otherwise next =>
    .opening (.loop loop) :: (body.fragments ++
      .word .elseKw :: (otherwise.fragments ++ .word .endforKw :: next.fragments))
  | .capture targets filters body next =>
    .capture targets filters :: (body.fragments ++ .word .endsetKw :: next.fragments)
  | .filter first others body next =>
    .filter first others :: (body.fragments ++ .word .endfilterKw :: next.fragments)
  | .branch condition body branches next =>
    .condition .ifKw condition :: (body.fragments ++ (branches.fragments ++ next.fragments))

def Branches.fragments : Branches → List Fragment
  | .done => [.word .endifKw]
  | .otherwise body => .word .elseKw :: (body.fragments ++ [.word .endifKw])
  | .elseIf condition body branches =>
    .condition .elifKw condition :: (body.fragments ++ branches.fragments)

end

/-- The text of a template. -/
def Markup.chars (markup : Markup) : List Char :=
  markup.fragments.flatMap Fragment.chars

def Branches.chars (branches : Branches) : List Char :=
  branches.fragments.flatMap Fragment.chars

/-- The names that a statement takes from another template. -/
def Action.imports : Action → List Ident
  | .importNames _ names _ => names.map Import.original
  | _ => []

mutual

/-- The names that a template takes from other ones. -/
def Markup.imports : Markup → List Ident
  | .done => []
  | .text _ next => next.imports
  | .action action next => action.imports ++ next.imports
  | .block _ body next | .capture _ _ body next | .filter _ _ body next => body.imports ++ next.imports
  | .loopElse _ body otherwise next => body.imports ++ (otherwise.imports ++ next.imports)
  | .branch _ body branches next => body.imports ++ (branches.imports ++ next.imports)

def Branches.imports : Branches → List Ident
  | .done => []
  | .otherwise body => body.imports
  | .elseIf _ body branches => body.imports ++ branches.imports

end

end TemplateAnalysis.Syntax
