import TemplateAnalysis.Scope
import TemplateAnalysis.Source
import TemplateAnalysis.Template.Lexer
import TemplateAnalysis.Template.Statement

namespace TemplateAnalysis.Template

/-- The use of a variable, with the scope in which it is evaluated. -/
structure Reference extends Name where
  scope : ScopeId
  deriving DecidableEq, Inhabited

/-- A block statement whose end has not come yet. Some blocks have a scope for their body. The
    declarations of a block of text take effect only after its end. -/
structure OpenBlock where
  kind : BlockKind
  scope : Option ScopeId := none
  pending : List (ScopeId × Binding) := []
  deriving DecidableEq, Inhabited

/-- What a template declares and mentions, in the order of its text. -/
structure Outline where
  tokens : List Token
  scopes : ScopeTree
  references : List Reference
  filters : List Name
  templates : List Identifier
  links : List Identifier
  deriving DecidableEq, Inhabited

namespace Outline

/-- What the tags read so far have declared and mentioned, and the blocks that are open, the
    innermost one first. Within a raw part nothing counts but its end. -/
structure State where
  scopes : ScopeTree
  blocks : List OpenBlock := []
  raw : Bool := false
  references : List Reference := []
  filters : List Name := []
  templates : List Identifier := []
  links : List Identifier := []
  deriving DecidableEq, Inhabited

namespace State

/-- The innermost scope that is open. -/
def currentScope (state : State) : ScopeId :=
  (state.blocks.findSome? (·.scope)).getD ScopeTree.root

/-- Records what code evaluated in a scope mentions. -/
def record (state : State) (scope : ScopeId) (mentions : Mentions) : State :=
  { state with
    references := state.references ++ mentions.references.map fun name => { name with scope }
    filters := state.filters ++ mentions.filters
    templates := state.templates ++ mentions.templates.map fun name =>
      { range := name.range, name := name.text, kind := .templateRef }
    links := state.links ++ mentions.links.map fun name =>
      { range := name.range, name := name.text, kind := .link } }

/-- Declares a name in a scope. -/
def define (state : State) (scope : ScopeId) (binding : Binding) : State :=
  { state with scopes := state.scopes.define scope binding }

/-- Declares names in a scope, one after the other. -/
def defineAll (state : State) (scope : ScopeId) (bindings : List Binding) : State :=
  bindings.foldl (·.define scope ·) state

/-- Adds a scope inside the current one, at the end of the word that opens it. Its number is the next
    free one. -/
def addScope (state : State) (kind : ScopeKind) (word : Token) : State :=
  { state with scopes := state.scopes.insert kind state.currentScope word.stop.position }

/-- Moves the start of a scope behind the tag that opens it. -/
def startBody (state : State) (scope : ScopeId) (start : Position) : State :=
  { state with scopes := state.scopes.setStart scope start }

/-- Opens a block. -/
def push (state : State) (block : OpenBlock) : State :=
  { state with blocks := block :: state.blocks }

/-- Declares the pending names of a block that has ended. They count from the given position on. -/
def settle (after : Position) (state : State) (pending : List (ScopeId × Binding)) : State :=
  pending.foldl (fun state (scope, binding) =>
    state.define scope { binding with visibleFrom := after }) state

/-- Ends the scope of a block and lets its pending declarations take effect. The scope ends before
    the closing tag, the declarations count after it. -/
def close (state : State) (block : OpenBlock) (stop after : Position) : State :=
  match block.scope with
  | some scope =>
    settle after { state with scopes := state.scopes.close scope stop } block.pending
  | none => settle after state block.pending

/-- Ends a block that nothing closed before the end of the file. -/
def closeAtEnd (stop : Position) (state : State) (block : OpenBlock) : State :=
  let closed := state.close block stop stop
  match block.scope with
  | some scope => { closed with scopes := closed.scopes.closeAtEnd scope stop }
  | none => closed

end State

/-- The binding of a name that stands in the text. -/
def bind (kind : IdentifierKind) (visibleFrom : Position) (token : Token) : Binding :=
  { name := token.text, kind, range := token.range, visibleFrom }

/-- The targets of a loop. The first one counts as its key, and each is visible from its own end
    on. -/
def loopTargets : List Token → List Binding
  | [] => []
  | key :: values =>
    bind .forLoopKey key.stop.position key ::
      values.map fun value => bind .forLoopValue value.stop.position value

/-- The names that the body of a macro can use without declaring them. -/
def implicitNames : List String :=
  ["caller", "varargs", "kwargs"]

/-- The implicit bindings of the body of a macro. Diagnostics point to the name of the macro. -/
def implicitBindings (anchor : Range) (visibleFrom : Position) : List Binding :=
  implicitNames.map fun name =>
    { name, kind := .macroParameter, range := anchor, visibleFrom, implicit := true }

/-- The parameters of a macro or a call; each is visible from its own end on. -/
def parameterBindings (parameters : List Token) : List Binding :=
  parameters.map fun parameter => bind .macroParameter parameter.stop.position parameter

/-- Ends the scope of the innermost block if it is a loop: its last branch is put out when the loop
    has not run at all, so it does not see the targets. The block itself stays open. -/
def endLoopBody (tag : Tag) (state : State) : State :=
  match state.blocks with
  | { kind := .forLoop, scope := some scope, pending } :: outer =>
    { state with
      scopes := state.scopes.close scope tag.start
      blocks := { kind := .forLoop, scope := none, pending } :: outer }
  | _ => state

/-- Ends the innermost block of a kind together with all blocks inside it. An end without a
    beginning changes nothing. -/
def endBlock (tag : Tag) (kind : BlockKind) (state : State) : State :=
  let inner := state.blocks.takeWhile (·.kind != kind)
  match state.blocks.dropWhile (·.kind != kind) with
  | [] => state
  | block :: outer =>
    (inner ++ [block]).foldl (·.close · tag.start tag.after) { state with blocks := outer }

/-- The effect of a tag outside of raw parts. -/
def apply (state : State) (tag : Tag) : Statement → State
  | .other | .endRaw => state
  | .evaluate mentions => state.record state.currentScope mentions
  | .beginIf condition =>
    (state.record state.currentScope condition).push { kind := .ifBranch }
  | .beginFor word targets sequence filter =>
    let outer := state.currentScope
    let scope := state.scopes.nextId
    (state.addScope .loop word)
      |>.defineAll scope (loopTargets targets)
      |>.record outer sequence
      |>.record scope filter
      |>.startBody scope tag.after
      |>.define scope { bind .forLoopCount tag.after word with name := "loop" }
      |>.push { kind := .forLoop, scope }
  | .otherwise => endLoopBody tag state
  | .assign targets value =>
    let scope := state.currentScope
    (state.record scope value).defineAll scope (targets.map (bind .setVariable tag.after))
  | .beginSet targets mentions =>
    let scope := state.currentScope
    let pending := targets.map fun target => (scope, bind .setVariable {} target)
    (state.record scope mentions).push { kind := .setBlock, pending }
  | .beginWith word names values =>
    let outer := state.currentScope
    let scope := state.scopes.nextId
    (state.addScope .withBlock word)
      |>.record outer values
      |>.startBody scope tag.after
      |>.defineAll scope (names.map (bind .withVariable tag.after))
      |>.push { kind := .withBlock, scope }
  | .beginMacro word name parameters defaults =>
    let outer := state.currentScope
    let scope := state.scopes.nextId
    let anchor := (name.map Token.range).getD (.empty tag.after)
    (state.addScope .macroBody word)
      |>.defineAll outer (name.toList.map fun name => bind .macroName name.start.position name)
      |>.defineAll scope (parameterBindings parameters)
      |>.record outer defaults
      |>.startBody scope tag.after
      |>.defineAll scope (implicitBindings anchor tag.after)
      |>.push { kind := .macroBody, scope }
  | .beginCall word parameters mentions =>
    let outer := state.currentScope
    let scope := state.scopes.nextId
    (state.addScope .call word)
      |>.defineAll scope (parameterBindings parameters)
      |>.record outer mentions
      |>.startBody scope tag.after
      |>.push { kind := .call, scope }
  | .beginBlock word name =>
    let outer := state.currentScope
    let scope := state.scopes.nextId
    (state.addScope .block word)
      |>.defineAll outer (name.toList.map fun name => bind .templateBlock name.start.position name)
      |>.startBody scope tag.after
      |>.push { kind := .block, scope }
  | .beginFilter mentions =>
    (state.record state.currentScope mentions).push { kind := .filter }
  | .beginRaw => { state with raw := true }
  | .importTemplate mentions alias? =>
    let scope := state.currentScope
    (state.record scope mentions).defineAll scope
      (alias?.toList.map (bind .setVariable tag.after))
  | .importNames mentions names =>
    let scope := state.currentScope
    (state.record scope mentions).defineAll scope (names.map (bind .macroName tag.after))
  | .endBlock kind => endBlock tag kind state

/-- The state after one more tag. -/
def step (state : State) (tag : Tag) : State :=
  let statement := Statement.ofTag tag
  if state.raw then
    if statement = .endRaw then { state with raw := false } else state
  else apply state tag statement

/-- Ends all blocks that are open at the end of the file. -/
def finish (stop : Position) (state : State) : State :=
  state.blocks.foldl (State.closeAtEnd stop) { state with blocks := [] }

/-- The outline of a template, from its tokens and the position of its end. -/
def ofTokens (stop : Position) (tokens : List Token) : Outline :=
  let state := finish stop ((Tag.ofTokens stop tokens).foldl step { scopes := .ofEnd stop })
  { tokens, scopes := state.scopes, references := state.references, filters := state.filters
    templates := state.templates, links := state.links }

/-- The outline of a template. -/
def ofSource (source : Source) : Outline :=
  ofTokens source.endPosition (tokenize source.chars)

end Outline

end TemplateAnalysis.Template
