import TemplateAnalysis.Distinct
import TemplateAnalysis.Identifier

namespace TemplateAnalysis

/-- The statements of a template that have a scope of their own, and the template itself. -/
inductive ScopeKind
  | template
  | loop
  | macroBody
  | call
  | withBlock
  | block
  deriving DecidableEq, Inhabited

/-- A name declared directly in a scope. It is visible from a position of its own on, because the
    right side of `set x = x + 1` still reads the outer `x`. Implicit names have no declaration in
    the text and do not count as identifiers of the document. -/
structure Binding where
  name : String
  kind : IdentifierKind
  range : Range
  visibleFrom : Position
  implicit : Bool := false
  deriving DecidableEq, Inhabited

/-- A scope is known by its number in the order of creation. -/
abbrev ScopeId := Nat

/-- A part of a template in which declarations count. A scope that is still open at the end of the
    file also covers the position at the end, where the user is typing. -/
structure Scope where
  kind : ScopeKind
  range : Range
  parent : Option ScopeId := none
  bindings : List Binding := []
  openEnded : Bool := false
  deriving DecidableEq, Inhabited

namespace Scope

/-- Whether a position lies in the scope. -/
def covers (scope : Scope) (position : Position) : Bool :=
  scope.range.contains position || (scope.openEnded && scope.range.touches position)

/-- Whether a binding of the same name and kind exists that a new declaration replaces. -/
def clashes (binding other : Binding) : Bool :=
  other.name == binding.name && other.kind == binding.kind

/-- Replaces the first binding that clashes with a new one. -/
def replaceBinding (binding : Binding) : List Binding → List Binding
  | [] => []
  | other :: rest =>
    if clashes binding other then binding :: rest else other :: replaceBinding binding rest

/-- The bindings of a scope after one more declaration. -/
def addBinding (binding : Binding) (bindings : List Binding) : List Binding :=
  if !binding.kind.isRedefinable && bindings.any (clashes binding) then
    replaceBinding binding bindings
  else bindings ++ [binding]

/-- The scope with one more declaration. -/
def define (scope : Scope) (binding : Binding) : Scope :=
  { scope with bindings := addBinding binding scope.bindings }

/-- The bindings to which a reference at a position can refer. -/
def visible (scope : Scope) (position : Position) : List Binding :=
  scope.bindings.filter fun binding =>
    binding.kind.bindsReferences && decide (binding.visibleFrom ≤ position)

/-- The binding with the greatest starting position, the last one of several. -/
def latest (best : Option Binding) : List Binding → Option Binding
  | [] => best
  | binding :: rest =>
    match best with
    | some other =>
      latest (if other.visibleFrom ≤ binding.visibleFrom then some binding else best) rest
    | none => latest (some binding) rest

/-- The binding of a name that counts at a position. -/
def lookup? (scope : Scope) (name : String) (position : Position) : Option Binding :=
  latest none ((scope.visible position).filter (·.name == name))

end Scope

/-- The scopes of a template in the order of creation, the root first. A scope is created after its
    parent, so the last scope that covers a position is the innermost one. -/
structure ScopeTree where
  scopes : List Scope
  deriving DecidableEq, Inhabited

namespace ScopeTree

/-- The number of the scope that stands for the whole template. -/
def root : ScopeId := 0

/-- The tree of a template without any block; it ends at the given position. -/
def ofEnd (stop : Position) : ScopeTree :=
  { scopes := [{ kind := .template, range := { stop } }] }

/-- Changes one scope. -/
def modify (tree : ScopeTree) (id : ScopeId) (change : Scope → Scope) : ScopeTree :=
  { scopes := tree.scopes.modify id change }

/-- The number that the next new scope gets. -/
def nextId (tree : ScopeTree) : ScopeId :=
  tree.scopes.length

/-- Adds a scope that runs to the end of its parent until something closes it. -/
def insert (tree : ScopeTree) (kind : ScopeKind) (parent : ScopeId) (start : Position) :
    ScopeTree :=
  let stop := (tree.scopes[parent]?.map (·.range.stop)).getD start
  { scopes := tree.scopes ++ [{ kind, range := { start, stop := max stop start }, parent }] }

/-- Moves the start of a scope; its end never lies before its start. -/
def setStart (tree : ScopeTree) (id : ScopeId) (start : Position) : ScopeTree :=
  tree.modify id fun scope =>
    { scope with range := { start, stop := max scope.range.stop start } }

/-- Ends a scope at a position; its end never lies before its start. -/
def close (tree : ScopeTree) (id : ScopeId) (stop : Position) : ScopeTree :=
  tree.modify id fun scope =>
    { scope with range := { scope.range with stop := max stop scope.range.start } }

/-- Ends a scope that nothing closed at the end of the file. -/
def closeAtEnd (tree : ScopeTree) (id : ScopeId) (stop : Position) : ScopeTree :=
  (tree.close id stop).modify id fun scope => { scope with openEnded := true }

/-- Declares a name in a scope. -/
def define (tree : ScopeTree) (id : ScopeId) (binding : Binding) : ScopeTree :=
  tree.modify id (·.define binding)

/-- The scope with its number and the scopes around it, from the inside out. -/
def chain (tree : ScopeTree) (id : ScopeId) : List (ScopeId × Scope) :=
  match tree.scopes[id]? with
  | none => []
  | some scope =>
    (id, scope) ::
      match scope.parent with
      | some parent => if parent < id then chain tree parent else []
      | none => []

/-- The number of the last scope below the root that covers a position, or the root. -/
def innermostAt (tree : ScopeTree) (position : Position) : ScopeId :=
  let covering := tree.scopes.zipIdx.tail.filter fun (scope, _) => scope.covers position
  (covering.getLast?.map (·.2)).getD root

/-- The binding to which a name refers at a position, with the number of its scope. Inner scopes
    come first. -/
def resolve (tree : ScopeTree) (id : ScopeId) (name : String) (position : Position) :
    Option (ScopeId × Binding) :=
  (tree.chain id).findSome? fun (id, scope) =>
    (scope.lookup? name position).map fun binding => (id, binding)

/-- The bindings that are visible at a position: inner scopes first, later declarations first
    within a scope, and each name once. -/
def visibleAt (tree : ScopeTree) (position : Position) : List Binding :=
  distinctBy Binding.name <|
    (tree.chain (tree.innermostAt position)).flatMap fun (_, scope) =>
      (scope.visible position).mergeSort fun first second =>
        decide (second.visibleFrom ≤ first.visibleFrom)

/-- All bindings, scope by scope. -/
def bindings (tree : ScopeTree) : List Binding :=
  tree.scopes.flatMap (·.bindings)

end ScopeTree

end TemplateAnalysis
