import TemplateAnalysis.Host.Index
import TemplateAnalysis.Template.Outline
import TemplateAnalysis.Vocabulary

namespace TemplateAnalysis

/-- Why a reference has no declaration. -/
inductive UnresolvedReason
  /-- No declaration of the name exists, in the template or in programs. -/
  | notInScope (name : String)
  /-- The template declares the name, but not where the reference can see it. The line counts from
      one. -/
  | declaredOutOfScope (name : String) (line : Nat)
  deriving DecidableEq, Inhabited

/-- How the reason is told. -/
def UnresolvedReason.message : UnresolvedReason → String
  | notInScope name => "no binding for `" ++ name ++ "` in scope"
  | declaredOutOfScope name line =>
    "`" ++ name ++ "` is declared at line " ++ toString line ++ " but is not visible here"

/-- What a reference refers to. -/
inductive Resolution
  | local (binding : Binding)
  | host (entry : Host.Entry)
  | builtin
  | unresolved (reason : UnresolvedReason)
  deriving DecidableEq, Inhabited

/-- A reference together with what it refers to. -/
structure ResolvedReference where
  reference : Template.Reference
  resolution : Resolution
  deriving DecidableEq, Inhabited

/-- A reference that has no declaration. -/
structure SemanticError where
  name : String
  range : Range
  reason : UnresolvedReason
  deriving DecidableEq, Inhabited

/-- What is known of a document: its identifiers in order, and for a template its references and
    those of them that have no declaration. -/
structure Analysis where
  identifiers : List Identifier := []
  references : List ResolvedReference := []
  errors : List SemanticError := []
  deriving DecidableEq, Inhabited

namespace Analysis

/-- The declaration that stands first in the text, the first one of several. -/
def earliest (best : Option Binding) : List Binding → Option Binding
  | [] => best
  | binding :: rest =>
    match best with
    | some other =>
      earliest (if binding.range.start < other.range.start then some binding else best) rest
    | none => earliest (some binding) rest

/-- Why a name has no declaration where a reference stands. It may be declared elsewhere in the
    template. -/
def reasonFor (scopes : ScopeTree) (name : String) : UnresolvedReason :=
  let declared := scopes.bindings.filter fun binding =>
    binding.name == name && binding.kind.bindsReferences
  match earliest none declared with
  | some binding => .declaredOutOfScope name (binding.range.start.line + 1)
  | none => .notInScope name

/-- What a reference refers to: a declaration in the scopes around it, else a variable that a
    program declares, else a name that needs no declaration. -/
def resolve (scopes : ScopeTree) (index : Host.Index) (family : Option HostLanguage)
    (reference : Template.Reference) : Resolution :=
  match scopes.resolve reference.scope reference.text reference.range.start with
  | some (_, binding) => .local binding
  | none =>
    match index.latest? reference.text family with
    | some entry => .host entry
    | none =>
      if Vocabulary.isBuiltin reference.text then .builtin
      else .unresolved (reasonFor scopes reference.text)

/-- The error of a reference, if it has no declaration. -/
def errorOf? (resolved : ResolvedReference) : Option SemanticError :=
  match resolved.resolution with
  | .unresolved reason =>
    some { name := resolved.reference.text, range := resolved.reference.range, reason }
  | _ => none

/-- The identifier of an error. -/
def identifierOf (error : SemanticError) : Identifier :=
  { range := error.range, name := error.name, kind := .undefinedVariable
    error := some error.reason.message }

/-- The identifiers of the declarations. Implicit names are not among them. -/
def declarations (scopes : ScopeTree) : List Identifier :=
  (scopes.bindings.filter (!·.implicit)).map fun binding =>
    { range := binding.range, name := binding.name, kind := binding.kind }

/-- The analysis of a template against the variables of programs. -/
def ofOutline (outline : Template.Outline) (index : Host.Index) (family : Option HostLanguage) :
    Analysis :=
  let references := outline.references.map fun reference =>
    { reference, resolution := resolve outline.scopes index family reference }
  let errors := references.filterMap errorOf?
  { identifiers := Identifier.normalize <|
      declarations outline.scopes ++ outline.templates ++ outline.links ++
        errors.map identifierOf
    references, errors }

end Analysis

end TemplateAnalysis
