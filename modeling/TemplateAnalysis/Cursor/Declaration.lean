import TemplateAnalysis.Cursor.Target

namespace TemplateAnalysis.Cursor

/-- Where a name is declared: a range of a document, which may be a program. -/
structure Location where
  uri : String
  range : Range
  isHost : Bool
  name : String
  deriving DecidableEq, Inhabited

namespace Location

/-- The declarations of a name in programs, the latest one first. -/
def ofVariable (workspace : Workspace) (name : String) : List Location :=
  (workspace.corpus.index.lookup name workspace.corpus.family).map fun entry =>
    { uri := entry.filename, range := entry.range, isHost := true, name }

/-- Where a reference is declared. An implicit name is declared nowhere. -/
def ofReference (workspace : Workspace) (document : Document) (resolved : ResolvedReference) :
    List Location :=
  match resolved.resolution with
  | .local binding =>
    if binding.implicit then []
    else
      [{ uri := document.filename, range := binding.range, isHost := false
         name := binding.name }]
  | .host _ => ofVariable workspace resolved.reference.text
  | _ => []

/-- Where a template is: the open one of that name, or else below the directory of templates. -/
def ofTemplate (workspace : Workspace) (name : String) : List Location :=
  let uri :=
    match findTemplate? workspace.corpus name with
    | some template => some template.filename
    | none => workspace.settings.templatePath? name
  uri.toList.map fun uri => { uri, range := {}, isHost := false, name }

/-- Where the thing is that an identifier stands for. A declaration leads to itself. -/
def ofIdentifier (workspace : Workspace) (document : Document) (identifier : Identifier) :
    List Location :=
  match identifier.kind with
  | .templateRef => ofTemplate workspace identifier.name
  | .link =>
    (workspace.hints.get? identifier.name).toList.map fun hint =>
      { uri := hint.uri, range := {}, isHost := false, name := identifier.name }
  | .undefinedVariable => []
  | kind =>
    [{ uri := document.filename, range := identifier.range
       isHost := kind == .hostVariable, name := identifier.name }]

/-- The declarations of what stands at a position. There is a difference between nothing standing
    there and a name without a declaration, which has an empty list. -/
def at? (workspace : Workspace) (document : Document) (analysis : Analysis)
    (position : Position) : Option (List Location) :=
  (Target.at? document analysis position).map fun
    | .reference resolved => ofReference workspace document resolved
    | .filter name => ofVariable workspace name.text
    | .identifier identifier => ofIdentifier workspace document identifier

end Location

/-- The path at which the template named at a position would have to be created: it is not open, and
    the directory of templates is known. -/
def missingTemplate? (workspace : Workspace) (document : Document) (analysis : Analysis)
    (position : Position) : Option String :=
  match Target.at? document analysis position with
  | some (.identifier identifier) =>
    if identifier.kind = .templateRef ∧ (findTemplate? workspace.corpus identifier.name).isNone then
      workspace.settings.templatePath? identifier.name
    else none
  | _ => none

end TemplateAnalysis.Cursor
