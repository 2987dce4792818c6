import TemplateAnalysis.Cursor.Target

namespace TemplateAnalysis.Cursor

/-- What an editor shows beside the cursor, written in Markdown. -/
structure Hover where
  value : String
  range : Option Range := none
  label : Option String := none
  documentation : Option String := none
  deriving DecidableEq, Inhabited

namespace Hover

/-- The title of a hover: what the name stands for, and the name. -/
def title (detail name : String) : String :=
  "**" ++ detail ++ "** `" ++ name ++ "`"

/-- A hover with a title and a paragraph below it. -/
def paragraph (detail name text : String) : String :=
  title detail name ++ "\n\n" ++ text

/-- The hover of a reference. -/
def ofReference (resolved : ResolvedReference) : Hover :=
  let name := resolved.reference.text
  let range := resolved.reference.range
  match resolved.resolution with
  | .local binding =>
    let detail := binding.kind.detail
    let origin :=
      if binding.implicit then "implicitly available in macro bodies"
      else "declared at line " ++ toString (binding.range.start.line + 1)
    { value := paragraph detail name origin, range, label := detail }
  | .host entry =>
    let detail := IdentifierKind.hostVariable.detail
    let origin := "defined in `" ++ entry.filename ++ "` at line " ++
      toString (entry.range.start.line + 1)
    { value := paragraph detail name origin, range, label := detail }
  | .builtin => { value := title "Builtin" name, range, label := "Builtin" }
  | .unresolved reason =>
    { value := reason.message, range, label := IdentifierKind.undefinedVariable.detail }

/-- The hover of a filter. Programs can register filters of their own. -/
def ofFilter (workspace : Workspace) (name : Template.Name) : Hover :=
  let hover : Hover :=
    { value := title "Filter" name.text, range := name.range, label := "Filter" }
  match Vocabulary.filterDoc? name.text with
  | some doc => { hover with value := paragraph "Filter" name.text doc, documentation := doc }
  | none =>
    match workspace.corpus.index.latest? name.text workspace.corpus.family with
    | some entry =>
      { hover with
        value := paragraph "Filter" name.text ("registered in `" ++ entry.filename ++ "`") }
    | none => hover

/-- The hover of an identifier. -/
def ofIdentifier (workspace : Workspace) (identifier : Identifier) : Hover :=
  let detail := identifier.kind.detail
  let value :=
    match identifier.kind with
    | .link =>
      match workspace.hints.get? identifier.name with
      | some hint => hint.action.description
      | none => title detail identifier.name
    | .templateRef =>
      match findTemplate? workspace.corpus identifier.name with
      | some template =>
        paragraph detail identifier.name ("open as `" ++ template.filename ++ "`")
      | none => paragraph detail identifier.name "not open in the workspace"
    | _ => identifier.error.getD (title detail identifier.name)
  { value, range := identifier.range, label := detail }

/-- The hover at a position of a document. -/
def at? (workspace : Workspace) (document : Document) (analysis : Analysis)
    (position : Position) : Option Hover :=
  (Target.at? document analysis position).map fun
    | .reference resolved => ofReference resolved
    | .filter name => ofFilter workspace name
    | .identifier identifier => ofIdentifier workspace identifier

end Hover

end TemplateAnalysis.Cursor
