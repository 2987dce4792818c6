import TemplateAnalysis.Diagnostic
import TemplateAnalysis.Discovery
import TemplateAnalysis.SourceTable
import TemplateAnalysis.Workspace

namespace TemplateAnalysis

/-- What can be wrong with what a workspace is given. -/
inductive InputError
  | unreadable (path reason : String)
  | settings (reason : String)
  | invalidDocumentId (text : String)
  deriving DecidableEq, Inhabited

/-- How the error is told. -/
def InputError.message : InputError → String
  | unreadable path reason => "cannot read `" ++ path ++ "`: " ++ reason
  | settings reason => "invalid configuration: " ++ reason
  | invalidDocumentId text => "invalid document id `" ++ text ++ "`"

/-- A workspace that is filled from files, to report the undefined variables of templates. -/
structure Checker where
  workspace : Workspace
  sources : SourceTable := {}
  deriving Inhabited

namespace Checker

/-- The checker that has not read any file. -/
def ofSettings (settings : Settings) : Checker :=
  { workspace := .ofSettings settings }

/-- The paths of files in place of those of directories. -/
def expand (settings : Settings) (tree : FileTree) (paths : List String) : List String :=
  paths.flatMap fun path =>
    if tree.isDirectoryAt path then (Discovery.files settings tree [path]).map (·.path) else [path]

/-- The files among the paths that are worth reading, with what they hold. -/
def recognised (settings : Settings) (paths : List String) : List (String × Language) :=
  paths.filterMap fun path => (settings.languageOf? path).map fun language => (path, language)

/-- Reads files up to the first one that cannot be read. The result has the numbers of the files,
    each of them once, and the table knows the files that were read in any case. -/
def loadAll (tree : FileTree) (table : SourceTable) (loaded : List (Nat × Language)) :
    List (String × Language) → Except InputError (List (Nat × Language)) × SourceTable
  | [] => (.ok loaded, table)
  | (path, language) :: rest =>
    match table.load tree path with
    | .error reason => (.error (.unreadable path reason.message), table)
    | .ok (id, table) =>
      let known := loaded.any (·.1 == id)
      loadAll tree table (if known then loaded else loaded ++ [(id, language)]) rest

/-- Writes a file that has been read into the workspace. -/
def addSource (table : SourceTable) (workspace : Workspace) (id : Nat) : Workspace :=
  match table.sources[id]? with
  | some source =>
    (workspace.add id source.name source.text ((Path.extension? source.name).getD "")).2
  | none => workspace

/-- The diagnostics of a file that has been read. -/
def diagnostics (table : SourceTable) (workspace : Workspace) (id : Nat) :
    List String × Workspace :=
  match table.sources[id]? with
  | some source =>
    let (undefined?, workspace) := workspace.undefined? source.name
    ((undefined?.getD []).map (Diagnostic.ofUndefined source), workspace)
  | none => ([], workspace)

/-- The diagnostics of several files, in order. -/
def diagnosticsOfAll (table : SourceTable) (workspace : Workspace) :
    List Nat → List String × Workspace
  | [] => ([], workspace)
  | id :: rest =>
    let (found, workspace) := diagnostics table workspace id
    let (later, workspace) := diagnosticsOfAll table workspace rest
    (found ++ later, workspace)

/-- Checks files and directories. Programs are written into the workspace first, because templates
    use what they declare. Nothing is written if a file cannot be read. -/
def check (checker : Checker) (tree : FileTree) (paths : List String) :
    Except InputError (List String) × Checker :=
  let settings := checker.workspace.settings
  let files := recognised settings (expand settings tree paths)
  match loadAll tree checker.sources [] files with
  | (.error error, sources) => (.error error, { checker with sources })
  | (.ok loaded, sources) =>
    let (templates, programs) := loaded.partition fun (_, language) => language == .template
    let workspace := (programs ++ templates).foldl
      (fun workspace (id, _) => addSource sources workspace id) checker.workspace
    let (found, workspace) := diagnosticsOfAll sources workspace (templates.map (·.1))
    (.ok found, { workspace, sources })

end Checker

end TemplateAnalysis
