import TemplateAnalysis.Distinct
import TemplateAnalysis.FileTree
import TemplateAnalysis.Settings

namespace TemplateAnalysis.Discovery

/-- A file that is worth reading: its route, the path under which it was found, and what it
    holds. -/
structure Found where
  route : Route
  path : String
  language : Language
  deriving DecidableEq, Inhabited

/-- Directories that hold neither templates nor sources of programs. -/
def skippedDirectories : List String :=
  ["target", "node_modules", "__pycache__", "venv", "site-packages"]

/-- Whether a directory is not searched. Hidden ones are not either. -/
def isSkipped (directory : String) : Bool :=
  directory.toList.head? == some '.' || skippedDirectories.contains directory

/-- The names that lead from a directory to a file below it. -/
def below? : Route → Route → Option Route
  | [], rest => some rest
  | name :: directory, other :: file => if name = other then below? directory file else none
  | _ :: _, [] => none

/-- The files that a search from a root visits, each with its path. The root itself is searched
    whatever its name is. -/
def visit (tree : FileTree) (root : String) : List (Route × String) :=
  match tree.locate root with
  | .error _ => []
  | .ok start =>
    tree.files.filterMap fun (route, _) =>
      (below? start route).bind fun steps =>
        if steps.dropLast.any isSkipped then none
        else some (route, steps.foldl Path.join root)

/-- The files below a root that are worth reading. -/
def findIn (settings : Settings) (tree : FileTree) (root : String) : List Found :=
  (visit tree root).filterMap fun (route, path) =>
    (settings.languageOf? path).map fun language => { route, path, language }

/-- The order of files: programs first, because templates use what they declare, then by path. -/
def precedes (first second : Found) : Bool :=
  if (first.language == .template) = (second.language == .template) then
    Path.precedes first.path second.path
  else second.language == .template

/-- The files below some roots that are worth reading. A file below several of them is found from
    the first one. -/
def files (settings : Settings) (tree : FileTree) (roots : List String) : List Found :=
  (distinctBy Found.route (roots.flatMap (findIn settings tree))).mergeSort precedes

/-- The files of a workspace. -/
def workspaceFiles (settings : Settings) (tree : FileTree) : List Found :=
  files settings tree (settings.templates.toList ++ settings.programs)

end TemplateAnalysis.Discovery
