import TemplateAnalysis.FileTree
import TemplateAnalysis.Uri

namespace TemplateAnalysis.Server

/-- The address of a document, which is its name already, or of a path. A path leads to its file
    without detours; if there is no file, it is only made absolute. -/
def uriOf? (tree : FileTree) (location : String) : Option String :=
  if Text.includes [':', '/', '/'] location.toList then
    if Uri.isReference location then some location else none
  else
    let path :=
      match tree.canonical location with
      | .ok path => some path
      | .error _ => Path.absolute? (FileTree.pathOf tree.workingDirectory) location
    (path.map ("file://" ++ ·)).filter Uri.isReference

end TemplateAnalysis.Server
