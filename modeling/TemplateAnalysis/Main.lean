import TemplateAnalysis.CommandLine

namespace TemplateAnalysis.CommandLine

/-- Directories are not searched further down than this. No path that a system accepts has more
    steps. -/
def maxSteps : Nat := 4096

/-- The tree with the file or the directory at a path. What cannot be read is left out. -/
def addPlace (tree : FileTree) (path : String) : IO FileTree := do
  try
    let found ← IO.FS.realPath path
    let route := FileTree.routeOf found.toString
    if ← found.isDir then return { tree with directories := route :: tree.directories }
    else return { tree with files := (route, ← IO.FS.readFile path) :: tree.files }
  catch _ => return tree

/-- The tree with everything on the way along a path. -/
def addPassed (tree : FileTree) (path : String) : IO FileTree :=
  let segments := Path.segments path
  (List.range segments.length).foldlM (fun tree count =>
    addPlace tree (Path.ofSegments (segments.take (count + 1)))) tree

/-- The tree with everything below a path that a search can find. -/
def addBelow (tree : FileTree) (path : String) : Nat → IO FileTree
  | 0 => return tree
  | steps + 1 => do
    let tree ← addPlace tree path
    try
      let entries ← (← IO.FS.realPath path).readDir
      entries.foldlM (fun tree entry => do
        if Discovery.isSkipped entry.fileName && (← entry.path.isDir) then return tree
        else addBelow tree entry.path.toString steps) tree
    catch _ => return tree

/-- The part of the file system that the given paths lead to. -/
def snapshot (paths : List String) : IO FileTree := do
  let mut tree : FileTree :=
    { workingDirectory := FileTree.routeOf (← IO.currentDir).toString }
  for path in paths do
    unless path.isEmpty do
      tree ← addBelow (← addPassed tree path) path maxSteps
  return tree

end TemplateAnalysis.CommandLine

/-- Checks the files and directories that the arguments name. -/
def main (arguments : List String) : IO UInt32 := do
  let tree ← TemplateAnalysis.CommandLine.snapshot arguments
  let outcome := TemplateAnalysis.CommandLine.run tree arguments
  IO.print outcome.output
  IO.eprint outcome.errorOutput
  return outcome.exitCode
