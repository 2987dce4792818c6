import TemplateAnalysis.FileTree
import TemplateAnalysis.Source

namespace TemplateAnalysis

/-- The files that have been read, in the order of reading. A file is known by its number in this
    order and is read only once, under its path without detours. -/
structure SourceTable where
  sources : List Source := []
  deriving DecidableEq, Inhabited

namespace SourceTable

/-- Reads a file, or finds the number that it has already. -/
def load (table : SourceTable) (tree : FileTree) (path : String) :
    Except ReadError (Nat × SourceTable) := do
  let name ← tree.canonical path
  match table.sources.findIdx? (·.name == name) with
  | some id => return (id, table)
  | none =>
    let (_, text) ← tree.read path
    return (table.sources.length, { sources := table.sources ++ [{ name, text }] })

end SourceTable

end TemplateAnalysis
