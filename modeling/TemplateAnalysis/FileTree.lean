import TemplateAnalysis.Path

namespace TemplateAnalysis

/-- The names that lead from the root to a file or a directory. -/
abbrev Route := List String

/-- The files that a program can see, with their texts, and the directory from which relative paths
    start. A directory exists if it is listed or something lies below it. There are no links, so
    every file has one route. -/
structure FileTree where
  workingDirectory : Route := []
  directories : List Route := []
  files : List (Route × String) := []
  deriving DecidableEq, Inhabited

/-- Why a file cannot be read. -/
inductive ReadError
  | notFound
  | notADirectory
  | isADirectory
  deriving DecidableEq, Inhabited

/-- How the reason is told. -/
def ReadError.message : ReadError → String
  | notFound => "No such file or directory (os error 2)"
  | notADirectory => "Not a directory (os error 20)"
  | isADirectory => "Is a directory (os error 21)"

namespace FileTree

/-- The path of a route. -/
def pathOf (route : Route) : String :=
  "/" ++ "/".intercalate route

/-- The route of a path that begins at the root and takes no detour. -/
def routeOf (path : String) : Route :=
  (Path.segments path).filterMap fun segment =>
    if Path.isSkipped segment then none else some (String.ofList segment)

/-- The text of the file at a route. -/
def file? (tree : FileTree) (route : Route) : Option String :=
  (tree.files.find? (·.1 == route)).map (·.2)

/-- Whether there is a directory at a route. -/
def isDirectory (tree : FileTree) (route : Route) : Bool :=
  route.isEmpty || tree.directories.any route.isPrefixOf ||
    route.isPrefixOf tree.workingDirectory ||
    tree.files.any fun (file, _) => route.isPrefixOf file && route != file

/-- The route that the segments of a path lead to from a starting point. Every step but the last one
    must lead to a directory, and so must the last one if a slash follows it. -/
def walk (tree : FileTree) (route : Route) : List (List Char) → Except ReadError Route
  | [] => .ok route
  | segment :: rest =>
    if !tree.isDirectory route then .error .notADirectory
    else if Path.isSkipped segment then tree.walk route rest
    else if segment = ['.', '.'] then tree.walk route.dropLast rest
    else
      let next := route ++ [String.ofList segment]
      if tree.isDirectory next || (tree.file? next).isSome then tree.walk next rest
      else .error .notFound

/-- The route to which a path leads. -/
def locate (tree : FileTree) (path : String) : Except ReadError Route :=
  if path.isEmpty then .error .notFound
  else tree.walk (if Path.isAbsolute path then [] else tree.workingDirectory) (Path.segments path)

/-- The path without detours that leads to the same place as a path. -/
def canonical (tree : FileTree) (path : String) : Except ReadError String :=
  (tree.locate path).map pathOf

/-- The route and the text of the file at a path. -/
def read (tree : FileTree) (path : String) : Except ReadError (Route × String) := do
  let route ← tree.locate path
  match tree.file? route with
  | some text => return (route, text)
  | none => throw .isADirectory

/-- Whether there is a directory at a path. -/
def isDirectoryAt (tree : FileTree) (path : String) : Bool :=
  match tree.locate path with
  | .ok route => tree.isDirectory route
  | .error _ => false

end FileTree

end TemplateAnalysis
