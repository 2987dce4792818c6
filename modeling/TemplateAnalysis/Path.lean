import TemplateAnalysis.Text.Search

namespace TemplateAnalysis.Path

/-- A step of a path. Repeated slashes and points in the middle of a path are no steps. -/
inductive Component
  | root
  | current
  | parent
  | normal (name : String)
  deriving DecidableEq, Inhabited

namespace Component

/-- How a step is written. -/
def text : Component → String
  | root => "/"
  | current => "."
  | parent => ".."
  | normal name => name

/-- The place of a step among the kinds of steps. -/
def rank : Component → Nat
  | root => 0
  | current => 1
  | parent => 2
  | normal _ => 3

/-- The order of steps: the special ones first, then names. -/
def precedes : Component → Component → Bool
  | normal first, normal second => decide (first ≤ second)
  | first, second => decide (first.rank ≤ second.rank)

end Component

/-- The text between the slashes of a path. -/
def segments (path : String) : List (List Char) :=
  Text.pieces '/' path.toList

/-- The path of these segments. -/
def ofSegments (segments : List (List Char)) : String :=
  "/".intercalate (segments.map String.ofList)

/-- Whether a segment is no step. -/
def isSkipped (segment : List Char) : Bool :=
  segment == [] || segment == ['.']

/-- The step of a segment that is one wherever it stands. -/
def component? (segment : List Char) : Option Component :=
  if isSkipped segment then none
  else if segment = ['.', '.'] then some .parent
  else some (.normal (String.ofList segment))

/-- Whether the path begins at the root. -/
def isAbsolute (path : String) : Bool :=
  path.toList.head? == some '/'

/-- The first step of a path that is only recognised there. -/
def leading? (path : String) : Option Component :=
  if isAbsolute path then some .root
  else if (segments path).head? = some ['.'] then some .current
  else none

/-- The steps of a path. -/
def components (path : String) : List Component :=
  (leading? path).toList ++ (segments path).filterMap component?

/-- The order of two lists of steps. -/
def precedesList : List Component → List Component → Bool
  | [], _ => true
  | _ :: _, [] => false
  | first :: firsts, second :: seconds =>
    if first = second then precedesList firsts seconds else first.precedes second

/-- The order of paths: step by step, so that the files below a directory stand together. -/
def precedes (first second : String) : Bool :=
  precedesList (components first) (components second)

/-- The last step of a path, if it is a name. -/
def fileName? (path : String) : Option String :=
  match (components path).getLast? with
  | some (.normal name) => some name
  | _ => none

/-- The part of the file name after its last point. A point at the front of the name does not
    count. -/
def extension? (path : String) : Option String :=
  (fileName? path).bind fun name =>
    let backwards := name.toList.reverse
    let extension := backwards.takeWhile (· ≠ '.')
    if (backwards.drop (extension.length + 1)).isEmpty then none
    else some (String.ofList extension.reverse)

/-- The path of a name below a directory. An absolute name stands for itself. -/
def join (directory name : String) : String :=
  if isAbsolute name then name
  else if directory.isEmpty || directory.toList.getLast? == some '/' then directory ++ name
  else directory ++ "/" ++ name

/-- The segments after the first steps of a path. -/
def dropComponents : Nat → List (List Char) → List (List Char)
  | 0, segments => segments
  | _ + 1, [] => []
  | count + 1, segment :: rest =>
    dropComponents (if isSkipped segment then count + 1 else count) rest

/-- The segments without those at the end that are no steps. -/
def trimSegments (segments : List (List Char)) : List (List Char) :=
  (segments.reverse.dropWhile isSkipped).reverse

/-- The path without slashes and points at its end. -/
def withoutTail (path : String) : String :=
  match leading? path with
  | none => ofSegments (trimSegments (segments path))
  | some first =>
    match trimSegments (segments path).tail with
    | [] => first.text
    | rest => ofSegments ((segments path).take 1 ++ rest)

/-- The path as seen from a directory, if its first steps are those of the directory. The rest is
    kept as it was written. -/
def relativeTo? (directory path : String) : Option String :=
  let base := components directory
  if base.isPrefixOf (components path) then
    if base.isEmpty then some (withoutTail path)
    else
      let leading := (leading? path).toList.length
      let rest := dropComponents (base.length - leading) ((segments path).drop leading)
      some (ofSegments (trimSegments (rest.dropWhile isSkipped)))
  else none

/-- The absolute form of a path that need not exist. Steps to a parent directory stay, two slashes
    at the front stay apart from one, and a slash at the end stays. The empty path has none. -/
def absolute? (workingDirectory path : String) : Option String :=
  if path.isEmpty then none
  else
    let steps := (components path).filter (· ≠ .current)
    let doubled := ['/', '/'].isPrefixOf path.toList && !(['/', '/', '/'].isPrefixOf path.toList)
    let start := if isAbsolute path then (if doubled then "//" else "") else workingDirectory
    let steps := if doubled then steps.filter (· ≠ .root) else steps
    let whole := steps.foldl (fun path step => join path step.text) start
    some (if path.toList.getLast? = some '/' then join whole "" else whole)

end TemplateAnalysis.Path
