namespace TemplateAnalysis.Text

/-- The text before and after the first occurrence of a pattern, or nothing if it does not occur. -/
def splitAt? (pattern : List Char) : List Char → Option (List Char × List Char)
  | [] => if pattern.isEmpty then some ([], []) else none
  | c :: rest =>
    if pattern.isPrefixOf (c :: rest) then some ([], (c :: rest).drop pattern.length)
    else (splitAt? pattern rest).map fun (before, after) => (c :: before, after)

/-- Whether a pattern occurs somewhere in a text. -/
def includes (pattern text : List Char) : Bool :=
  (splitAt? pattern text).isSome

/-- The number of characters up to the end of the first occurrence of a pattern; all of them if it
    does not occur. -/
def lengthThrough (pattern text : List Char) : Nat :=
  match splitAt? pattern text with
  | some (before, _) => before.length + pattern.length
  | none => text.length

/-- The pieces of a text between the occurrences of a separator. There is one more of them than
    there are separators. -/
def pieces (separator : Char) : List Char → List (List Char)
  | [] => [[]]
  | c :: rest =>
    if c = separator then [] :: pieces separator rest
    else
      match pieces separator rest with
      | [] => [[c]]
      | piece :: others => (c :: piece) :: others

end TemplateAnalysis.Text
