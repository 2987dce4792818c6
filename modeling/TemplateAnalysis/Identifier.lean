import TemplateAnalysis.Position

namespace TemplateAnalysis

/-- What a name in a document stands for. -/
inductive IdentifierKind
  | forLoopKey
  | forLoopValue
  | forLoopCount
  | setVariable
  | withVariable
  | macroName
  | macroParameter
  | templateBlock
  | hostVariable
  | undefinedVariable
  | templateRef
  | link
  deriving DecidableEq, Inhabited

/-- The icon that an editor shows beside a completion. -/
inductive CompletionKind
  | variable
  | field
  | function
  | module
  | constant
  | file
  | text
  deriving DecidableEq, Inhabited

namespace IdentifierKind

/-- The place of a kind in the order of kinds. -/
def rank : IdentifierKind → Nat
  | forLoopKey => 0
  | forLoopValue => 1
  | forLoopCount => 2
  | setVariable => 3
  | withVariable => 4
  | macroName => 5
  | macroParameter => 6
  | templateBlock => 7
  | hostVariable => 8
  | undefinedVariable => 9
  | templateRef => 10
  | link => 11

/-- How an editor describes the kind. -/
def detail : IdentifierKind → String
  | forLoopKey => "For loop key"
  | forLoopValue => "For loop value"
  | forLoopCount => "For loop count"
  | setVariable => "Set variable"
  | withVariable => "With variable"
  | macroName => "Macro"
  | macroParameter => "Macro parameter"
  | templateBlock => "Template block"
  | hostVariable => "Backend variable"
  | undefinedVariable => "Undefined variable"
  | templateRef => "Jinja template"
  | link => "Link"

/-- The icon of the kind among completions. -/
def completionKind : IdentifierKind → CompletionKind
  | forLoopKey | forLoopValue | setVariable | withVariable | hostVariable => .variable
  | forLoopCount | macroParameter => .field
  | macroName => .function
  | templateBlock => .module
  | undefinedVariable => .constant
  | templateRef => .file
  | link => .text

/-- Whether a reference can be bound to such a declaration. The name of a block serves inheritance
    only and is no variable. -/
def bindsReferences : IdentifierKind → Bool
  | forLoopKey | forLoopValue | forLoopCount | setVariable | withVariable | macroName
  | macroParameter | hostVariable => true
  | templateBlock | undefinedVariable | templateRef | link => false

/-- Whether one scope keeps several declarations of one name. Each of them counts from its own
    place on; of the other kinds only the last declaration is kept. -/
def isRedefinable : IdentifierKind → Bool
  | setVariable | macroName | templateBlock => true
  | _ => false

end IdentifierKind

/-- A classified name of a document. Its range is where the name stands; only the implicit variable
    of a loop has no place of its own and takes the range of the word that opens the loop. -/
structure Identifier where
  range : Range
  name : String
  kind : IdentifierKind
  error : Option String := none
  deriving DecidableEq, Inhabited

namespace Identifier

/-- The order of the identifiers of a document: by start, then by end, then by kind. -/
def precedes (first second : Identifier) : Bool :=
  if first.range.start = second.range.start then
    if first.range.stop = second.range.stop then first.kind.rank ≤ second.kind.rank
    else decide (first.range.stop ≤ second.range.stop)
  else decide (first.range.start ≤ second.range.start)

/-- Whether two identifiers classify the same range in the same way. -/
def sameRecord (first second : Identifier) : Bool :=
  first.range == second.range && first.kind == second.kind

/-- Drops each identifier that classifies the same range in the same way as the one kept last. -/
def dropRepeats : List Identifier → List Identifier
  | [] => []
  | first :: rest =>
    match dropRepeats rest with
    | [] => [first]
    | second :: others =>
      if first.sameRecord second then first :: others else first :: second :: others

/-- The identifiers in order, each range once for each kind. Of several identifiers that agree in
    both, the first one stays. -/
def normalize (identifiers : List Identifier) : List Identifier :=
  dropRepeats (identifiers.mergeSort precedes)

end Identifier

end TemplateAnalysis
