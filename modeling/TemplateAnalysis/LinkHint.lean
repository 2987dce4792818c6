import TemplateAnalysis.Table

namespace TemplateAnalysis

/-- Something that a client offers for a link. Its name is the text of the link. -/
structure Action where
  name : String
  description : String
  deriving DecidableEq, Inhabited

/-- Whether a hint may rest on text that is not saved yet. -/
inductive HintState
  | unsaved
  | saved
  deriving DecidableEq, Inhabited

/-- Where a link leads, and what a client says about it. -/
structure LinkHint where
  uri : String
  action : Action
  state : HintState
  deriving DecidableEq, Inhabited

/-- The hints that are known, by the links that they are for. -/
structure LinkHints where
  hints : Table String LinkHint := .empty
  deriving DecidableEq, Inhabited

namespace LinkHints

/-- The hint of a link. -/
def get? (hints : LinkHints) (key : String) : Option LinkHint :=
  hints.hints.get? key

/-- Puts a hint under the name of its action. It takes the place of the one that was there. -/
def insert (hints : LinkHints) (hint : LinkHint) : LinkHints :=
  { hints := hints.hints.insert hint.action.name hint }

/-- Takes in the actions of a document that is being edited. They replace hints of the same name,
    saved ones too. -/
def add (hints : LinkHints) (uri : String) (actions : Option (List Action)) : LinkHints :=
  (actions.getD []).foldl (fun hints action => hints.insert { uri, action, state := .unsaved })
    hints

/-- Takes in one action as saved. It keeps the address that is known for its name. -/
def saveAction (hints : LinkHints) (action : Action) : LinkHints :=
  let uri := ((hints.get? action.name).map (·.uri)).getD ""
  hints.insert { uri, action, state := .saved }

/-- Marks the hint of a link as saved, if there is one. -/
def saveKey (hints : LinkHints) (key : String) : LinkHints :=
  { hints := hints.hints.modify key fun hint => { hint with state := .saved } }

/-- Takes in actions as saved, then marks one more hint as saved. -/
def save (hints : LinkHints) (actions : Option (List Action)) (key : Option String) : LinkHints :=
  let saved := (actions.getD []).foldl saveAction hints
  match key with
  | some key => saved.saveKey key
  | none => saved

/-- Drops the hint of a link if it is unsaved, or all unsaved hints. -/
def removeUnsaved (hints : LinkHints) : Option String → LinkHints
  | some key =>
    if (hints.get? key).any (·.state == .unsaved) then { hints := hints.hints.erase key } else hints
  | none => { hints := hints.hints.filter fun _ hint => hint.state == .saved }

/-- The order in which hints are offered: saved ones first, then by name. -/
def precedes (first second : LinkHint) : Bool :=
  if first.state = second.state then decide (first.action.name ≤ second.action.name)
  else first.state == .saved

/-- All hints in the order in which they are offered. -/
def all (hints : LinkHints) : List LinkHint :=
  hints.hints.values.mergeSort precedes

end LinkHints

end TemplateAnalysis
