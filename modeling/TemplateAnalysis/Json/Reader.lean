import TemplateAnalysis.Json
import TemplateAnalysis.Json.Token

namespace TemplateAnalysis.Json

namespace Reader

/-- An array or an object of which only the first part has been read, the last item first. An
    object may already hold the name of its next field. -/
inductive Frame
  | array (items : List Json)
  | object (fields : List (String × Json)) (key : Option String)

/-- What may come next. -/
inductive Expected
  | value
  | valueOrEnd
  | key
  | keyOrEnd
  | colon
  | separator (last : Json)

/-- A reader knows the containers that are open around it, the innermost one first. -/
structure State where
  frames : List Frame := []
  expected : Expected := .value

/-- Containers may not be nested more deeply than this. -/
def maxDepth : Nat := 127

/-- The state inside a new container. -/
def State.enter (state : State) (frame : Frame) (expected : Expected) : Option State :=
  if state.frames.length < maxDepth then some { frames := frame :: state.frames, expected }
  else none

/-- The state at the beginning of a value. -/
def State.beginValue (state : State) : Token → Option State
  | .null => some { state with expected := .separator .null }
  | .bool value => some { state with expected := .separator (.bool value) }
  | .integer value => some { state with expected := .separator (.integer value) }
  | .decimal text => some { state with expected := .separator (.decimal text) }
  | .string value => some { state with expected := .separator (.string value) }
  | .leftBracket => state.enter (.array []) .valueOrEnd
  | .leftBrace => state.enter (.object [] none) .keyOrEnd
  | _ => none

/-- The state after the name of a field of the innermost container. -/
def State.afterKey (state : State) (key : String) : Option State :=
  match state.frames with
  | .object fields none :: frames =>
    some { frames := .object fields (some key) :: frames, expected := .colon }
  | _ => none

/-- The state after a mark that follows a complete value: the value joins the innermost container,
    which goes on or is complete itself. -/
def State.afterValue (state : State) (last : Json) (mark : Token) : Option State :=
  match state.frames, mark with
  | .array items :: frames, .comma =>
    some { frames := .array (last :: items) :: frames, expected := .value }
  | .array items :: frames, .rightBracket =>
    some { frames, expected := .separator (.array (last :: items).reverse) }
  | .object fields (some key) :: frames, .comma =>
    some { frames := .object (put key last fields) none :: frames, expected := .key }
  | .object fields (some key) :: frames, .rightBrace =>
    some { frames, expected := .separator (.object (put key last fields).reverse) }
  | _, _ => none

/-- The state after one more token, if it may come here. -/
def State.step (state : State) (token : Token) : Option State :=
  match state.expected, token with
  | .value, token => state.beginValue token
  | .valueOrEnd, .rightBracket =>
    some { frames := state.frames.tail, expected := .separator (.array []) }
  | .valueOrEnd, token => state.beginValue token
  | .keyOrEnd, .rightBrace =>
    some { frames := state.frames.tail, expected := .separator (.object []) }
  | .keyOrEnd, .string key => state.afterKey key
  | .key, .string key => state.afterKey key
  | .colon, .colon => some { state with expected := .value }
  | .separator last, token => state.afterValue last token
  | _, _ => none

/-- The value that has been read, if it is complete. -/
def State.result? (state : State) : Option Json :=
  match state.frames, state.expected with
  | [], .separator value => some value
  | _, _ => none

end Reader

/-- The value that a text denotes, if it denotes one. -/
def parse? (text : String) : Option Json := do
  let tokens ← Token.all? text.toList
  let state ← tokens.foldlM Reader.State.step {}
  state.result?

end TemplateAnalysis.Json
