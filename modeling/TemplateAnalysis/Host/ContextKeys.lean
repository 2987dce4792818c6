import TemplateAnalysis.Host.Token

namespace TemplateAnalysis.Host.ContextKeys

/-- The methods that register a global name with an environment. -/
def registerMethods : List String :=
  ["add_global", "add_filter", "add_function", "add_test"]

/-- The calls whose first argument names a template. -/
def templateCalls : List String :=
  ["get_template", "render_jinja"]

/-- The keys of the items of a context, up to the bracket that closes it. Each item begins with its
    key; what stands inside brackets belongs to values. -/
def keys (depth : Nat) (atItemStart : Bool) : List Token → List Identifier
  | [] => []
  | token :: rest =>
    if token.opensBracket then keys (depth + 1) false rest
    else if token.closesBracket then
      if depth = 0 then [] else keys (depth - 1) atItemStart rest
    else if token.text = "," ∧ depth = 0 then keys depth true rest
    else
      let later := keys depth false rest
      if atItemStart ∧ depth = 0 ∧ token.kind = .word then
        token.identifier .hostVariable :: later
      else later

/-- The string that is the first argument of a call, given the tokens after the name of the
    function. -/
def firstString? : List Token → Option Token
  | bracket :: argument :: _ =>
    if bracket.isPunctuation "(" ∧ argument.kind = .string then some argument else none
  | _ => none

/-- The keys of the context that is built after its name and an exclamation mark. -/
def contextKeys : List Token → List Identifier
  | bracket :: rest => if bracket.opensBracket then keys 0 true rest else []
  | [] => []

/-- What one word of a program declares or mentions, given the token before it and all after it. -/
def ofWord (before : Option Token) (token : Token) (rest : List Token) : List Identifier :=
  if token.text = "context" ∧ rest.head?.any (·.isPunctuation "!") then contextKeys rest.tail
  else
    match firstString? rest with
    | none => []
    | some argument =>
      if registerMethods.contains token.text ∧ before.any (·.isPunctuation ".") then
        [argument.contentIdentifier .hostVariable]
      else if templateCalls.contains token.text then
        [argument.contentIdentifier .templateRef]
      else []

/-- What the words of a program declare or mention, given the token before them. -/
def collect (before : Option Token) : List Token → List Identifier
  | [] => []
  | token :: rest =>
    let found := if token.kind = .word then ofWord before token rest else []
    found ++ collect (some token) rest

end TemplateAnalysis.Host.ContextKeys
