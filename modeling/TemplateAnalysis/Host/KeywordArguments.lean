import TemplateAnalysis.Host.Token

namespace TemplateAnalysis.Host.KeywordArguments

/-- The calls whose keyword arguments become variables of a template. -/
def renderCalls : List String :=
  ["render", "render_template", "render_template_string"]

/-- The calls whose first string argument names a template. -/
def templateCalls : List String :=
  ["get_template", "render_template", "select_template"]

/-- The tables of an environment in which global names are registered. -/
def tables : List String :=
  ["globals", "filters", "tests"]

/-- The names of the keyword arguments of a call, up to the bracket that closes it. Arguments of
    calls within the arguments do not count. -/
def names (depth : Nat) : List Token → List Identifier
  | [] => []
  | token :: rest =>
    if token.opensBracket then names (depth + 1) rest
    else if token.closesBracket then if depth = 0 then [] else names (depth - 1) rest
    else if depth = 0 ∧ token.kind = .word ∧ rest.head?.any (·.isPunctuation "=") then
      token.identifier .hostVariable :: names depth rest
    else names depth rest

/-- Whether a bracket opens the arguments of a call here. -/
def opensCall (tokens : List Token) : Bool :=
  tokens.head?.any (·.isPunctuation "(")

/-- The keyword arguments of a call that hands variables to a template. -/
def renderArguments (token : Token) (rest : List Token) : List Identifier :=
  if renderCalls.contains token.text ∧ opensCall rest then names 0 rest.tail else []

/-- The keyword arguments of an update of a table, given the two tokens before the method with the
    nearer one first. -/
def updateArguments (before : List Token) (token : Token) (rest : List Token) : List Identifier :=
  match before with
  | point :: table :: _ =>
    if token.text = "update" ∧ point.isPunctuation "." ∧ tables.contains table.text ∧
        opensCall rest then
      names 0 rest.tail
    else []
  | _ => []

/-- The name under which an entry of a table is set. -/
def tableEntry (token : Token) (rest : List Token) : List Identifier :=
  match rest with
  | opening :: key :: closing :: sign :: _ =>
    if tables.contains token.text ∧ opening.isPunctuation "[" ∧ key.kind = .string ∧
        closing.isPunctuation "]" ∧ sign.isPunctuation "=" then
      [key.contentIdentifier .hostVariable]
    else []
  | _ => []

/-- The template that a call names. -/
def templateName (token : Token) (rest : List Token) : List Identifier :=
  match rest with
  | bracket :: argument :: _ =>
    if templateCalls.contains token.text ∧ bracket.isPunctuation "(" ∧
        argument.kind = .string then
      [argument.contentIdentifier .templateRef]
    else []
  | _ => []

/-- What the words of a program declare or mention, given the tokens before them with the nearest
    one first. -/
def collect (before : List Token) : List Token → List Identifier
  | [] => []
  | token :: rest =>
    let found :=
      if token.kind = .word then
        renderArguments token rest ++ updateArguments before token rest ++
          tableEntry token rest ++ templateName token rest
      else []
    found ++ collect (token :: before) rest

end TemplateAnalysis.Host.KeywordArguments
