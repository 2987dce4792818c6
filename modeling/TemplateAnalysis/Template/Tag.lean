import TemplateAnalysis.Template.Token

namespace TemplateAnalysis.Template

/-- A tag: the position of its opening mark, the tokens inside, and the position after it. A tag
    that is not closed stops where the next one opens, or at the end of the file. -/
structure Tag where
  form : TagForm
  start : Position
  body : List Token
  after : Position
  deriving DecidableEq, Inhabited

namespace Tag

/-- The position at which a tag stops, given the tokens after its body. -/
def stopBefore (stop : Position) : List Token → Position
  | [] => stop
  | token :: _ => if token.kind.isTagEnd then token.stop.position else token.start.position

/-- The tags among the tokens. Everything outside of them is text. -/
def ofTokens (stop : Position) : List Token → List Tag
  | [] => []
  | token :: rest =>
    match token.kind with
    | .tagBegin form =>
      let later := rest.dropWhile (·.kind.isInsideTag)
      { form, start := token.start.position
        body := rest.takeWhile (·.kind.isInsideTag), after := stopBefore stop later } ::
        ofTokens stop later
    | _ => ofTokens stop rest
  termination_by tokens => tokens.length
  decreasing_by
    · have := (List.dropWhile_sublist (fun token : Token => token.kind.isInsideTag)
        (l := rest)).length_le
      simp; omega
    · simp

end Tag

end TemplateAnalysis.Template
