import TemplateAnalysis.Host.ContextKeys
import TemplateAnalysis.Host.KeywordArguments
import TemplateAnalysis.Host.Lexer

namespace TemplateAnalysis.Host

/-- What a program declares for templates and which templates it names, in order. The program is
    not understood beyond the tokens around such names. -/
def scan (language : HostLanguage) (source : Source) : List Identifier :=
  let tokens := tokenize language source.chars
  Identifier.normalize <|
    match language with
    | .rust => ContextKeys.collect none tokens
    | .python => KeywordArguments.collect [] tokens

end TemplateAnalysis.Host
