import TemplateAnalysis.Proofs.Scope.Agreement
import TemplateAnalysis.Proofs.Template.Keeping

namespace TemplateAnalysis.Template

namespace Outline

namespace ReadAt

variable {source : Source} {earlier later : List Tag} {tag : Tag} {id : ScopeId} {position : Position}
  {binding : Binding} {name : Token}

section Macro

variable {word : Token} {title : Option Token} {parameters : List Token} {defaults : Mentions}

end Macro

end ReadAt

end Outline

end TemplateAnalysis.Template
