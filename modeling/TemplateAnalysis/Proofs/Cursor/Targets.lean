import TemplateAnalysis.Cursor.Target
import TemplateAnalysis.Proofs.Identifier
import TemplateAnalysis.Proofs.Template.Classification
import TemplateAnalysis.Proofs.Template.Layout

namespace TemplateAnalysis

namespace Identifier

end Identifier

namespace Cursor.Target

open Template (Outline)

end Cursor.Target

end TemplateAnalysis
