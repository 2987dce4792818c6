import TemplateAnalysis.Proofs.Analysis.Conservation
import TemplateAnalysis.Proofs.Template.Parameters

namespace TemplateAnalysis

namespace Template.Header

/-- A header declares a name again behind the given one. -/
def Repeats (body : List Token) (name : Token) (kind : IdentifierKind) : Prop :=
  ∃ other, Declares body other kind ∧ other.text = name.text ∧
    name.start.position < other.start.position

variable {body : List Token} {name : Token} {kind : IdentifierKind}

theorem not_repeats (hbefore : ∀ pair ∈ declaredAs (Statement.ofBody body),
    pair.1.start.position ≤ name.start.position) : ¬ Repeats body name kind := by
  rintro ⟨other, hother, _, hlt⟩
  exact (hbefore _ (declares_iff.mp hother)).not_gt hlt

end Template.Header

namespace Analysis

open Template
open Template.Outline (ReadAt bind implicitNames ofSource read)

/-- A parameter with a name that the macro has without declaring it is lost, and a reference to it refers
    to the name of the macro. -/
theorem parameter_lost :
    let source : Source :=
      { name := "page.html"
        text := "\x7b% macro m(caller) %\x7d\x7b\x7b caller \x7d\x7d\x7b% endmacro %\x7d" }
    let tags := Tag.ofTokens source.endPosition (tokenize source.chars)
    let tag := tags.getD 0 default
    let name : Token := { kind := .identifier, start := ⟨11, ⟨0, 11⟩⟩, text := "caller" }
    let analysis := ofOutline (ofSource source) {} none
    ReadAt source [] tag (tags.drop 1) ∧ tag.form = .statement ∧
      Header.Declares tag.body name .macroParameter ∧
      ¬ Header.Repeats tag.body name .macroParameter ∧
      { range := name.range, name := name.text, kind := .macroParameter } ∉ analysis.identifiers ∧
      { reference := { text := "caller", range := ⟨⟨0, 24⟩, ⟨0, 30⟩⟩, scope := 1 }
        resolution := .local { name := "caller", kind := .macroParameter
                               range := ⟨⟨0, 9⟩, ⟨0, 10⟩⟩, visibleFrom := ⟨0, 21⟩
                               implicit := true } } ∈ analysis.references := by
  intro source tags tag name analysis
  have hread : ReadAt source [] tag (tags.drop 1) := ⟨by decide +kernel, rfl⟩
  have hform : tag.form = .statement := by decide +kernel
  have hdeclares : Header.Declares tag.body name .macroParameter :=
    Header.declares_iff.mpr (by decide +kernel)
  have hlast : ¬ Header.Repeats tag.body name .macroParameter :=
    Header.not_repeats (by decide +kernel)
  have hlost : { range := name.range, name := name.text, kind := .macroParameter } ∉
      declarations (ofSource source).scopes ++ (ofSource source).templates ++ (ofSource source).links ++
        (errorsOf (ofSource source) {} none).map identifierOf := by decide +kernel
  exact ⟨hread, hform, hdeclares, hlast, fun hmem => hlost (Identifier.mem_of_mem_normalize hmem),
    by decide +kernel⟩

end Analysis

end TemplateAnalysis
