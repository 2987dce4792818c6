import TemplateAnalysis.Proofs.Analysis.Conservation
import TemplateAnalysis.Proofs.Template.Origin

namespace TemplateAnalysis

/-- Whether the identifier declares a name as something to which a reference can be bound. -/
def Identifier.declaresName (name : String) (identifier : Identifier) : Bool :=
  identifier.name == name && identifier.kind.bindsReferences

namespace Analysis

open Template (Outline Reference)

/-- Why a name is not visible, as far as the identifiers of a template tell: the first of them that
    declares it is somewhere else. -/
def reasonAmong (identifiers : List Identifier) (name : String) : UnresolvedReason :=
  match identifiers.find? (·.declaresName name) with
  | some declaration => .declaredOutOfScope name (declaration.range.start.line + 1)
  | none => .notInScope name

variable {source : Source} {index : Host.Index} {family : Option HostLanguage}
  {reference : Reference} {reason : UnresolvedReason} {name : String} {identifier : Identifier}

/-- A name that the body of a macro has without declaring it counts as declared where the macro has its
    name, though no identifier of the template has that name. -/
theorem implicit_name_told :
    let source : Source := { name := "page.html"
                             text := "\x7b% macro m() %\x7d\x7b% endmacro %\x7d\x7b\x7b caller \x7d\x7d" }
    let reference : Reference :=
      { text := "caller", range := ⟨⟨0, 32⟩, ⟨0, 38⟩⟩, scope := ScopeTree.root }
    let table := (ofOutline (Outline.ofSource source) {} none).identifiers
    reference ∈ (Outline.ofSource source).references ∧
      resolve (Outline.ofSource source).scopes {} none reference =
        .unresolved (.declaredOutOfScope "caller" 1) ∧
      (∀ identifier ∈ table, identifier.declaresName "caller" = false) ∧
      reasonAmong table "caller" = .notInScope "caller" := by
  intro source reference table
  have hreference : reference ∈ (Outline.ofSource source).references := by decide +kernel
  have hunresolved : resolve (Outline.ofSource source).scopes {} none reference =
      .unresolved (.declaredOutOfScope "caller" 1) := by decide +kernel
  have hread : ∀ identifier ∈ declarations (Outline.ofSource source).scopes ++
      (Outline.ofSource source).templates ++ (Outline.ofSource source).links ++
        (errorsOf (Outline.ofSource source) {} none).map identifierOf,
      identifier.declaresName "caller" = false := by decide +kernel
  have htable : ∀ identifier ∈ table, identifier.declaresName "caller" = false :=
    fun identifier hmem => hread identifier (Identifier.mem_of_mem_normalize hmem)
  have hnone : table.find? (·.declaresName "caller") = none :=
    List.find?_eq_none.mpr fun identifier hmem => ne_true_of_eq_false (htable identifier hmem)
  exact ⟨hreference, hunresolved, htable, by rw [reasonAmong, hnone]⟩

end Analysis

end TemplateAnalysis
