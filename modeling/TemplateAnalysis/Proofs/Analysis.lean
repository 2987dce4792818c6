import TemplateAnalysis.Analysis
import TemplateAnalysis.Proofs.Identifier
import TemplateAnalysis.Proofs.Template.Declarations
import TemplateAnalysis.Proofs.Template.References

namespace TemplateAnalysis.Analysis

open Template (Outline Reference)

variable {source : Source} {index : Host.Index} {family : Option HostLanguage}
  {reference : Reference} {identifier : Identifier}

/-- A reference has no declaration if no binding around it, no program and no builtin has its
    name. -/
theorem resolve_unresolved_iff {scopes : ScopeTree} :
    (∃ reason, resolve scopes index family reference = .unresolved reason) ↔
      scopes.resolve reference.scope reference.text reference.range.start = none ∧
        index.latest? reference.text family = none ∧
        Vocabulary.isBuiltin reference.text = false := by
  unfold resolve
  cases hlocal : scopes.resolve reference.scope reference.text reference.range.start with
  | some found => simp
  | none =>
    cases hhost : index.latest? reference.text family with
    | some entry => simp
    | none => cases hbuiltin : Vocabulary.isBuiltin reference.text <;> simp

/-- The errors of a template are those of its references. -/
def errorsOf (outline : Outline) (index : Host.Index) (family : Option HostLanguage) :
    List SemanticError :=
  (outline.references.map fun reference =>
    { reference, resolution := resolve outline.scopes index family reference }).filterMap errorOf?

theorem mem_errorsOf {outline : Outline} {error : SemanticError} :
    error ∈ errorsOf outline index family ↔ ∃ reference ∈ outline.references, ∃ reason,
      resolve outline.scopes index family reference = .unresolved reason ∧
        error = { name := reference.text, range := reference.range, reason } := by
  simp only [errorsOf, List.mem_filterMap, List.mem_map]
  constructor
  · rintro ⟨_, ⟨reference, hreference, rfl⟩, herror⟩
    refine ⟨reference, hreference, ?_⟩
    unfold errorOf? at herror
    split at herror
    next reason hreason => exact ⟨reason, hreason, (Option.some.inj herror).symm⟩
    next => cases herror
  · rintro ⟨reference, hreference, reason, hreason, rfl⟩
    exact ⟨_, ⟨reference, hreference, rfl⟩, by simp [errorOf?, hreason]⟩

/-- A declaration is listed if it stands in the text. -/
theorem mem_declarations {scopes : ScopeTree} : identifier ∈ declarations scopes ↔
    ∃ binding ∈ scopes.bindings, binding.implicit = false ∧
      identifier = { range := binding.range, name := binding.name, kind := binding.kind } := by
  simp only [declarations, List.mem_map, List.mem_filter, Bool.not_eq_true', and_assoc]
  exact exists_congr fun binding => and_congr_right fun _ => and_congr_right fun _ => eq_comm

/-- No declaration, template name or link of a template reports an undefined variable. -/
theorem defined_of_mem (hmem : identifier ∈ declarations (Outline.ofSource source).scopes ++
      (Outline.ofSource source).templates ++ (Outline.ofSource source).links) :
    identifier.error = none ∧ identifier.kind ≠ .undefinedVariable := by
  have hdeclares := Outline.declares_finish source
  rcases List.mem_append.mp hmem with hmem | hlink
  · rcases List.mem_append.mp hmem with hdeclaration | htemplate
    · obtain ⟨binding, hbinding, _, rfl⟩ := mem_declarations.mp hdeclaration
      have hdeclared := Outline.isDeclared_of_mem_bindings hbinding
      refine ⟨rfl, fun hkind => ?_⟩
      rw [show binding.kind = .undefinedVariable from hkind] at hdeclared
      cases hdeclared
    · obtain ⟨hkind, herror⟩ := hdeclares.templates identifier htemplate
      exact ⟨herror, by rw [hkind]; decide⟩
  · obtain ⟨hkind, herror⟩ := hdeclares.links identifier hlink
    exact ⟨herror, by rw [hkind]; decide⟩

/-- The identifiers that report an undefined variable are those of the errors. -/
theorem eq_identifierOf_of_mem (hmem : identifier ∈ declarations (Outline.ofSource source).scopes ++
      (Outline.ofSource source).templates ++ (Outline.ofSource source).links ++
        (errorsOf (Outline.ofSource source) index family).map identifierOf)
    (hkind : identifier.kind = .undefinedVariable) :
    ∃ error ∈ errorsOf (Outline.ofSource source) index family, identifier = identifierOf error := by
  rcases List.mem_append.mp hmem with hmem | hmem
  · exact absurd hkind (defined_of_mem hmem).2
  · obtain ⟨error, herror, hidentifier⟩ := List.mem_map.mp hmem
    exact ⟨error, herror, hidentifier.symm⟩

/-- The undefined variables among the identifiers of a template are the references without a
    declaration. -/
theorem mem_undefined_iff :
    (identifier ∈ (ofOutline (Outline.ofSource source) index family).identifiers ∧
        identifier.kind = .undefinedVariable) ↔
      ∃ reference ∈ (Outline.ofSource source).references, ∃ reason,
        resolve (Outline.ofSource source).scopes index family reference = .unresolved reason ∧
          identifier = identifierOf { name := reference.text, range := reference.range, reason } := by
  constructor
  · rintro ⟨hmem, hkind⟩
    obtain ⟨error, herror, rfl⟩ := eq_identifierOf_of_mem (Identifier.mem_of_mem_normalize hmem) hkind
    obtain ⟨reference, hreference, reason, hreason, rfl⟩ := mem_errorsOf.mp herror
    exact ⟨reference, hreference, reason, hreason, rfl⟩
  · rintro ⟨reference, hreference, reason, hreason, rfl⟩
    refine ⟨Identifier.mem_normalize ?_ ?_, rfl⟩
    · exact List.mem_append_right _ (List.mem_map_of_mem
        (mem_errorsOf.mpr ⟨reference, hreference, reason, hreason, rfl⟩))
    · intro other hother hsame
      rw [Identifier.sameRecord, Bool.and_eq_true, beq_iff_eq, beq_iff_eq] at hsame
      obtain ⟨error, herror, rfl⟩ := eq_identifierOf_of_mem hother hsame.2
      obtain ⟨reference', hreference', reason', hreason', rfl⟩ := mem_errorsOf.mp herror
      obtain rfl := Outline.reference_eq_of_range hreference' hreference hsame.1
      rw [hreason, Resolution.unresolved.injEq] at hreason'
      rw [hreason']

end TemplateAnalysis.Analysis
