import Mathlib.Data.List.Forall2
import TemplateAnalysis.Proofs.Analysis
import TemplateAnalysis.Proofs.Template.Classification

namespace TemplateAnalysis

/-- Whether a reference refers to nothing. -/
def Resolution.isUnresolved : Resolution → Bool
  | .unresolved _ => true
  | _ => false

/-- The error tells where the reference stands, its name, and why it refers to nothing. -/
def SemanticError.Reports (error : SemanticError) (resolved : ResolvedReference) : Prop :=
  resolved.resolution = .unresolved error.reason ∧ error.name = resolved.reference.text ∧
    error.range = resolved.reference.range

namespace Analysis

open Template (Outline)

variable {source : Source} {index : Host.Index} {family : Option HostLanguage}

/-- Errors come in the order of the references. -/
theorem errors_reported (references : List ResolvedReference) :
    List.Forall₂ SemanticError.Reports (references.filterMap errorOf?)
      (references.filter (·.resolution.isUnresolved)) := by
  induction references with
  | nil => exact .nil
  | cons resolved rest ih =>
    cases hresolution : resolved.resolution with
    | unresolved reason =>
      have herror : errorOf? resolved = some
          { name := resolved.reference.text, range := resolved.reference.range, reason } := by
        rw [errorOf?, hresolution]
      rw [List.filterMap_cons_some herror, List.filter_cons_of_pos (by rw [hresolution]; rfl)]
      exact .cons ⟨hresolution, rfl, rfl⟩ ih
    | _ =>
      have herror : errorOf? resolved = none := by rw [errorOf?, hresolution]
      rw [List.filterMap_cons_none herror, List.filter_cons_of_neg]
      · exact ih
      · rw [hresolution]
        exact Bool.false_ne_true

theorem ranges_errorsOf_sublist (outline : Outline) (index : Host.Index)
    (family : Option HostLanguage) :
    ((errorsOf outline index family).map (·.range)).Sublist (outline.references.map (·.range)) := by
  let resolved : List ResolvedReference := outline.references.map fun reference =>
    { reference, resolution := resolve outline.scopes index family reference }
  have hsame : (errorsOf outline index family).map (·.range) =
      (resolved.filter (·.resolution.isUnresolved)).map (·.reference.range) := by
    rw [← List.forall₂_eq_eq_eq, List.forall₂_map_left_iff, List.forall₂_map_right_iff]
    exact (errors_reported resolved).imp fun _ _ hreports => hreports.2.2
  have hkept := (List.filter_sublist (l := resolved) (p := (·.resolution.isUnresolved))).map
    (·.reference.range)
  rw [hsame]
  rwa [List.map_map] at hkept

/-- The identifiers of a template before they are put in order stand in different places. -/
theorem ranges_nodup (source : Source) (index : Host.Index) (family : Option HostLanguage) :
    ((declarations (Outline.ofSource source).scopes ++ (Outline.ofSource source).templates ++
      (Outline.ofSource source).links ++
        (errorsOf (Outline.ofSource source) index family).map identifierOf).map (·.range)).Nodup := by
  have hdeclarations : (↑((declarations (Outline.ofSource source).scopes).map (·.range)) :
      Multiset Range) = (Outline.ofSource source).scopes.ranges := by
    rw [declarations, List.map_map]
    rfl
  have herrors : (↑(((errorsOf (Outline.ofSource source) index family).map identifierOf).map
      (·.range)) : Multiset Range) ≤ ↑((Outline.ofSource source).references.map (·.range)) := by
    rw [List.map_map]
    exact Multiset.coe_le.mpr (ranges_errorsOf_sublist _ index family).subperm
  rw [← Multiset.coe_nodup, List.map_append, List.map_append, List.map_append, ← Multiset.coe_add,
    ← Multiset.coe_add, ← Multiset.coe_add, hdeclarations]
  exact Multiset.nodup_of_le (add_le_add (le_refl _) herrors)
    (Outline.ranges_recorded_nodup source)

end Analysis

end TemplateAnalysis
