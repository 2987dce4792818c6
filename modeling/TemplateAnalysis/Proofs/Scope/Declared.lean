import Mathlib.Algebra.Order.Group.Multiset
import TemplateAnalysis.Proofs.Scope.Resolution

namespace TemplateAnalysis

/-- The ranges of the declarations that stand in the text, each as often as it occurs. -/
def declaredRanges (bindings : List Binding) : Multiset Range :=
  ↑((bindings.filter (!·.implicit)).map (·.range))

@[simp] theorem declaredRanges_nil : declaredRanges [] = 0 := rfl

@[simp] theorem declaredRanges_append (first second : List Binding) :
    declaredRanges (first ++ second) = declaredRanges first + declaredRanges second := by
  simp [declaredRanges]

theorem declaredRanges_cons (binding : Binding) (rest : List Binding) :
    declaredRanges (binding :: rest) = declaredRanges [binding] + declaredRanges rest := by
  rw [← List.singleton_append, declaredRanges_append]

theorem range_mem_declaredRanges {binding : Binding} {bindings : List Binding}
    (hmem : binding ∈ bindings) (himplicit : binding.implicit = false) :
    binding.range ∈ declaredRanges bindings :=
  List.mem_map_of_mem (List.mem_filter.mpr ⟨hmem, by rw [himplicit]; rfl⟩)

/-- It does not matter from where on a declaration is visible. -/
theorem declaredRanges_visibleFrom (binding : Binding) (visibleFrom : Position) :
    declaredRanges [{ binding with visibleFrom }] = declaredRanges [binding] := by
  cases himplicit : binding.implicit <;> simp [declaredRanges, himplicit]

/-- What two steps add one after the other. -/
theorem le_add_of_steps {first second before middle later : Multiset Range}
    (hfirst : middle ≤ first + before) (hsecond : later ≤ second + middle) :
    later ≤ first + second + before := by
  calc later ≤ second + middle := hsecond
    _ ≤ second + (first + before) := add_le_add (le_refl second) hfirst
    _ = first + second + before := by rw [← add_assoc, add_comm second]

/-- A declaration is one more in its scope, or it takes the place of another one. -/
theorem declaredRanges_addBinding_le (binding : Binding) (bindings : List Binding) :
    declaredRanges (Scope.addBinding binding bindings) ≤
      declaredRanges [binding] + declaredRanges bindings := by
  have hreplace : ∀ bindings : List Binding, declaredRanges (Scope.replaceBinding binding bindings) ≤
      declaredRanges [binding] + declaredRanges bindings := by
    intro bindings
    induction bindings with
    | nil => exact Multiset.zero_le _
    | cons other rest ih =>
      rw [Scope.replaceBinding]
      split
      · rw [declaredRanges_cons binding, declaredRanges_cons other]
        exact add_le_add (le_refl _) (Multiset.le_add_left _ _)
      · rw [declaredRanges_cons other, declaredRanges_cons other rest, add_left_comm]
        exact add_le_add (le_refl _) ih
  unfold Scope.addBinding
  split
  · exact hreplace bindings
  · rw [declaredRanges_append, add_comm]

namespace ScopeTree

variable (tree : ScopeTree) (id : ScopeId)

/-- The ranges of the declarations of all scopes that stand in the text. -/
def ranges (tree : ScopeTree) : Multiset Range :=
  declaredRanges tree.bindings

variable {tree id} in
theorem range_mem_ranges {binding : Binding} (hmem : binding ∈ tree.bindingsOf id)
    (himplicit : binding.implicit = false) : binding.range ∈ tree.ranges :=
  range_mem_declaredRanges ((mem_bindings tree).mpr ⟨id, hmem⟩) himplicit

/-- A change of one scope adds no more ranges to all of them than it adds to the scope. -/
theorem ranges_modify_le {change : Scope → Scope} {added : Multiset Range}
    (hchange : ∀ scope, declaredRanges (change scope).bindings ≤
      added + declaredRanges scope.bindings) :
    (tree.modify id change).ranges ≤ added + tree.ranges := by
  obtain ⟨scopes⟩ := tree
  simp only [ranges, bindings, modify]
  induction scopes generalizing id with
  | nil =>
    rw [List.modify_nil]
    exact Multiset.zero_le _
  | cons scope rest ih =>
    cases id with
    | zero =>
      rw [List.modify_zero_cons, List.flatMap_cons, List.flatMap_cons, declaredRanges_append,
        declaredRanges_append, ← add_assoc]
      exact add_le_add (hchange scope) (le_refl _)
    | succ id =>
      rw [List.modify_succ_cons, List.flatMap_cons, List.flatMap_cons, declaredRanges_append,
        declaredRanges_append, add_left_comm]
      exact add_le_add (le_refl _) (ih id)

theorem ranges_modify {change : Scope → Scope}
    (hchange : ∀ scope, (change scope).bindings = scope.bindings) :
    (tree.modify id change).ranges = tree.ranges := by
  obtain ⟨scopes⟩ := tree
  simp only [ranges, bindings, modify]
  induction scopes generalizing id with
  | nil => simp
  | cons scope rest ih =>
    cases id with
    | zero => rw [List.modify_zero_cons, List.flatMap_cons, List.flatMap_cons, hchange]
    | succ id =>
      rw [List.modify_succ_cons, List.flatMap_cons, List.flatMap_cons, declaredRanges_append,
        declaredRanges_append, ih id]

@[simp] theorem ranges_setStart (start : Position) : (tree.setStart id start).ranges = tree.ranges :=
  ranges_modify _ _ fun _ => rfl

@[simp] theorem ranges_close (stop : Position) : (tree.close id stop).ranges = tree.ranges :=
  ranges_modify _ _ fun _ => rfl

@[simp] theorem ranges_closeAtEnd (stop : Position) :
    (tree.closeAtEnd id stop).ranges = tree.ranges := by
  rw [closeAtEnd, ranges_modify, ranges_close]
  exact fun _ => rfl

@[simp] theorem ranges_insert (kind : ScopeKind) (start : Position) :
    (tree.insert kind id start).ranges = tree.ranges := by
  simp [ranges, bindings, insert]

theorem ranges_define_le (binding : Binding) :
    (tree.define id binding).ranges ≤ declaredRanges [binding] + tree.ranges :=
  ranges_modify_le _ _ fun scope => declaredRanges_addBinding_le binding scope.bindings

theorem ranges_defineAll_le (bindings : List Binding) :
    (tree.defineAll id bindings).ranges ≤ declaredRanges bindings + tree.ranges := by
  induction bindings generalizing tree with
  | nil => simp [defineAll]
  | cons binding rest ih =>
    rw [declaredRanges_cons]
    exact le_add_of_steps (tree.ranges_define_le id binding) (ih (tree.define id binding))

end ScopeTree

end TemplateAnalysis
