import TemplateAnalysis.Proofs.Scope.Tree
import TemplateAnalysis.Proofs.Sorting

namespace TemplateAnalysis

namespace Scope

variable {scope : Scope} {name : String} {position : Position} {binding : Binding}
  {bindings : List Binding}

theorem latest_eq_none_iff : latest none bindings = none ↔ bindings = [] := by
  have hsome : ∀ (bindings : List Binding) (best : Binding), latest (some best) bindings ≠ none := by
    intro bindings
    induction bindings with
    | nil => exact fun best => Option.some_ne_none best
    | cons first rest ih =>
      intro best
      rw [latest]
      split <;> exact ih _
  cases bindings with
  | nil => exact iff_of_true rfl rfl
  | cons first rest => exact iff_of_false (hsome rest first) (List.cons_ne_nil first rest)

/-- The binding that counts is one of the candidates, and none of them is visible later. -/
theorem of_latest_eq_some {best : Option Binding} (hlatest : latest best bindings = some binding) :
    (binding ∈ best ∨ binding ∈ bindings) ∧
      ∀ other, other ∈ best ∨ other ∈ bindings → other.visibleFrom ≤ binding.visibleFrom := by
  induction bindings generalizing best with
  | nil =>
    rw [latest] at hlatest
    refine ⟨.inl hlatest, fun other hother => ?_⟩
    rcases hother with hother | hother
    · rw [hlatest, Option.mem_some_iff] at hother
      exact hother ▸ le_refl _
    · cases hother
  | cons first rest ih =>
    cases best with
    | none =>
      obtain ⟨hmem, hall⟩ := ih hlatest
      refine ⟨.inr ?_, fun other hother => hall other ?_⟩
      · simpa [eq_comm] using hmem
      · simpa [eq_comm] using hother
    | some best =>
      rw [latest] at hlatest
      obtain ⟨hmem, hall⟩ := ih hlatest
      by_cases hle : best.visibleFrom ≤ first.visibleFrom
      · rw [if_pos hle] at hmem hall
        refine ⟨.inr ?_, fun other hother => ?_⟩
        · simpa [eq_comm] using hmem
        · rcases hother with hother | hother
          · rw [← Option.mem_some_iff.mp hother]
            exact hle.trans (hall first (.inl rfl))
          · exact hall other (by simpa [eq_comm] using hother)
      · rw [if_neg hle] at hmem hall
        refine ⟨hmem.imp_right (List.mem_cons_of_mem first), fun other hother => ?_⟩
        rcases hother with hother | hother
        · exact hall other (.inl hother)
        · rcases List.mem_cons.mp hother with rfl | hother
          · exact (lt_of_not_ge hle).le.trans (hall best (.inl rfl))
          · exact hall other (.inr hother)

/-- The bindings of a scope that are visible at a position, the later ones first. -/
def newestFirst (scope : Scope) (position : Position) : List Binding :=
  (scope.visible position).mergeSort fun first second =>
    decide (second.visibleFrom ≤ first.visibleFrom)

theorem mem_newestFirst : binding ∈ scope.newestFirst position ↔ binding ∈ scope.visible position :=
  List.mem_mergeSort

theorem later_trans (first second third : Binding)
    (hfirst : decide (second.visibleFrom ≤ first.visibleFrom) = true)
    (hsecond : decide (third.visibleFrom ≤ second.visibleFrom) = true) :
    decide (third.visibleFrom ≤ first.visibleFrom) = true := by
  rw [decide_eq_true_eq] at hfirst hsecond ⊢
  exact hsecond.trans hfirst

theorem later_total (first second : Binding) : (decide (second.visibleFrom ≤ first.visibleFrom) ||
    decide (first.visibleFrom ≤ second.visibleFrom)) = true := by
  rw [Bool.or_eq_true, decide_eq_true_eq, decide_eq_true_eq]
  exact le_total second.visibleFrom first.visibleFrom

theorem newestFirst_pairwise (scope : Scope) (position : Position) :
    (scope.newestFirst position).Pairwise fun first second =>
      second.visibleFrom ≤ first.visibleFrom :=
  (List.pairwise_mergeSort later_trans later_total (scope.visible position)).imp of_decide_eq_true

theorem find?_newestFirst_of_none (hlookup : scope.lookup? name position = none) :
    (scope.newestFirst position).find? (·.name == name) = none := by
  rw [lookup?, latest_eq_none_iff, List.filter_eq_nil_iff] at hlookup
  rw [List.find?_eq_none]
  exact fun binding hmem => hlookup binding (mem_newestFirst.mp hmem)

/-- A scope that binds a name offers a binding of this name. It is the same one, or one that is
    visible from the same position on. -/
theorem find?_newestFirst_of_some (hlookup : scope.lookup? name position = some binding) :
    ∃ other, (scope.newestFirst position).find? (·.name == name) = some other ∧
      other ∈ scope.bindings ∧ binding ∈ scope.bindings ∧ other.name = name ∧ binding.name = name ∧
      other.visibleFrom = binding.visibleFrom ∧ binding.visibleFrom ≤ position := by
  obtain ⟨hmem, hlatest⟩ := of_latest_eq_some hlookup
  have hmem := hmem.resolve_left (Option.not_mem_none binding)
  have hlatest : ∀ other ∈ scope.visible position, other.name = name →
      other.visibleFrom ≤ binding.visibleFrom := fun other hother hname =>
    hlatest other (.inr (List.mem_filter.mpr ⟨hother, beq_iff_eq.mpr hname⟩))
  obtain ⟨hvisible, hname⟩ := List.mem_filter.mp hmem
  rw [beq_iff_eq] at hname
  obtain ⟨hbinding, hposition⟩ := List.mem_filter.mp hvisible
  rw [Bool.and_eq_true, decide_eq_true_eq] at hposition
  have hoffered : ((scope.newestFirst position).find? (·.name == name)).isSome = true :=
    List.find?_isSome.mpr ⟨binding, mem_newestFirst.mpr hvisible, beq_iff_eq.mpr hname⟩
  obtain ⟨other, hfound⟩ := Option.isSome_iff_exists.mp hoffered
  obtain ⟨hsame, before, after, hsplit, hbefore⟩ := List.find?_eq_some_iff_append.mp hfound
  have hother : other ∈ scope.visible position := mem_newestFirst.mp (by simp [hsplit])
  have hsame : other.name = name := beq_iff_eq.mp hsame
  refine ⟨other, hfound, (List.mem_filter.mp hother).1, hbinding, hsame, hname,
    le_antisymm (hlatest other hother hsame) ?_, hposition.2⟩
  have hpairwise := newestFirst_pairwise scope position
  have hlisted := mem_newestFirst.mpr hvisible
  rw [hsplit] at hpairwise hlisted
  rcases List.mem_append.mp hlisted with hearlier | hrest
  · have hdiffers := hbefore binding hearlier
    rw [hname] at hdiffers
    simp at hdiffers
  · rcases List.mem_cons.mp hrest with rfl | hlater
    · exact le_refl _
    · exact (List.pairwise_cons.mp (List.pairwise_append.mp hpairwise).2.1).1 binding hlater

/-- A name has the same binding at two positions if no declaration takes effect between them. -/
theorem lookup?_congr {later : Position} (name : String)
    (hsame : ∀ binding ∈ scope.bindings,
      (binding.visibleFrom ≤ position ↔ binding.visibleFrom ≤ later)) :
    scope.lookup? name position = scope.lookup? name later := by
  have hvisible : scope.visible position = scope.visible later :=
    List.filter_congr fun binding hmem => by rw [decide_eq_decide.mpr (hsame binding hmem)]
  rw [lookup?, lookup?, hvisible]

theorem lookup?_eq_none (hother : ∀ binding ∈ scope.bindings, binding.name = name →
    position < binding.visibleFrom) : scope.lookup? name position = none := by
  rw [lookup?, latest_eq_none_iff, List.filter_eq_nil_iff]
  intro binding hmem hname
  obtain ⟨hbinding, hvisible⟩ := List.mem_filter.mp hmem
  rw [Bool.and_eq_true, decide_eq_true_eq] at hvisible
  exact (hother binding hbinding (beq_iff_eq.mp hname)).not_ge hvisible.2

end Scope

namespace ScopeTree

variable {tree : ScopeTree} {id : ScopeId} {name : String} {position : Position}

theorem getElem?_of_mem_chain {entry : ScopeId × Scope} (hmem : entry ∈ tree.chain id) :
    tree.scopes[entry.1]? = some entry.2 := by
  fun_induction tree.chain id with
  | case1 => cases hmem
  | case2 id scope hscope ih =>
    rcases List.mem_cons.mp hmem with rfl | hmem
    · exact hscope
    · split at hmem
      next parent _ =>
        split at hmem
        next hlt => exact ih parent hlt hmem
        next => cases hmem
      next => cases hmem

theorem bindingsOf_of_mem_chain {entry : ScopeId × Scope} (hmem : entry ∈ tree.chain id) :
    tree.bindingsOf entry.1 = entry.2.bindings := by
  rw [bindingsOf, getElem?_of_mem_chain hmem]
  rfl

theorem visibleAt_eq (tree : ScopeTree) (position : Position) : tree.visibleAt position =
    distinctBy Binding.name ((tree.chain (tree.innermostAt position)).flatMap fun entry =>
      entry.2.newestFirst position) := rfl

/-- What is visible under a name at a position is the first thing that a scope around it offers. -/
theorem filter_visibleAt (tree : ScopeTree) (name : String) (position : Position) :
    (tree.visibleAt position).filter (·.name == name) =
      ((tree.chain (tree.innermostAt position)).findSome? fun entry =>
        (entry.2.newestFirst position).find? (·.name == name)).toList := by
  rw [visibleAt_eq, filter_distinctBy, List.find?_flatMap]

/-- A name that refers to nothing at a position is not visible there. -/
theorem filter_visibleAt_of_none
    (hresolve : tree.resolve (tree.innermostAt position) name position = none) :
    (tree.visibleAt position).filter (·.name == name) = [] := by
  rw [resolve, List.findSome?_eq_none_iff] at hresolve
  rw [filter_visibleAt, List.findSome?_eq_none_iff.mpr, Option.toList_none]
  exact fun entry hentry =>
    Scope.find?_newestFirst_of_none (Option.map_eq_none_iff.mp (hresolve entry hentry))

/-- A name that refers to a binding at a position is visible there once: as this binding, or as one of
    the same scope that is visible from the same position on. -/
theorem filter_visibleAt_of_some {found : ScopeId × Binding}
    (hresolve : tree.resolve (tree.innermostAt position) name position = some found) :
    ∃ other, (tree.visibleAt position).filter (·.name == name) = [other] ∧
      other ∈ tree.bindingsOf found.1 ∧ found.2 ∈ tree.bindingsOf found.1 ∧
      other.name = name ∧ found.2.name = name ∧
      other.visibleFrom = found.2.visibleFrom ∧ found.2.visibleFrom ≤ position := by
  obtain ⟨before, entry, after, hchain, hentry, hbefore⟩ :=
    List.findSome?_eq_some_iff.mp hresolve
  obtain ⟨binding, hlookup, rfl⟩ := Option.map_eq_some_iff.mp hentry
  obtain ⟨other, hfound, hother, hbinding, hnames⟩ := Scope.find?_newestFirst_of_some hlookup
  have hmem : entry ∈ tree.chain (tree.innermostAt position) := by simp [hchain]
  refine ⟨other, ?_, ?_, ?_, hnames⟩
  · rw [filter_visibleAt, List.findSome?_eq_some_iff.mpr, Option.toList_some]
    exact ⟨before, entry, after, hchain, hfound, fun earlier hearlier =>
      Scope.find?_newestFirst_of_none (Option.map_eq_none_iff.mp (hbefore earlier hearlier))⟩
  · rwa [bindingsOf_of_mem_chain hmem]
  · rwa [bindingsOf_of_mem_chain hmem]

/-- A name refers to the same binding at two positions if no declaration around them takes effect
    between them. -/
theorem resolve_congr {later : Position} (name : String)
    (hsame : ∀ scope ∈ tree.chainIds id, ∀ binding ∈ tree.bindingsOf scope,
      (binding.visibleFrom ≤ position ↔ binding.visibleFrom ≤ later)) :
    tree.resolve id name position = tree.resolve id name later := by
  have hlookups : ∀ entries : List (ScopeId × Scope), (∀ entry ∈ entries, ∀ binding ∈ entry.2.bindings,
      (binding.visibleFrom ≤ position ↔ binding.visibleFrom ≤ later)) →
      entries.findSome? (fun entry => (entry.2.lookup? name position).map fun binding =>
        (entry.1, binding)) =
      entries.findSome? (fun entry => (entry.2.lookup? name later).map fun binding =>
        (entry.1, binding)) := by
    intro entries hentries
    induction entries with
    | nil => rfl
    | cons entry rest ih =>
      obtain ⟨hentry, hrest⟩ := List.forall_mem_cons.mp hentries
      rw [List.findSome?_cons, List.findSome?_cons, Scope.lookup?_congr name hentry, ih hrest]
  refine hlookups _ fun entry hentry binding hbinding => ?_
  refine hsame entry.1 (List.mem_map_of_mem hentry) binding ?_
  rwa [bindingsOf_of_mem_chain hentry]

/-- A name that a scope does not bind at a position refers to what it refers to in the scope
    around. -/
theorem resolve_of_parent {parent : ScopeId} (hparent : tree.parent? id = some parent)
    (hlt : parent < id) (hother : ∀ binding ∈ tree.bindingsOf id, binding.name = name →
      position < binding.visibleFrom) :
    tree.resolve id name position = tree.resolve parent name position := by
  obtain ⟨scope, hscope, hscopeParent⟩ := Option.bind_eq_some_iff.mp hparent
  have hbindings : tree.bindingsOf id = scope.bindings := by
    rw [bindingsOf, hscope]
    rfl
  rw [hbindings] at hother
  rw [resolve, resolve, chain_of_parent hscope hscopeParent hlt, List.findSome?_cons]
  simp only [Scope.lookup?_eq_none hother, Option.map_none]

/-- What a name refers to is declared in one of the scopes around it, and has taken effect there. -/
theorem mem_of_resolve {found : ScopeId} {binding : Binding}
    (hresolve : tree.resolve id name position = some (found, binding)) :
    found ∈ tree.chainIds id ∧ binding ∈ tree.bindingsOf found ∧
      binding.visibleFrom ≤ position := by
  obtain ⟨entry, hmem, hentry⟩ := List.exists_of_findSome?_eq_some hresolve
  obtain ⟨other, hlookup, hfound⟩ := Option.map_eq_some_iff.mp hentry
  obtain ⟨rfl, rfl⟩ := Prod.mk.inj hfound
  obtain ⟨_, _, _, hbinding, _, _, _, hposition⟩ := Scope.find?_newestFirst_of_some hlookup
  exact ⟨List.mem_map_of_mem hmem, (bindingsOf_of_mem_chain hmem).symm ▸ hbinding, hposition⟩

end ScopeTree

end TemplateAnalysis
