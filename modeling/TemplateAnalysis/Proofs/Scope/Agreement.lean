import TemplateAnalysis.Proofs.Scope.Visible

namespace TemplateAnalysis

namespace Scope

variable {scope : Scope} {name : String} {position : Position} {binding : Binding}

/-- The declarations of a name that references can mean and that take effect at one position, in the
    order in which the scope keeps them. -/
def namesakes (scope : Scope) (name : String) (start : Position) : List Binding :=
  scope.bindings.filter fun binding =>
    binding.kind.bindsReferences && binding.name == name && decide (binding.visibleFrom = start)

theorem namesakes_eq {start : Position} (hstart : start ≤ position) :
    scope.namesakes name start = (scope.visible position).filter fun binding =>
      binding.name == name && decide (binding.visibleFrom = start) := by
  rw [namesakes, visible, List.filter_filter]
  refine List.filter_congr fun binding _ => ?_
  by_cases hsame : binding.visibleFrom = start
  · simp [hsame, hstart, Bool.and_comm]
  · simp [hsame]

/-- Of several candidates that are visible from the same position on the last one counts. -/
theorem getLast?_of_latest_eq_some {best : Option Binding} {bindings : List Binding}
    (hlatest : latest best bindings = some binding) :
    ((best.toList ++ bindings).filter fun other =>
      decide (other.visibleFrom = binding.visibleFrom)).getLast? = some binding := by
  induction bindings generalizing best with
  | nil =>
    rw [latest] at hlatest
    simp [hlatest]
  | cons first rest ih =>
    cases best with
    | none => exact ih hlatest
    | some best =>
      rw [latest] at hlatest
      by_cases hle : best.visibleFrom ≤ first.visibleFrom
      · rw [if_pos hle] at hlatest
        have hlast := ih hlatest
        rw [Option.toList_some, List.singleton_append] at hlast ⊢
        rw [List.filter_cons]
        split
        · rw [List.getLast?_cons, hlast]
          rfl
        · exact hlast
      · rw [if_neg hle] at hlatest
        have hbest := (of_latest_eq_some hlatest).2 best (.inl rfl)
        have hfirst : first.visibleFrom ≠ binding.visibleFrom :=
          ((lt_of_not_ge hle).trans_le hbest).ne
        have hlast := ih hlatest
        rw [Option.toList_some, List.singleton_append, List.filter_cons] at hlast ⊢
        rwa [List.filter_cons_of_neg (by simpa using hfirst)]

/-- A name refers to the last one of the declarations that take effect latest. -/
theorem getLast?_namesakes (hlookup : scope.lookup? name position = some binding) :
    (scope.namesakes name binding.visibleFrom).getLast? = some binding := by
  obtain ⟨_, _, _, _, _, _, _, hposition⟩ := find?_newestFirst_of_some hlookup
  have hlast := getLast?_of_latest_eq_some hlookup
  rw [Option.toList_none, List.nil_append, List.filter_filter] at hlast
  rw [namesakes_eq hposition, ← hlast]
  exact congrArg List.getLast? (List.filter_congr fun other _ => Bool.and_comm _ _)

/-- Sorting is stable: it keeps the order of declarations that take effect at the same position. -/
theorem filter_newestFirst {start : Position} (hstart : start ≤ position) :
    ((scope.newestFirst position).filter fun binding =>
      binding.name == name && decide (binding.visibleFrom = start)) = scope.namesakes name start := by
  rw [namesakes_eq hstart]
  refine filter_mergeSort later_trans later_total (fun first second hfirst hsecond => ?_) _
  rw [Bool.and_eq_true, decide_eq_true_eq] at hfirst hsecond
  rw [hfirst.2, hsecond.2]
  exact decide_eq_true (le_refl start)

/-- The first declaration that a scope offers under a name is the first one of those that take effect
    latest. -/
theorem head?_namesakes {shown : Binding} (hlookup : scope.lookup? name position = some binding)
    (hshown : (scope.newestFirst position).find? (·.name == name) = some shown) :
    (scope.namesakes name binding.visibleFrom).head? = some shown := by
  obtain ⟨other, hother, _, _, hname, _, hsame, hposition⟩ := find?_newestFirst_of_some hlookup
  obtain rfl : other = shown := Option.some.inj (hother.symm.trans hshown)
  obtain ⟨_, before, after, hsplit, hbefore⟩ := List.find?_eq_some_iff_append.mp hshown
  have hskipped : (before.filter fun binding' =>
      binding'.name == name && decide (binding'.visibleFrom = binding.visibleFrom)) = [] := by
    rw [List.filter_eq_nil_iff]
    intro earlier hearlier
    have hdiffers := hbefore earlier hearlier
    rw [Bool.not_eq_true'] at hdiffers
    rw [hdiffers, Bool.false_and]
    exact Bool.false_ne_true
  rw [← filter_newestFirst hposition, hsplit, List.filter_append, hskipped, List.nil_append,
    List.filter_cons_of_pos (by simp [hname, hsame]), List.head?_cons]

/-- How the binding that a scope offers under a name and the binding to which the name refers in the
    scope belong together: they take effect at the same position, the latest one that is not behind
    the given position, and of the declarations of the name that take effect there the offered one
    is the first and the other one the last. -/
structure Agree (scope : Scope) (name : String) (position : Position) (shown binding : Binding) :
    Prop where
  shown_mem : shown ∈ scope.bindings
  binding_mem : binding ∈ scope.bindings
  visibleFrom_eq : shown.visibleFrom = binding.visibleFrom
  visibleFrom_le : binding.visibleFrom ≤ position
  greatest : ∀ other ∈ scope.bindings, other.kind.bindsReferences → other.name = name →
    other.visibleFrom ≤ position → other.visibleFrom ≤ binding.visibleFrom
  first : (scope.namesakes name binding.visibleFrom).head? = some shown
  last : (scope.namesakes name binding.visibleFrom).getLast? = some binding

/-- Two different bindings agree on a name only if several declarations share the position. -/
theorem Agree.eq_of_length_le {shown : Binding} (hagree : scope.Agree name position shown binding)
    (hsingle : (scope.namesakes name binding.visibleFrom).length ≤ 1) : shown = binding := by
  have hfirst := hagree.first
  have hlast := hagree.last
  match hnamesakes : scope.namesakes name binding.visibleFrom with
  | [] =>
    rw [hnamesakes] at hfirst
    cases hfirst
  | [only] =>
    rw [hnamesakes] at hfirst hlast
    exact (Option.some.inj hfirst).symm.trans (Option.some.inj hlast)
  | first :: second :: rest =>
    rw [hnamesakes] at hsingle
    simp at hsingle

/-- A scope that binds a name offers a binding of this name that agrees with it. -/
theorem exists_agree (hlookup : scope.lookup? name position = some binding) :
    ∃ shown, (scope.newestFirst position).find? (·.name == name) = some shown ∧
      scope.Agree name position shown binding := by
  obtain ⟨shown, hshown, hoffered, hbinding, -, -, hsame, hposition⟩ :=
    find?_newestFirst_of_some hlookup
  refine ⟨shown, hshown, hoffered, hbinding, hsame, hposition, ?_,
    head?_namesakes hlookup hshown, getLast?_namesakes hlookup⟩
  intro other hother hbinds hname hvisible
  refine (of_latest_eq_some hlookup).2 other (.inr ?_)
  simp [visible, hother, hbinds, hname, hvisible]

end Scope

namespace ScopeTree

variable {tree : ScopeTree} {id : ScopeId} {name : String} {position : Position}

/-- The binding that a name has in the first one of several scopes that gives it one. -/
def resolveIn (entries : List (ScopeId × Scope)) (name : String) (position : Position) :
    Option (ScopeId × Binding) :=
  entries.findSome? fun entry => (entry.2.lookup? name position).map fun binding =>
    (entry.1, binding)

theorem resolve_eq_resolveIn (tree : ScopeTree) (id : ScopeId) (name : String)
    (position : Position) :
    tree.resolve id name position = resolveIn (tree.chain id) name position := rfl

/-- A scope that offers a binding binds its name, so an entry at the front resolves it. -/
theorem resolveIn_cons_of_mem {entry : ScopeId × Scope} (rest : List (ScopeId × Scope))
    {binding : Binding} (hmem : binding ∈ entry.2.newestFirst position) :
    ∃ found, resolveIn (entry :: rest) binding.name position = some (entry.1, found) := by
  cases hlookup : entry.2.lookup? binding.name position with
  | none =>
    have hnone := List.find?_eq_none.mp (Scope.find?_newestFirst_of_none hlookup) binding hmem
    exact absurd (beq_self_eq_true binding.name) hnone
  | some found =>
    refine ⟨found, ?_⟩
    rw [resolveIn, List.findSome?_cons, hlookup]
    rfl

/-- A scope that offers no binding of a name leaves it to the scopes around. -/
theorem resolveIn_cons_of_forall {entry : ScopeId × Scope} {rest : List (ScopeId × Scope)}
    (hother : ∀ binding ∈ entry.2.newestFirst position, name ≠ binding.name) :
    resolveIn (entry :: rest) name position = resolveIn rest name position := by
  have hlookup : entry.2.lookup? name position = none := by
    cases hlookup : entry.2.lookup? name position with
    | none => rfl
    | some found =>
      obtain ⟨other, hfound, -, -, hname, -⟩ := Scope.find?_newestFirst_of_some hlookup
      exact absurd hname.symm (hother other (List.mem_of_find?_eq_some hfound))
  rw [resolveIn, List.findSome?_cons, hlookup]
  rfl

/-- What one of several scopes offers is bound in one of them. -/
theorem exists_resolveIn_of_mem {entries : List (ScopeId × Scope)} {binding : Binding}
    (hmem : binding ∈ entries.flatMap fun entry => entry.2.newestFirst position) :
    ∃ found, resolveIn entries binding.name position = some found ∧ found.1 ∈ entries.map (·.1) := by
  obtain ⟨entry, hentry, hoffered⟩ := List.mem_flatMap.mp hmem
  have hbound : (resolveIn entries binding.name position).isSome = true := by
    refine List.findSome?_isSome_iff.mpr ⟨entry, hentry, ?_⟩
    obtain ⟨found, hfound⟩ := resolveIn_cons_of_mem [] hoffered
    rw [resolveIn, List.findSome?_cons] at hfound
    cases hlookup : entry.2.lookup? binding.name position with
    | none => simp [hlookup] at hfound
    | some found => rfl
  obtain ⟨found, hfound⟩ := Option.isSome_iff_exists.mp hbound
  obtain ⟨entry, hentry, hlookup⟩ := List.exists_of_findSome?_eq_some hfound
  obtain ⟨_, _, rfl⟩ := Option.map_eq_some_iff.mp hlookup
  exact ⟨_, hfound, List.mem_map_of_mem hentry⟩

/-- Of the distinct names that scopes offer one after the other, each one is bound in the scope of
    the name before it or behind that scope. -/
theorem pairwise_distinctBy_newestFirst (entries : List (ScopeId × Scope)) (position : Position) :
    (distinctBy Binding.name (entries.flatMap fun entry => entry.2.newestFirst position)).Pairwise
      fun first second => ∃ inner outer, resolveIn entries first.name position = some inner ∧
        resolveIn entries second.name position = some outer ∧
        ∃ before after, entries.map (·.1) = before ++ inner.1 :: after ∧
          outer.1 ∈ inner.1 :: after := by
  induction entries with
  | nil => exact .nil
  | cons entry rest ih =>
    rw [List.flatMap_cons, distinctBy_append, List.pairwise_append]
    have hown : ∀ binding ∈ distinctBy Binding.name (entry.2.newestFirst position),
        ∃ found, resolveIn (entry :: rest) binding.name position = some (entry.1, found) :=
      fun binding hmem => resolveIn_cons_of_mem _ (mem_of_mem_distinctBy hmem)
    have hadded : ∀ binding ∈ (distinctBy Binding.name (rest.flatMap fun entry =>
        entry.2.newestFirst position)).filter (fun element =>
          (entry.2.newestFirst position).all fun other => element.name != other.name),
        resolveIn (entry :: rest) binding.name position = resolveIn rest binding.name position := by
      intro binding hmem
      refine resolveIn_cons_of_forall fun other hother => ?_
      have hdiffers := List.all_eq_true.mp (List.mem_filter.mp hmem).2 other hother
      exact bne_iff_ne.mp hdiffers
    -- Both names are bound in the first scope, or both behind it, or the first one in it and the
    -- other one behind it.
    refine ⟨?_, ?_, ?_⟩
    · refine List.pairwise_of_forall_mem_list fun first hfirst second hsecond => ?_
      obtain ⟨inner, hinner⟩ := hown first hfirst
      obtain ⟨outer, houter⟩ := hown second hsecond
      exact ⟨_, _, hinner, houter, [], rest.map (·.1), rfl, List.mem_cons_self⟩
    · refine (ih.sublist List.filter_sublist).imp_of_mem fun {first second} hfirst hsecond hpair => ?_
      obtain ⟨inner, outer, hinner, houter, before, after, hids, hmem⟩ := hpair
      refine ⟨inner, outer, (hadded first hfirst).trans hinner, (hadded second hsecond).trans houter,
        entry.1 :: before, after, ?_, hmem⟩
      rw [List.map_cons, hids, List.cons_append]
    · intro first hfirst second hsecond
      obtain ⟨inner, hinner⟩ := hown first hfirst
      obtain ⟨outer, houter, hmem⟩ :=
        exists_resolveIn_of_mem (mem_of_mem_distinctBy (List.mem_filter.mp hsecond).1)
      exact ⟨_, outer, hinner, (hadded second hsecond).trans houter, [], rest.map (·.1), rfl,
        List.mem_cons_of_mem _ hmem⟩

/-- What comes behind a scope on a chain is the chain of that scope. -/
theorem chainIds_of_split {inner : ScopeId} {before after : List ScopeId}
    (hids : tree.chainIds id = before ++ inner :: after) : tree.chainIds inner = inner :: after := by
  induction id using Nat.strong_induction_on generalizing before with
  | _ id ih =>
    cases hscope : tree.scopes[id]? with
    | none =>
      rw [chainIds, chain, hscope] at hids
      simp at hids
    | some scope =>
      cases before with
      | nil =>
        have hhead : id = inner := by
          rw [chainIds, chain, hscope] at hids
          exact (List.cons.inj hids).1
        rw [← hhead, hids, List.nil_append, hhead]
      | cons first before =>
        rw [chainIds, chain, hscope] at hids
        have htail := (List.cons.inj hids).2
        split at htail
        next parent _ =>
          split at htail
          next hlt => exact ih parent hlt htail
          next => simp at htail
        next => simp at htail

/-- What encloses a scope has no greater number. -/
theorem le_of_mem_chainIds {outer : ScopeId} (hmem : outer ∈ tree.chainIds id) : outer ≤ id := by
  rw [chainIds, List.mem_map] at hmem
  obtain ⟨entry, hentry, rfl⟩ := hmem
  fun_induction tree.chain id with
  | case1 => cases hentry
  | case2 id scope hscope ih =>
    rcases List.mem_cons.mp hentry with rfl | hentry
    · exact le_refl _
    · split at hentry
      next parent _ =>
        split at hentry
        next hlt => exact (ih parent hlt hentry).trans hlt.le
        next => cases hentry
      next => cases hentry

/-- A name that refers to a binding at a position is visible there once, as what the scope of this
    binding offers. -/
theorem exists_agree_of_resolve {binding : Binding}
    (hresolve : tree.resolve (tree.innermostAt position) name position = some (id, binding)) :
    ∃ scope shown, tree.scopes[id]? = some scope ∧
      (tree.visibleAt position).filter (·.name == name) = [shown] ∧
      scope.Agree name position shown binding := by
  obtain ⟨before, entry, after, hchain, hentry, hbefore⟩ :=
    List.findSome?_eq_some_iff.mp hresolve
  obtain ⟨found, hlookup, hfound⟩ := Option.map_eq_some_iff.mp hentry
  obtain ⟨rfl, rfl⟩ := Prod.mk.inj hfound
  obtain ⟨shown, hshown, hagree⟩ := Scope.exists_agree hlookup
  have hmem : entry ∈ tree.chain (tree.innermostAt position) := by simp [hchain]
  refine ⟨entry.2, shown, getElem?_of_mem_chain hmem, ?_, hagree⟩
  rw [filter_visibleAt, List.findSome?_eq_some_iff.mpr, Option.toList_some]
  exact ⟨before, entry, after, hchain, hshown, fun earlier hearlier =>
    Scope.find?_newestFirst_of_none (Option.map_eq_none_iff.mp (hbefore earlier hearlier))⟩

/-- The bindings that are visible at a position agree with what names refer to there. A name is
    visible once if it refers to a binding from the innermost scope around the position, and not at
    all otherwise. Both bindings come from one scope and agree in it; they are the same one unless
    several declarations of the name share the position from which they are visible. Names that inner
    scopes bind come before those of the scopes around. -/
theorem visibleAt_agrees (tree : ScopeTree) (position : Position) :
    (∀ name,
      ((tree.visibleAt position).filter (·.name == name)).length =
        (if (tree.resolve (tree.innermostAt position) name position).isSome then 1 else 0) ∧
      ∀ id binding, tree.resolve (tree.innermostAt position) name position = some (id, binding) →
        ∃ scope shown, tree.scopes[id]? = some scope ∧
          (tree.visibleAt position).filter (·.name == name) = [shown] ∧
          scope.Agree name position shown binding ∧
          ((scope.namesakes name binding.visibleFrom).length ≤ 1 → shown = binding)) ∧
    (tree.visibleAt position).Pairwise fun first second => ∃ inner outer,
      tree.resolve (tree.innermostAt position) first.name position = some inner ∧
      tree.resolve (tree.innermostAt position) second.name position = some outer ∧
      outer.1 ∈ tree.chainIds inner.1 := by
  refine ⟨fun name => ⟨?_, fun id binding hresolve => ?_⟩, ?_⟩
  · cases hresolve : tree.resolve (tree.innermostAt position) name position with
    | none =>
      rw [filter_visibleAt_of_none hresolve]
      rfl
    | some found =>
      obtain ⟨_, shown, _, hshown, _⟩ := exists_agree_of_resolve hresolve
      rw [hshown]
      rfl
  · obtain ⟨scope, shown, hscope, hshown, hagree⟩ := exists_agree_of_resolve hresolve
    exact ⟨scope, shown, hscope, hshown, hagree, hagree.eq_of_length_le⟩
  · refine (pairwise_distinctBy_newestFirst _ position).imp fun hpair => ?_
    obtain ⟨inner, outer, hinner, houter, before, after, hids, hmem⟩ := hpair
    rw [← resolve_eq_resolveIn] at hinner houter
    exact ⟨inner, outer, hinner, houter, (chainIds_of_split hids).symm ▸ hmem⟩

end ScopeTree

end TemplateAnalysis
