import TemplateAnalysis.Proofs.Scope.Extension

namespace TemplateAnalysis

namespace Scope

variable {binding kept : Binding} {bindings declared before after : List Binding}

/-- Whether a declaration takes the place of another one in a scope. -/
def Replaces (binding other : Binding) : Prop :=
  binding.kind.isRedefinable = false ∧ clashes binding other = true

/-- A new declaration takes the place of another one, or it comes last. -/
theorem addBinding_cases (binding : Binding) (bindings : List Binding) :
    (∃ before old after, bindings = before ++ old :: after ∧ Replaces binding old ∧
      addBinding binding bindings = before ++ binding :: after) ∨
    addBinding binding bindings = bindings ++ [binding] := by
  rw [addBinding]
  split
  next hreplaces =>
    obtain ⟨hkind, hclash⟩ := Bool.and_eq_true_iff.mp hreplaces
    obtain ⟨before, old, after, hsplit, hold, hreplaced⟩ := replaceBinding_split hclash
    exact .inl ⟨before, old, after, hsplit, ⟨(Bool.not_eq_true' _).mp hkind, hold⟩, hreplaced⟩
  next => exact .inr rfl

/-- A declaration stays in its scope until another one takes its place. -/
theorem mem_addBinding_of_mem (hmem : kept ∈ bindings) (hkeeps : ¬ Replaces binding kept) :
    kept ∈ addBinding binding bindings := by
  rcases addBinding_cases binding bindings with ⟨before, old, after, rfl, hold, hadded⟩ | hadded
  · rw [hadded]
    rcases List.mem_append.mp hmem with hbefore | hbehind
    · exact List.mem_append_left _ hbefore
    · rcases List.mem_cons.mp hbehind with rfl | hafter
      · exact absurd hold hkeeps
      · exact List.mem_append_right before (List.mem_cons_of_mem binding hafter)
  · rw [hadded]
    exact List.mem_append_left _ hmem

/-- The bindings of a scope after more declarations, one after the other. -/
def addAll (bindings declared : List Binding) : List Binding :=
  declared.foldl (fun bindings binding => addBinding binding bindings) bindings

@[simp] theorem addAll_nil (bindings : List Binding) : addAll bindings [] = bindings := rfl

theorem addAll_append (bindings first second : List Binding) :
    addAll bindings (first ++ second) = addAll (addAll bindings first) second :=
  List.foldl_append

theorem mem_of_mem_addAll (hmem : kept ∈ addAll bindings declared) :
    kept ∈ bindings ∨ kept ∈ declared := by
  induction declared generalizing bindings with
  | nil => exact .inl hmem
  | cons binding rest ih =>
    rcases ih hmem with hadded | hrest
    · rcases ScopeTree.mem_addBinding hadded with rfl | hmem
      · exact .inr List.mem_cons_self
      · exact .inl hmem
    · exact .inr (List.mem_cons_of_mem binding hrest)

theorem mem_addAll_of_mem (hmem : kept ∈ bindings)
    (hkeeps : ∀ binding ∈ declared, ¬ Replaces binding kept) : kept ∈ addAll bindings declared := by
  induction declared generalizing bindings with
  | nil => exact hmem
  | cons binding rest ih =>
    obtain ⟨hbinding, hrest⟩ := List.forall_mem_cons.mp hkeeps
    exact ih (mem_addBinding_of_mem hmem hbinding) hrest

end Scope

namespace ScopeTree

/-- The declarations for one of the scopes. -/
def declaredIn (id : ScopeId) (declared : List (ScopeId × Binding)) : List Binding :=
  (declared.filter (·.1 == id)).map (·.2)

section DeclaredIn

variable {id scope : ScopeId} {binding : Binding} {bindings : List Binding}
  {declared : List (ScopeId × Binding)}

theorem mem_declaredIn : binding ∈ declaredIn id declared ↔ (id, binding) ∈ declared := by
  simp [declaredIn]

theorem declaredIn_append (first second : List (ScopeId × Binding)) :
    declaredIn id (first ++ second) = declaredIn id first ++ declaredIn id second := by
  simp [declaredIn]

theorem declaredIn_scoped (id : ScopeId) (bindings : List Binding) :
    declaredIn id (bindings.map (id, ·)) = bindings := by
  simp [declaredIn, List.filter_map, Function.comp_def]

end DeclaredIn

/-- The scopes of the later tree declare what those of the earlier one declare and, one after the other,
    the given names. -/
structure Gains (tree later : ScopeTree) (declared : List (ScopeId × Binding)) : Prop where
  nextId : tree.nextId ≤ later.nextId
  bindingsOf : ∀ id < later.nextId,
    later.bindingsOf id = Scope.addAll (tree.bindingsOf id) (declaredIn id declared)

/-- No declaration of the earlier tree is missing in the later one. -/
structure Keeps (tree later : ScopeTree) : Prop where
  nextId : tree.nextId ≤ later.nextId
  bindingsOf : ∀ id, ∀ binding ∈ tree.bindingsOf id, binding ∈ later.bindingsOf id

variable {tree middle later : ScopeTree} {declared : List (ScopeId × Binding)} {id scope : ScopeId}
  {binding : Binding}

theorem lt_nextId_of_mem (hmem : binding ∈ tree.bindingsOf id) : id < tree.nextId := by
  by_contra hge
  rw [bindingsOf_of_nextId_le (Nat.le_of_not_lt hge)] at hmem
  cases hmem

namespace Keeps

theorem refl (tree : ScopeTree) : Keeps tree tree :=
  ⟨le_refl _, fun _ _ => id⟩

theorem trans (hfirst : Keeps tree middle) (hsecond : Keeps middle later) : Keeps tree later :=
  ⟨hfirst.nextId.trans hsecond.nextId,
    fun id binding hmem => hsecond.bindingsOf id binding (hfirst.bindingsOf id binding hmem)⟩

end Keeps

namespace Gains

theorem refl (tree : ScopeTree) : Gains tree tree [] :=
  ⟨le_refl _, fun _ _ => rfl⟩

/-- A new scope declares nothing. -/
theorem insert (tree : ScopeTree) (kind : ScopeKind) (parent : ScopeId) (start : Position) :
    Gains tree (tree.insert kind parent start) [] where
  nextId := by simp
  bindingsOf id _ := by
    rw [bindingsOf_insert]
    split
    next hnew =>
      rw [hnew, bindingsOf_of_nextId_le (le_refl _)]
      rfl
    next => rfl

theorem define (hgains : Gains tree later declared) (scope : ScopeId) (binding : Binding) :
    Gains tree (later.define scope binding) (declared ++ [(scope, binding)]) where
  nextId := by simpa using hgains.nextId
  bindingsOf id hid := by
    rw [nextId_define] at hid
    rw [declaredIn_append, Scope.addAll_append, ← hgains.bindingsOf id hid]
    by_cases hsame : scope = id
    · subst hsame
      have hone : declaredIn scope [(scope, binding)] = [binding] := declaredIn_scoped scope [binding]
      rw [bindingsOf_define _ _ _ _ hid, if_pos rfl, hone]
      rfl
    · have hnone : declaredIn id [(scope, binding)] = [] := by simp [declaredIn, hsame]
      rw [bindingsOf_define_of_ne _ _ _ _ hsame, hnone, Scope.addAll_nil]

theorem defineAll (hgains : Gains tree later declared) (scope : ScopeId) (bindings : List Binding) :
    Gains tree (later.defineAll scope bindings) (declared ++ bindings.map (scope, ·)) := by
  induction bindings generalizing later declared with
  | nil => rwa [List.map_nil, List.append_nil]
  | cons binding rest ih =>
    have hrest := ih (hgains.define scope binding)
    rwa [List.append_assoc, List.singleton_append] at hrest

theorem of_same (hgains : Gains tree middle declared) (hsize : later.nextId = middle.nextId)
    (hsame : ∀ id, later.bindingsOf id = middle.bindingsOf id) : Gains tree later declared :=
  ⟨hsize ▸ hgains.nextId, fun id hid => (hsame id).trans (hgains.bindingsOf id (hsize ▸ hid))⟩

theorem setStart (hgains : Gains tree later declared) (scope : ScopeId) (start : Position) :
    Gains tree (later.setStart scope start) declared :=
  hgains.of_same (nextId_setStart ..) fun _ => bindingsOf_setStart ..

theorem close (hgains : Gains tree later declared) (scope : ScopeId) (stop : Position) :
    Gains tree (later.close scope stop) declared :=
  hgains.of_same (nextId_close ..) fun _ => bindingsOf_close ..

theorem closeAtEnd (hgains : Gains tree later declared) (scope : ScopeId) (stop : Position) :
    Gains tree (later.closeAtEnd scope stop) declared :=
  hgains.of_same (nextId_closeAtEnd ..) fun _ => bindingsOf_closeAtEnd ..

/-- Only a new scope may declare names that could take the place of others. -/
theorem keeps (hgains : Gains tree later declared)
    (hnew : ∀ pair ∈ declared, pair.2.kind.isRedefinable = true ∨ tree.nextId ≤ pair.1) :
    Keeps tree later := by
  refine ⟨hgains.nextId, fun id binding hmem => ?_⟩
  have hid := lt_nextId_of_mem hmem
  rw [hgains.bindingsOf id (hid.trans_le hgains.nextId)]
  refine Scope.mem_addAll_of_mem hmem fun other hother hreplaces => ?_
  rcases hnew (id, other) (mem_declaredIn.mp hother) with hkind | hle
  · rw [hreplaces.1] at hkind
    cases hkind
  · exact hle.not_gt hid

end Gains

end ScopeTree

end TemplateAnalysis
