import TemplateAnalysis.Proofs.Position
import TemplateAnalysis.Scope

namespace TemplateAnalysis.ScopeTree

/-- The scope around a scope. -/
def parent? (tree : ScopeTree) (id : ScopeId) : Option ScopeId :=
  tree.scopes[id]?.bind (·.parent)

/-- The range of a scope. -/
def range? (tree : ScopeTree) (id : ScopeId) : Option Range :=
  tree.scopes[id]?.map (·.range)

/-- The names that a scope declares itself. -/
def bindingsOf (tree : ScopeTree) (id : ScopeId) : List Binding :=
  (tree.scopes[id]?.map (·.bindings)).getD []

/-- Whether nothing has closed a scope before the end of the file. -/
def isOpenEnded (tree : ScopeTree) (id : ScopeId) : Bool :=
  tree.scopes[id]?.any (·.openEnded)

/-- The numbers of a scope and of the scopes around it, from the inside out. -/
def chainIds (tree : ScopeTree) (id : ScopeId) : List ScopeId :=
  (tree.chain id).map (·.1)

theorem exists_scope {tree : ScopeTree} {id : ScopeId} (hid : id < tree.nextId) :
    ∃ scope, tree.scopes[id]? = some scope :=
  ⟨_, List.getElem?_eq_getElem hid⟩

section Modify

variable (tree : ScopeTree) (id other : ScopeId) (change : Scope → Scope)

theorem scopes_modify :
    (tree.modify id change).scopes[other]? =
      if id = other then tree.scopes[other]?.map change else tree.scopes[other]? := by
  rw [modify, List.getElem?_modify]
  split <;> simp

@[simp] theorem nextId_modify : (tree.modify id change).nextId = tree.nextId := by
  simp [nextId, modify]

theorem parent?_modify (hchange : ∀ scope, (change scope).parent = scope.parent) :
    (tree.modify id change).parent? other = tree.parent? other := by
  rw [parent?, scopes_modify]
  have hparents : (·.parent) ∘ change = (·.parent) := funext hchange
  split
  · rw [Option.bind_map, hparents, parent?]
  · rfl

theorem range?_modify (hchange : ∀ scope, (change scope).range = scope.range) :
    (tree.modify id change).range? other = tree.range? other := by
  rw [range?, scopes_modify]
  split <;> simp [range?, Function.comp_def, hchange]

theorem bindingsOf_modify (hchange : ∀ scope, (change scope).bindings = scope.bindings) :
    (tree.modify id change).bindingsOf other = tree.bindingsOf other := by
  rw [bindingsOf, scopes_modify]
  split <;> simp [bindingsOf, Function.comp_def, hchange]

theorem isOpenEnded_modify (hchange : ∀ scope, (change scope).openEnded = scope.openEnded) :
    (tree.modify id change).isOpenEnded other = tree.isOpenEnded other := by
  rw [isOpenEnded, scopes_modify]
  split <;> simp [isOpenEnded, Option.any_map, hchange]

end Modify

section Operations

variable (tree : ScopeTree) (id other : ScopeId)

@[simp] theorem nextId_define (binding : Binding) : (tree.define id binding).nextId = tree.nextId :=
  nextId_modify _ _ _

@[simp] theorem nextId_setStart (start : Position) : (tree.setStart id start).nextId = tree.nextId :=
  nextId_modify _ _ _

@[simp] theorem nextId_close (stop : Position) : (tree.close id stop).nextId = tree.nextId :=
  nextId_modify _ _ _

@[simp] theorem nextId_insert (kind : ScopeKind) (start : Position) :
    (tree.insert kind id start).nextId = tree.nextId + 1 := by
  simp [nextId, insert]

@[simp] theorem parent?_define (binding : Binding) :
    (tree.define id binding).parent? other = tree.parent? other :=
  parent?_modify _ _ _ _ fun _ => rfl

@[simp] theorem parent?_setStart (start : Position) :
    (tree.setStart id start).parent? other = tree.parent? other :=
  parent?_modify _ _ _ _ fun _ => rfl

@[simp] theorem parent?_close (stop : Position) :
    (tree.close id stop).parent? other = tree.parent? other :=
  parent?_modify _ _ _ _ fun _ => rfl

@[simp] theorem range?_define (binding : Binding) :
    (tree.define id binding).range? other = tree.range? other :=
  range?_modify _ _ _ _ fun _ => rfl

theorem range?_setStart (start : Position) :
    (tree.setStart id start).range? other =
      if id = other then
        (tree.range? other).map fun range => { start, stop := max range.stop start }
      else tree.range? other := by
  rw [range?, setStart, scopes_modify]
  split <;> simp [range?, Function.comp_def]

theorem range?_close (stop : Position) :
    (tree.close id stop).range? other =
      if id = other then
        (tree.range? other).map fun range => { range with stop := max stop range.start }
      else tree.range? other := by
  rw [range?, close, scopes_modify]
  split <;> simp [range?, Function.comp_def]

@[simp] theorem bindingsOf_setStart (start : Position) :
    (tree.setStart id start).bindingsOf other = tree.bindingsOf other :=
  bindingsOf_modify _ _ _ _ fun _ => rfl

@[simp] theorem bindingsOf_close (stop : Position) :
    (tree.close id stop).bindingsOf other = tree.bindingsOf other :=
  bindingsOf_modify _ _ _ _ fun _ => rfl

@[simp] theorem isOpenEnded_define (binding : Binding) :
    (tree.define id binding).isOpenEnded other = tree.isOpenEnded other :=
  isOpenEnded_modify _ _ _ _ fun _ => rfl

@[simp] theorem isOpenEnded_setStart (start : Position) :
    (tree.setStart id start).isOpenEnded other = tree.isOpenEnded other :=
  isOpenEnded_modify _ _ _ _ fun _ => rfl

@[simp] theorem isOpenEnded_close (stop : Position) :
    (tree.close id stop).isOpenEnded other = tree.isOpenEnded other :=
  isOpenEnded_modify _ _ _ _ fun _ => rfl

@[simp] theorem nextId_closeAtEnd (stop : Position) :
    (tree.closeAtEnd id stop).nextId = tree.nextId := by
  rw [closeAtEnd, nextId_modify, nextId_close]

@[simp] theorem parent?_closeAtEnd (stop : Position) :
    (tree.closeAtEnd id stop).parent? other = tree.parent? other := by
  rw [closeAtEnd, parent?_modify, parent?_close]
  exact fun _ => rfl

theorem range?_closeAtEnd (stop : Position) :
    (tree.closeAtEnd id stop).range? other = (tree.close id stop).range? other :=
  range?_modify _ _ _ _ fun _ => rfl

@[simp] theorem bindingsOf_closeAtEnd (stop : Position) :
    (tree.closeAtEnd id stop).bindingsOf other = tree.bindingsOf other := by
  rw [closeAtEnd, bindingsOf_modify, bindingsOf_close]
  exact fun _ => rfl

theorem isOpenEnded_closeAtEnd (stop : Position) (hid : id < tree.nextId) :
    (tree.closeAtEnd id stop).isOpenEnded other = (id == other || tree.isOpenEnded other) := by
  rw [closeAtEnd, isOpenEnded, scopes_modify]
  by_cases hsame : id = other
  · subst hsame
    obtain ⟨scope, hscope⟩ := exists_scope ((nextId_close tree id stop).symm ▸ hid)
    simp [hscope]
  · have hother := isOpenEnded_close tree id other stop
    rw [isOpenEnded] at hother
    simp [hsame, hother]

theorem getElem?_insert (kind : ScopeKind) (start : Position) :
    (tree.insert kind id start).scopes[other]? =
      if other = tree.nextId then
        some { kind, range := { start, stop := max ((tree.range? id).map (·.stop) |>.getD start) start }
               parent := some id }
      else tree.scopes[other]? := by
  simp only [insert, nextId, range?, Option.map_map, Function.comp_def]
  rcases Nat.lt_trichotomy other tree.scopes.length with hlt | rfl | hgt
  · rw [List.getElem?_append_left hlt, if_neg (Nat.ne_of_lt hlt)]
  · simp
  · rw [List.getElem?_append_right (Nat.le_of_lt hgt), if_neg (Nat.ne_of_gt hgt)]
    rw [List.getElem?_eq_none (by simp; omega), List.getElem?_eq_none (by omega)]

theorem parent?_insert (kind : ScopeKind) (start : Position) :
    (tree.insert kind id start).parent? other =
      if other = tree.nextId then some id else tree.parent? other := by
  rw [parent?, getElem?_insert]
  split <;> rfl

theorem range?_insert (kind : ScopeKind) (start : Position) :
    (tree.insert kind id start).range? other =
      if other = tree.nextId then
        some { start, stop := max ((tree.range? id).map (·.stop) |>.getD start) start }
      else tree.range? other := by
  rw [range?, getElem?_insert]
  split <;> rfl

theorem bindingsOf_insert (kind : ScopeKind) (start : Position) :
    (tree.insert kind id start).bindingsOf other =
      if other = tree.nextId then [] else tree.bindingsOf other := by
  rw [bindingsOf, getElem?_insert]
  split <;> rfl

theorem isOpenEnded_insert (kind : ScopeKind) (start : Position) :
    (tree.insert kind id start).isOpenEnded other =
      (other != tree.nextId && tree.isOpenEnded other) := by
  rw [isOpenEnded, getElem?_insert]
  split <;> simp_all [isOpenEnded]

theorem bindingsOf_define (binding : Binding) (hid : id < tree.nextId) :
    (tree.define id binding).bindingsOf other =
      if id = other then Scope.addBinding binding (tree.bindingsOf other)
      else tree.bindingsOf other := by
  rw [bindingsOf, define, scopes_modify]
  by_cases hsame : id = other
  · subst hsame
    obtain ⟨scope, hscope⟩ := exists_scope hid
    simp [hscope, bindingsOf, Scope.define]
  · simp [hsame, bindingsOf]

theorem bindingsOf_define_of_ne (binding : Binding) (hne : id ≠ other) :
    (tree.define id binding).bindingsOf other = tree.bindingsOf other := by
  rw [bindingsOf, define, scopes_modify, if_neg hne, bindingsOf]

theorem mem_addBinding {binding declared : Binding} {bindings : List Binding}
    (hmem : declared ∈ Scope.addBinding binding bindings) :
    declared = binding ∨ declared ∈ bindings := by
  have hreplace : ∀ bindings, declared ∈ Scope.replaceBinding binding bindings →
      declared = binding ∨ declared ∈ bindings := by
    intro bindings hmem
    induction bindings with
    | nil => cases hmem
    | cons other rest ih =>
      rw [Scope.replaceBinding] at hmem
      split at hmem
      · exact (List.mem_cons.mp hmem).imp_right (List.mem_cons_of_mem other)
      · rcases List.mem_cons.mp hmem with rfl | hmem
        · exact .inr List.mem_cons_self
        · exact (ih hmem).imp_right (List.mem_cons_of_mem other)
  unfold Scope.addBinding at hmem
  split at hmem
  · exact hreplace bindings hmem
  · exact (List.mem_append.mp hmem).symm.imp_left List.mem_singleton.mp

theorem mem_bindingsOf_define {binding declared : Binding}
    (hmem : declared ∈ (tree.define id binding).bindingsOf other) :
    declared = binding ∨ declared ∈ tree.bindingsOf other := by
  by_cases hid : id < tree.nextId
  · rw [bindingsOf_define _ _ _ _ hid] at hmem
    split at hmem
    · exact mem_addBinding hmem
    · exact .inr hmem
  · have hnone : tree.scopes[id]? = none := List.getElem?_eq_none (Nat.le_of_not_lt hid)
    refine .inr ?_
    rw [bindingsOf, define, scopes_modify] at hmem
    split at hmem
    next hsame =>
      rw [← hsame, hnone] at hmem
      cases hmem
    next => exact hmem

theorem mem_bindings {binding : Binding} :
    binding ∈ tree.bindings ↔ ∃ id, binding ∈ tree.bindingsOf id := by
  rw [bindings, List.mem_flatMap]
  constructor
  · rintro ⟨scope, hscope, hmem⟩
    obtain ⟨id, hid⟩ := List.mem_iff_getElem?.mp hscope
    refine ⟨id, ?_⟩
    rw [bindingsOf, hid]
    exact hmem
  · rintro ⟨id, hmem⟩
    cases hid : tree.scopes[id]? with
    | none =>
      rw [bindingsOf, hid] at hmem
      cases hmem
    | some scope =>
      rw [bindingsOf, hid] at hmem
      exact ⟨scope, List.mem_of_getElem? hid, hmem⟩

end Operations

section Chain

variable {tree : ScopeTree} {id parent other : ScopeId}

theorem parent?_eq_none (hid : tree.nextId ≤ id) : tree.parent? id = none := by
  rw [parent?, List.getElem?_eq_none hid, Option.bind_none]

theorem chain_of_parent {scope : Scope} (hscope : tree.scopes[id]? = some scope)
    (hparent : scope.parent = some parent) (hlt : parent < id) :
    tree.chain id = (id, scope) :: tree.chain parent := by
  rw [chain, hscope]
  simp [hparent, hlt]

theorem chain_of_root {scope : Scope} (hscope : tree.scopes[id]? = some scope)
    (hparent : scope.parent = none) : tree.chain id = [(id, scope)] := by
  rw [chain, hscope]
  simp [hparent]

theorem chainIds_of_parent (hparent : tree.parent? id = some parent) (hlt : parent < id) :
    tree.chainIds id = id :: tree.chainIds parent := by
  obtain ⟨scope, hscope, hscopeParent⟩ := Option.bind_eq_some_iff.mp hparent
  rw [chainIds, chain_of_parent hscope hscopeParent hlt]
  rfl

theorem chainIds_of_root (hid : id < tree.nextId) (hparent : tree.parent? id = none) :
    tree.chainIds id = [id] := by
  obtain ⟨scope, hscope⟩ := exists_scope hid
  rw [parent?, hscope, Option.bind_some] at hparent
  rw [chainIds, chain_of_root hscope hparent]
  rfl

/-- The scopes of a tree are chained: the first one has no parent, and the parent of any other scope
    was created before it. -/
structure Chained (tree : ScopeTree) : Prop where
  pos : 0 < tree.nextId
  parent?_root : tree.parent? root = none
  parent : ∀ id, id ≠ root → id < tree.nextId →
    ∃ parent, tree.parent? id = some parent ∧ parent < id

namespace Chained

theorem chainIds_root (hchained : tree.Chained) : tree.chainIds root = [root] :=
  chainIds_of_root hchained.pos hchained.parent?_root

/-- Only scopes of the tree have a parent, and it is an older one. -/
theorem parent_lt (hchained : tree.Chained) (hparent : tree.parent? id = some parent) :
    parent < id ∧ id < tree.nextId := by
  have hid : id < tree.nextId := by
    by_contra hge
    rw [parent?_eq_none (Nat.le_of_not_lt hge)] at hparent
    cases hparent
  have hroot : id ≠ root := by
    rintro rfl
    rw [hchained.parent?_root] at hparent
    cases hparent
  obtain ⟨other, hother, hlt⟩ := hchained.parent id hroot hid
  rw [hparent, Option.some.injEq] at hother
  exact ⟨hother ▸ hlt, hid⟩

theorem chainIds_cons (hchained : tree.Chained) (hroot : id ≠ root) (hid : id < tree.nextId) :
    ∃ parent, tree.parent? id = some parent ∧ parent < id ∧
      tree.chainIds id = id :: tree.chainIds parent := by
  obtain ⟨parent, hparent, hlt⟩ := hchained.parent id hroot hid
  exact ⟨parent, hparent, hlt, chainIds_of_parent hparent hlt⟩

theorem head?_chainIds (hchained : tree.Chained) (hid : id < tree.nextId) :
    (tree.chainIds id).head? = some id := by
  by_cases hroot : id = root
  · subst hroot
    rw [hchained.chainIds_root]
    rfl
  · obtain ⟨parent, _, _, hchain⟩ := hchained.chainIds_cons hroot hid
    rw [hchain]
    rfl

theorem mem_chainIds_self (hchained : tree.Chained) (hid : id < tree.nextId) :
    id ∈ tree.chainIds id :=
  List.mem_of_head? (hchained.head?_chainIds hid)

/-- What encloses a scope was created no later than the scope. -/
theorem le_of_mem_chainIds (hchained : tree.Chained) (hid : id < tree.nextId)
    (hmem : other ∈ tree.chainIds id) : other ≤ id := by
  induction id using Nat.strong_induction_on with
  | _ id ih =>
    by_cases hroot : id = root
    · subst hroot
      rw [hchained.chainIds_root, List.mem_singleton] at hmem
      exact hmem.le
    · obtain ⟨parent, _, hlt, hchain⟩ := hchained.chainIds_cons hroot hid
      rw [hchain, List.mem_cons] at hmem
      rcases hmem with rfl | hmem
      · exact le_refl _
      · exact (ih parent hlt (hlt.trans hid) hmem).trans hlt.le

/-- Every chain ends at the root. -/
theorem getLast?_chainIds (hchained : tree.Chained) (hid : id < tree.nextId) :
    (tree.chainIds id).getLast? = some root := by
  induction id using Nat.strong_induction_on with
  | _ id ih =>
    by_cases hroot : id = root
    · subst hroot
      rw [hchained.chainIds_root]
      rfl
    · obtain ⟨parent, _, hlt, hchain⟩ := hchained.chainIds_cons hroot hid
      rw [hchain, List.getLast?_cons, ih parent hlt (hlt.trans hid)]
      rfl

/-- The parent of a scope that encloses another one encloses it too. -/
theorem mem_chainIds_of_parent (hchained : tree.Chained) (hid : id < tree.nextId)
    (hmem : other ∈ tree.chainIds id) (hparent : tree.parent? other = some parent) :
    parent ∈ tree.chainIds id := by
  induction id using Nat.strong_induction_on with
  | _ id ih =>
    by_cases hroot : id = root
    · subst hroot
      rw [hchained.chainIds_root, List.mem_singleton] at hmem
      rw [hmem, hchained.parent?_root] at hparent
      cases hparent
    · obtain ⟨inner, hinner, hlt, hchain⟩ := hchained.chainIds_cons hroot hid
      rw [hchain, List.mem_cons] at hmem ⊢
      rcases hmem with rfl | hmem
      · rw [hinner, Option.some.injEq] at hparent
        exact .inr (hparent ▸ hchained.mem_chainIds_self (hlt.trans hid))
      · exact .inr (ih inner hlt (hlt.trans hid) hmem)

end Chained

/-- Chains depend on the parents only. -/
theorem chainIds_congr {first second : ScopeTree} (hfirst : first.Chained)
    (hid : id < first.nextId) (hsize : first.nextId ≤ second.nextId)
    (hparents : ∀ other, other < first.nextId → second.parent? other = first.parent? other) :
    second.chainIds id = first.chainIds id := by
  induction id using Nat.strong_induction_on with
  | _ id ih =>
    by_cases hroot : id = root
    · subst hroot
      rw [hfirst.chainIds_root]
      exact chainIds_of_root (hid.trans_le hsize) ((hparents root hid).trans hfirst.parent?_root)
    · obtain ⟨parent, hparent, hlt, hchain⟩ := hfirst.chainIds_cons hroot hid
      rw [hchain, chainIds_of_parent ((hparents id hid).trans hparent) hlt,
        ih parent hlt (hlt.trans hid)]

theorem Chained.of_parents {first second : ScopeTree} (hfirst : first.Chained)
    (hsize : second.nextId = first.nextId)
    (hparents : ∀ other, second.parent? other = first.parent? other) : second.Chained where
  pos := hsize ▸ hfirst.pos
  parent?_root := (hparents root).trans hfirst.parent?_root
  parent id hroot hid := by
    rw [hparents]
    exact hfirst.parent id hroot (hsize ▸ hid)

theorem Chained.insert (hchained : tree.Chained) {kind : ScopeKind} {start : Position}
    (hid : id < tree.nextId) : (tree.insert kind id start).Chained where
  pos := by
    rw [nextId_insert]
    exact Nat.succ_pos _
  parent?_root := by
    rw [parent?_insert, if_neg (show root ≠ tree.nextId from hchained.pos.ne),
      hchained.parent?_root]
  parent other hroot hother := by
    rw [nextId_insert] at hother
    rw [parent?_insert]
    split
    next hnew => exact ⟨id, rfl, hnew ▸ hid⟩
    next hold => exact hchained.parent other hroot (Nat.lt_of_le_of_ne (Nat.lt_succ_iff.mp hother) hold)

/-- A new scope does not change the chains of the other ones. -/
theorem Chained.chainIds_insert_of_lt (hchained : tree.Chained) {kind : ScopeKind}
    {start : Position} (hother : other < tree.nextId) :
    (tree.insert kind id start).chainIds other = tree.chainIds other := by
  refine chainIds_congr hchained hother (by simp) fun another hanother => ?_
  rw [parent?_insert, if_neg hanother.ne]

/-- The new scope is the innermost one on its own chain. -/
theorem Chained.chainIds_insert (hchained : tree.Chained) {kind : ScopeKind} {start : Position}
    (hid : id < tree.nextId) :
    (tree.insert kind id start).chainIds tree.nextId = tree.nextId :: tree.chainIds id := by
  have hparent : (tree.insert kind id start).parent? tree.nextId = some id := by
    rw [parent?_insert, if_pos rfl]
  rw [chainIds_of_parent hparent hid, hchained.chainIds_insert_of_lt hid]

end Chain

end TemplateAnalysis.ScopeTree
