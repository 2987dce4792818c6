import Mathlib.Order.MinMax
import TemplateAnalysis.Proofs.Scope.Tree
import TemplateAnalysis.Proofs.Shift

namespace TemplateAnalysis

/-- The number of a scope behind `count` other scopes. The root is common to all of them. -/
def ScopeTree.renumber (count : Nat) (id : ScopeId) : ScopeId :=
  if id = root then root else id + count

/-- The scope where its text has moved to, behind `count` other scopes. -/
def Scope.map (move : Position → Position) (count : Nat) (scope : Scope) : Scope :=
  { scope with
    range := scope.range.map move
    parent := scope.parent.map (ScopeTree.renumber count)
    bindings := scope.bindings.map (Binding.map move) }

/-- The scope of a part of a text in the whole text. While the scope is open, its end is not known
    yet. -/
def Scope.Embeds (move : Position → Position) (count : Nat) (ended : Prop) (scope whole : Scope) :
    Prop :=
  ∃ stop, whole = { scope.map move count with range := { start := move scope.range.start, stop } } ∧
    (ended → stop = move scope.range.stop)

namespace Scope

variable {move : Position → Position} {count : Nat}

theorem clashes_map (binding other : Binding) :
    clashes (binding.map move) (other.map move) = clashes binding other := rfl

theorem replaceBinding_map (binding : Binding) (bindings : List Binding) :
    replaceBinding (binding.map move) (bindings.map (Binding.map move)) =
      (replaceBinding binding bindings).map (Binding.map move) := by
  induction bindings with
  | nil => rfl
  | cons other rest ih =>
    rw [List.map_cons, replaceBinding, replaceBinding, clashes_map]
    split
    · rfl
    · rw [ih, List.map_cons]

theorem addBinding_map (binding : Binding) (bindings : List Binding) :
    addBinding (binding.map move) (bindings.map (Binding.map move)) =
      (addBinding binding bindings).map (Binding.map move) := by
  have hkind : (binding.map move).kind = binding.kind := rfl
  have hany : (bindings.map (Binding.map move)).any (clashes (binding.map move)) =
      bindings.any (clashes binding) := by
    rw [List.any_map]
    rfl
  rw [addBinding, addBinding, hkind, hany]
  split
  · exact replaceBinding_map binding bindings
  · rw [List.map_append, List.map_singleton]

/-- A name that can be declared anew never takes the place of another declaration. -/
theorem addBinding_of_isRedefinable {binding : Binding} (hkind : binding.kind.isRedefinable = true)
    (bindings : List Binding) : addBinding binding bindings = bindings ++ [binding] := by
  rw [addBinding, hkind]
  rfl

namespace Embeds

variable {ended : Prop} {scope whole : Scope}

theorem define (hembeds : Embeds move count ended scope whole) (binding : Binding) :
    Embeds move count ended (scope.define binding) (whole.define (binding.map move)) := by
  obtain ⟨stop, rfl, hstop⟩ := hembeds
  refine ⟨stop, ?_, hstop⟩
  simp only [Scope.define, Scope.map, addBinding_map]

end Embeds

end Scope

namespace ScopeTree

/-- The number of scopes below the root. -/
def countBelow (tree : ScopeTree) : Nat :=
  tree.scopes.tail.length

theorem renumber_ne_root {count : Nat} {id : ScopeId} (hroot : id ≠ root) :
    renumber count id ≠ root := by
  rw [renumber, if_neg hroot]
  exact Nat.ne_of_gt (Nat.add_pos_left (Nat.pos_of_ne_zero hroot) count)

/-- The scopes of a text and of the text after it as those of one text, in which the second part has
    moved. The two roots become one. -/
def append (move : Position → Position) (earlier later : ScopeTree) : ScopeTree where
  scopes :=
    (later.scopes.take 1).map (fun top => { top with
      range := { top.range with stop := move top.range.stop }
      bindings := earlier.bindingsOf root ++ top.bindings.map (Binding.map move) }) ++
    (earlier.scopes.tail ++ later.scopes.tail.map (Scope.map move earlier.countBelow))

/-- The tree of a part of a text, embedded in the tree of the whole text behind the scopes that were
    read before. The scopes in `inner` are open in both, like the root, and may end in different
    places. -/
structure Embeds (earlier : ScopeTree) (move : Position → Position) (stop stop' : Position)
    (inner : List ScopeId) (tree whole : ScopeTree) : Prop where
  notRoot : root ∉ inner
  top : ∃ declared, tree.scopes[root]? =
      some { kind := .template, range := { stop }, bindings := declared } ∧
    whole.scopes[root]? = some {
      kind := .template, range := { stop := stop' }
      bindings := earlier.bindingsOf root ++ declared.map (Binding.map move) }
  before : ∀ index < earlier.countBelow,
    whole.scopes[index + 1]? = earlier.scopes.tail[index]?
  below : ∀ id scope, id ≠ root → tree.scopes[id]? = some scope →
    ∃ other, whole.scopes[id + earlier.countBelow]? = some other ∧
      scope.Embeds move earlier.countBelow (id ∉ inner) other
  nextId : whole.nextId = tree.nextId + earlier.countBelow

namespace Embeds

variable {earlier tree whole : ScopeTree} {move : Position → Position} {stop stop' : Position}
  {inner : List ScopeId} {id : ScopeId}

theorem nextId_ne_root (hembeds : Embeds earlier move stop stop' inner tree whole) :
    tree.nextId ≠ root := by
  obtain ⟨declared, htop, _⟩ := hembeds.top
  exact (Nat.zero_lt_of_lt (List.getElem?_eq_some_iff.mp htop).1).ne'

theorem renumber_nextId (hembeds : Embeds earlier move stop stop' inner tree whole) :
    renumber earlier.countBelow tree.nextId = whole.nextId := by
  rw [renumber, if_neg hembeds.nextId_ne_root, hembeds.nextId]

/-- A change of a scope below the root is made in both trees alike. It can end the scope. -/
theorem modify {later : List ScopeId} {change change' : Scope → Scope}
    (hembeds : Embeds earlier move stop stop' inner tree whole) (hroot : id ≠ root)
    (hlater : later ⊆ inner) (hothers : ∀ other ∈ inner, other ≠ id → other ∈ later)
    (hchange : ∀ scope other, scope.Embeds move earlier.countBelow (id ∉ inner) other →
      (change scope).Embeds move earlier.countBelow (id ∉ later) (change' other)) :
    Embeds earlier move stop stop' later (tree.modify id change)
      (whole.modify (renumber earlier.countBelow id) change') where
  notRoot hmem := hembeds.notRoot (hlater hmem)
  top := by
    obtain ⟨declared, htop, hwhole⟩ := hembeds.top
    refine ⟨declared, ?_, ?_⟩
    · rw [scopes_modify, if_neg hroot, htop]
    · rw [scopes_modify, if_neg (renumber_ne_root hroot), hwhole]
  before index hindex := by
    have hne : renumber earlier.countBelow id ≠ index + 1 := by
      rw [renumber, if_neg hroot]
      exact (Nat.lt_of_le_of_lt hindex (Nat.lt_add_of_pos_left (Nat.pos_of_ne_zero hroot))).ne'
    rw [scopes_modify, if_neg hne, hembeds.before index hindex]
  below other scope hother hscope := by
    rw [scopes_modify] at hscope
    rw [scopes_modify, renumber, if_neg hroot]
    by_cases hsame : id = other
    · subst hsame
      rw [if_pos rfl] at hscope ⊢
      obtain ⟨old, hold, rfl⟩ := Option.map_eq_some_iff.mp hscope
      obtain ⟨joint, hjoint, hrelated⟩ := hembeds.below id old hother hold
      exact ⟨change' joint, by rw [hjoint, Option.map_some], hchange old joint hrelated⟩
    · rw [if_neg hsame] at hscope
      obtain ⟨joint, hjoint, end', hrange, hended⟩ := hembeds.below other scope hother hscope
      refine ⟨joint, ?_, end', hrange, fun houtside => hended fun hmem => ?_⟩
      · rw [if_neg fun heq => hsame (Nat.add_right_cancel heq), hjoint]
      · exact houtside (hothers other hmem (Ne.symm hsame))
  nextId := by rw [nextId_modify, nextId_modify, hembeds.nextId]

theorem define (hembeds : Embeds earlier move stop stop' inner tree whole) {binding : Binding}
    (hkind : id = root → binding.kind.isRedefinable = true) :
    Embeds earlier move stop stop' inner (tree.define id binding)
      (whole.define (renumber earlier.countBelow id) (binding.map move)) := by
  by_cases hroot : id = root
  · subst hroot
    have hredefinable := hkind rfl
    obtain ⟨declared, htop, hwhole⟩ := hembeds.top
    exact {
      notRoot := hembeds.notRoot
      top := by
        refine ⟨declared ++ [binding], ?_, ?_⟩
        · rw [ScopeTree.define, scopes_modify, if_pos rfl, htop, Option.map_some, Scope.define,
            Scope.addBinding_of_isRedefinable hredefinable]
        · rw [ScopeTree.define, scopes_modify, renumber, if_pos rfl, if_pos rfl, hwhole, Option.map_some,
            Scope.define, Scope.addBinding_of_isRedefinable (by exact hredefinable), List.map_append,
            List.append_assoc]
          rfl
      before index hindex := by
        rw [ScopeTree.define, scopes_modify, renumber, if_pos rfl, if_neg,
          hembeds.before index hindex]
        exact (Nat.succ_ne_zero index).symm
      below other scope hother hscope := by
        rw [ScopeTree.define, scopes_modify, if_neg hother.symm] at hscope
        obtain ⟨joint, hjoint, hrelated⟩ := hembeds.below other scope hother hscope
        refine ⟨joint, ?_, hrelated⟩
        rw [ScopeTree.define, scopes_modify, renumber, if_pos rfl, if_neg, hjoint]
        exact (Nat.add_pos_left (Nat.pos_of_ne_zero hother) _).ne
      nextId := by rw [nextId_define, nextId_define, hembeds.nextId] }
  · exact hembeds.modify hroot (List.Subset.refl inner) (fun _ hmem _ => hmem)
      fun _ _ hscope => hscope.define binding

/-- The start of an open scope can move. -/
theorem setStart (hembeds : Embeds earlier move stop stop' inner tree whole) (hopen : id ∈ inner)
    (start : Position) :
    Embeds earlier move stop stop' inner (tree.setStart id start)
      (whole.setStart (renumber earlier.countBelow id) (move start)) := by
  refine hembeds.modify (fun hroot => hembeds.notRoot (hroot ▸ hopen)) (List.Subset.refl inner)
    (fun _ hmem _ => hmem) ?_
  rintro scope _ ⟨end', rfl, _⟩
  exact ⟨_, rfl, fun hended => absurd hopen hended⟩

/-- The end of a scope is the same in both trees. -/
theorem close {later : List ScopeId} (hmove : Monotone move)
    (hembeds : Embeds earlier move stop stop' inner tree whole) (hroot : id ≠ root)
    (hlater : later ⊆ inner) (hothers : ∀ other ∈ inner, other ≠ id → other ∈ later)
    (last : Position) :
    Embeds earlier move stop stop' later (tree.close id last)
      (whole.close (renumber earlier.countBelow id) (move last)) := by
  refine hembeds.modify hroot hlater hothers ?_
  rintro scope _ ⟨end', rfl, _⟩
  exact ⟨_, rfl, fun _ => hmove.map_max.symm⟩

theorem closeInnermost (hmove : Monotone move)
    (hembeds : Embeds earlier move stop stop' (id :: inner) tree whole) (last : Position) :
    Embeds earlier move stop stop' inner (tree.close id last)
      (whole.close (renumber earlier.countBelow id) (move last)) :=
  hembeds.close hmove (fun hroot => hembeds.notRoot (hroot ▸ List.mem_cons_self))
    (List.subset_cons_self id inner) (fun _ hmem hne => List.mem_of_ne_of_mem hne hmem) last

theorem closeAtEnd (hmove : Monotone move)
    (hembeds : Embeds earlier move stop stop' inner tree whole) (hroot : id ≠ root)
    (last : Position) :
    Embeds earlier move stop stop' inner (tree.closeAtEnd id last)
      (whole.closeAtEnd (renumber earlier.countBelow id) (move last)) := by
  have hclosed := hembeds.close hmove hroot (List.Subset.refl inner) (fun _ hmem _ => hmem) last
  refine hclosed.modify hroot (List.Subset.refl inner) (fun _ hmem _ => hmem) ?_
  rintro scope _ ⟨end', rfl, hended⟩
  exact ⟨end', rfl, hended⟩

/-- A new scope gets the next number in both trees. -/
theorem insert (hembeds : Embeds earlier move stop stop' inner tree whole) (kind : ScopeKind)
    (parent : ScopeId) (start : Position) :
    Embeds earlier move stop stop' (tree.nextId :: inner) (tree.insert kind parent start)
      (whole.insert kind (renumber earlier.countBelow parent) (move start)) where
  notRoot := List.not_mem_cons_of_ne_of_not_mem hembeds.nextId_ne_root.symm hembeds.notRoot
  top := by
    obtain ⟨declared, htop, hwhole⟩ := hembeds.top
    refine ⟨declared, ?_, ?_⟩
    · rw [getElem?_insert, if_neg hembeds.nextId_ne_root.symm, htop]
    · rw [getElem?_insert, if_neg, hwhole]
      exact (hembeds.renumber_nextId ▸ renumber_ne_root hembeds.nextId_ne_root).symm
  before index hindex := by
    have hlt : index + 1 < whole.nextId := by
      have hpos := Nat.pos_of_ne_zero hembeds.nextId_ne_root
      rw [hembeds.nextId]
      exact Nat.lt_of_le_of_lt hindex (Nat.lt_add_of_pos_left hpos)
    rw [getElem?_insert, if_neg hlt.ne, hembeds.before index hindex]
  below id scope hid hscope := by
    rw [getElem?_insert] at hscope
    rw [getElem?_insert, hembeds.nextId]
    by_cases hnew : id = tree.nextId
    · rw [if_pos hnew, Option.some.injEq] at hscope
      subst hnew hscope
      rw [if_pos rfl]
      exact ⟨_, rfl, _, rfl, fun hended => absurd List.mem_cons_self hended⟩
    · rw [if_neg hnew] at hscope
      rw [if_neg fun heq => hnew (Nat.add_right_cancel heq)]
      obtain ⟨joint, hjoint, end', hrange, hended⟩ := hembeds.below id scope hid hscope
      exact ⟨joint, hjoint, end', hrange, fun houtside =>
        hended fun hmem => houtside (List.mem_cons_of_mem _ hmem)⟩
  nextId := by
    rw [nextId_insert, nextId_insert, hembeds.nextId, Nat.add_right_comm]

/-- Once all scopes have ended, the whole tree consists of the two parts. -/
theorem eq_append (hembeds : Embeds earlier move stop (move stop) [] tree whole) :
    whole = earlier.append move tree := by
  obtain ⟨declared, htop, hwhole⟩ := hembeds.top
  have hbefore := hembeds.before
  have hbelow := hembeds.below
  have hlength := hembeds.nextId
  obtain ⟨scopes⟩ := tree
  obtain ⟨joint⟩ := whole
  cases scopes with
  | nil => cases htop
  | cons top below =>
    cases joint with
    | nil => cases hwhole
    | cons first rest =>
      cases htop
      cases hwhole
      have hrest : rest = earlier.scopes.tail ++
          below.map (Scope.map move earlier.countBelow) := by
        refine List.ext_getElem? fun index => ?_
        rcases Nat.lt_or_ge index earlier.countBelow with hlt | hge
        · rw [List.getElem?_append_left hlt, ← hbefore index hlt, List.getElem?_cons_succ]
        · obtain ⟨later, rfl⟩ := Nat.exists_eq_add_of_le' hge
          rw [List.getElem?_append_right hge, ← countBelow, Nat.add_sub_cancel, List.getElem?_map]
          cases hscope : below[later]? with
          | none =>
            have hshort := List.getElem?_eq_none_iff.mp hscope
            have hwhole : rest.length + 1 = below.length + 1 + earlier.countBelow := hlength
            exact List.getElem?_eq_none (by omega)
          | some scope =>
            obtain ⟨other, hother, end', rfl, hended⟩ := hbelow (later + 1) scope
              (Nat.succ_ne_zero later) hscope
            rw [Nat.add_right_comm, List.getElem?_cons_succ] at hother
            rw [hother, hended List.not_mem_nil]
            rfl
      rw [hrest]
      rfl

end Embeds

end ScopeTree

end TemplateAnalysis
