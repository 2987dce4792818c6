import TemplateAnalysis.Proofs.Scope.Nesting
import TemplateAnalysis.Proofs.Scope.Resolution

namespace TemplateAnalysis.ScopeTree

section Covers

variable {tree later : ScopeTree} {id other parent : ScopeId} {position start stop : Position}

/-- What a scope covers depends on its range, and on whether it is open at the end. -/
theorem covers_congr (hrange : later.range? id = tree.range? id)
    (hopen : later.isOpenEnded id = tree.isOpenEnded id) :
    later.covers id position = tree.covers id position := by
  rw [Bool.eq_iff_iff, covers_iff_range, covers_iff_range, hrange, hopen]

theorem covers_eq_false_of_start
    (hstart : ∀ range, tree.range? id = some range → position < range.start) :
    tree.covers id position = false := by
  rw [← Bool.not_eq_true, covers_iff_range]
  rintro ⟨range, hrange, hle, _⟩
  exact (hstart range hrange).not_ge hle

theorem covers_of_nextId_le (hid : tree.nextId ≤ id) : tree.covers id position = false :=
  covers_eq_false_of_start fun range hrange => by
    rw [range?, List.getElem?_eq_none hid] at hrange
    cases hrange

theorem bindingsOf_of_nextId_le (hid : tree.nextId ≤ id) : tree.bindingsOf id = [] := by
  rw [bindingsOf, List.getElem?_eq_none hid]
  rfl

@[simp] theorem covers_define (binding : Binding) :
    (tree.define id binding).covers other position = tree.covers other position :=
  covers_congr (range?_define ..) (isOpenEnded_define ..)

@[simp] theorem covers_defineAll (bindings : List Binding) :
    (tree.defineAll id bindings).covers other position = tree.covers other position := by
  induction bindings generalizing tree with
  | nil => rfl
  | cons binding rest ih => exact ih.trans (covers_define binding)

theorem covers_insert_of_ne (kind : ScopeKind) (hother : other ≠ tree.nextId) :
    (tree.insert kind parent start).covers other position = tree.covers other position :=
  covers_congr (by rw [range?_insert, if_neg hother])
    (by rw [isOpenEnded_insert, bne_iff_ne.mpr hother, Bool.true_and])

theorem covers_setStart_of_ne (hne : id ≠ other) :
    (tree.setStart id start).covers other position = tree.covers other position :=
  covers_congr (by rw [range?_setStart, if_neg hne]) (isOpenEnded_setStart ..)

theorem covers_setStart_of_lt (hlt : position < start) :
    (tree.setStart id start).covers id position = false :=
  covers_eq_false_of_start fun range hrange => by
    rw [range?_setStart, if_pos rfl] at hrange
    obtain ⟨_, _, rfl⟩ := Option.map_eq_some_iff.mp hrange
    exact hlt

/-- A scope that is still open can end anywhere behind a position that it covers. -/
theorem covers_close (hopen : ∀ range, tree.range? id = some range → position < range.stop)
    (hlt : position < stop) : (tree.close id stop).covers other position = tree.covers other position := by
  by_cases hsame : id = other
  · subst hsame
    rw [Bool.eq_iff_iff, covers_iff_range, covers_iff_range, range?_close, if_pos rfl]
    constructor
    · rintro ⟨_, hrange, hstart, _⟩
      obtain ⟨range, hfound, rfl⟩ := Option.map_eq_some_iff.mp hrange
      exact ⟨range, hfound, hstart, .inl (hopen range hfound)⟩
    · rintro ⟨range, hrange, hstart, _⟩
      refine ⟨{ range with stop := max stop range.start }, by rw [hrange, Option.map_some], hstart, ?_⟩
      exact .inl (hlt.trans_le (le_max_left _ _))
  · exact covers_congr (by rw [range?_close, if_neg hsame]) (isOpenEnded_close ..)

theorem covers_closeAtEnd (hopen : ∀ range, tree.range? id = some range → position < range.stop)
    (hlt : position < stop) :
    (tree.closeAtEnd id stop).covers other position = tree.covers other position := by
  rw [← covers_close hopen hlt]
  by_cases hsame : id = other
  · subst hsame
    rw [Bool.eq_iff_iff, covers_iff_range, covers_iff_range, range?_closeAtEnd]
    have hbefore : ∀ range, (tree.close id stop).range? id = some range → position < range.stop := by
      intro range hrange
      rw [range?_close, if_pos rfl] at hrange
      obtain ⟨_, _, rfl⟩ := Option.map_eq_some_iff.mp hrange
      exact hlt.trans_le (le_max_left _ _)
    constructor <;> rintro ⟨range, hrange, hstart, _⟩ <;>
      exact ⟨range, hrange, hstart, .inl (hbefore range hrange)⟩
  · refine covers_congr (range?_closeAtEnd ..) ?_
    by_cases hid : id < tree.nextId
    · rw [isOpenEnded_closeAtEnd _ _ _ _ hid, isOpenEnded_close, beq_eq_false_iff_ne.mpr hsame,
        Bool.false_or]
    · rw [closeAtEnd, isOpenEnded, scopes_modify, if_neg hsame, isOpenEnded]

end Covers

/-- What is read behind a position leaves the tree before it as it is: the scopes keep their parents and
    what they cover there, and new declarations take effect behind it. -/
structure Extends (low : Position) (tree later : ScopeTree) : Prop where
  nextId : tree.nextId ≤ later.nextId
  parent? : ∀ id < tree.nextId, later.parent? id = tree.parent? id
  covers : ∀ id position, position < low → later.covers id position = tree.covers id position
  bindingsOf : ∀ id, ∀ binding ∈ later.bindingsOf id,
    binding ∈ tree.bindingsOf id ∨ low ≤ binding.visibleFrom

namespace Extends

variable {low : Position} {tree middle later : ScopeTree}

theorem refl (low : Position) (tree : ScopeTree) : Extends low tree tree :=
  ⟨le_refl _, fun _ _ => rfl, fun _ _ _ => rfl, fun _ _ => .inl⟩

theorem trans (hfirst : Extends low tree middle) (hsecond : Extends low middle later) :
    Extends low tree later where
  nextId := hfirst.nextId.trans hsecond.nextId
  parent? id hid := (hsecond.parent? id (hid.trans_le hfirst.nextId)).trans (hfirst.parent? id hid)
  covers id position hlt := (hsecond.covers id position hlt).trans (hfirst.covers id position hlt)
  bindingsOf id binding hmem :=
    (hsecond.bindingsOf id binding hmem).elim (hfirst.bindingsOf id binding) .inr

end Extends

namespace Nested

variable {tree later : ScopeTree} {stop now position : Position} {inner : List ScopeId}
  {id : ScopeId}

/-- Behind the last tag exactly the open scopes cover a position. -/
theorem covers_iff_mem (hnested : Nested stop now inner tree) (hnow : now ≤ position)
    (hstop : position < stop) (hroot : id ≠ root) :
    tree.covers id position = true ↔ id ∈ inner := by
  rw [covers_iff_range, hnested.notOpenEnded]
  constructor
  · rintro ⟨range, hrange, _, hbefore⟩
    by_contra hclosed
    have hbefore := hbefore.resolve_right fun hopen => absurd hopen.1 Bool.false_ne_true
    exact (((hnested.range_closed id range hclosed hroot hrange).2).trans hnow).not_gt hbefore
  · intro hmem
    obtain ⟨start, hrange, hstart⟩ := hnested.range_open id hmem
    exact ⟨_, hrange, hstart.trans hnow, .inl hstop⟩

/-- Where exactly the open scopes cover a position, the newest one of them is the innermost one. -/
theorem innermostAt_eq (hnested : Nested stop now inner tree)
    (hcovers : ∀ id, id ≠ root → (later.covers id position = true ↔ id ∈ inner)) :
    later.innermostAt position = inner.head?.getD root := by
  have hinner : ∀ id ∈ inner, id ≠ root := fun id hmem hsame => hnested.notRoot (hsame ▸ hmem)
  rcases later.innermostAt_cases position with ⟨hinnermost, hnone⟩ | ⟨hroot, hcovered, hlast⟩
  · cases inner with
    | nil => exact hinnermost
    | cons head rest =>
      have hhead := hinner head List.mem_cons_self
      have hcovered := (hcovers head hhead).mpr List.mem_cons_self
      rw [hnone head hhead] at hcovered
      cases hcovered
  · have hmem := (hcovers _ hroot).mp hcovered
    cases inner with
    | nil => cases hmem
    | cons head rest =>
      rcases List.mem_cons.mp hmem with hhead | hrest
      · exact hhead
      · have hhead := hinner head List.mem_cons_self
        have hle := hlast head hhead ((hcovers head hhead).mpr List.mem_cons_self)
        exact absurd hle (Nat.not_le.mpr (hnested.lt_innermost hrest))

end Nested

end TemplateAnalysis.ScopeTree
