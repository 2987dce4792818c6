import TemplateAnalysis.Proofs.Template.Effects

namespace TemplateAnalysis

namespace ScopeTree.Extends

variable {low stop : Position} {tree later : ScopeTree} {id : ScopeId}

theorem define {binding : Binding} (hextends : Extends low tree later)
    (hle : low ≤ binding.visibleFrom) (id : ScopeId) : Extends low tree (later.define id binding) := by
  refine hextends.trans ⟨(nextId_define ..).ge, fun _ _ => parent?_define .., fun _ _ _ =>
    covers_define binding, fun other declared hmem => ?_⟩
  rcases mem_bindingsOf_define _ _ _ hmem with rfl | hmem
  · exact .inr hle
  · exact .inl hmem

/-- A scope that is open can end behind the position. -/
theorem close (hextends : Extends low tree later)
    (hopen : ∀ range, later.range? id = some range → low ≤ range.stop) (hle : low ≤ stop) :
    Extends low tree (later.close id stop) :=
  hextends.trans ⟨(nextId_close ..).ge, fun _ _ => parent?_close .., fun _ _ hlt =>
    covers_close (fun range hrange => hlt.trans_le (hopen range hrange)) (hlt.trans_le hle),
    fun other declared hmem => .inl (by rwa [bindingsOf_close] at hmem)⟩

theorem closeAtEnd (hextends : Extends low tree later)
    (hopen : ∀ range, later.range? id = some range → low ≤ range.stop) (hle : low ≤ stop) :
    Extends low tree (later.closeAtEnd id stop) :=
  hextends.trans ⟨(nextId_closeAtEnd ..).ge, fun _ _ => parent?_closeAtEnd .., fun _ _ hlt =>
    covers_closeAtEnd (fun range hrange => hlt.trans_le (hopen range hrange)) (hlt.trans_le hle),
    fun other declared hmem => .inl (by rwa [bindingsOf_closeAtEnd] at hmem)⟩

end ScopeTree.Extends

namespace Template.Outline

open ScopeTree (Extends)

variable {state : State} {tree : ScopeTree} {low stop now after : Position} {tag : Tag}

/-- The scopes of some blocks do not end before a position. -/
def EndBehind (low : Position) (blocks : List OpenBlock) (tree : ScopeTree) : Prop :=
  ∀ scope ∈ blocks.filterMap (·.scope), ∀ range, tree.range? scope = some range → low ≤ range.stop

namespace EndBehind

variable {blocks : List OpenBlock} {block : OpenBlock}

theorem congr {later : ScopeTree} (hblocks : EndBehind low blocks tree)
    (hsame : ∀ id, later.range? id = tree.range? id) : EndBehind low blocks later :=
  fun scope hscope range hrange => hblocks scope hscope range (hsame scope ▸ hrange)

theorem tail (hblocks : EndBehind low (block :: blocks) tree) : EndBehind low blocks tree := by
  refine fun scope hscope => hblocks scope ?_
  rw [List.filterMap_cons]
  split
  · exact hscope
  · exact List.mem_cons_of_mem _ hscope

theorem head {scope : ScopeId} (hblocks : EndBehind low (block :: blocks) tree)
    (hscope : block.scope = some scope) :
    ∀ range, tree.range? scope = some range → low ≤ range.stop :=
  hblocks scope (by simp [hscope])

theorem closeScope (hblocks : EndBehind low blocks tree) (hle : low ≤ stop) (id : ScopeId) :
    EndBehind low blocks (tree.close id stop) := by
  intro scope hscope range hrange
  rw [ScopeTree.range?_close] at hrange
  split at hrange
  · obtain ⟨old, _, rfl⟩ := Option.map_eq_some_iff.mp hrange
    exact hle.trans (le_max_left _ _)
  · exact hblocks scope hscope range hrange

theorem settle (hblocks : EndBehind low blocks state.scopes) (after : Position)
    (pending : List (ScopeId × Binding)) :
    EndBehind low blocks (State.settle after state pending).scopes := by
  induction pending generalizing state with
  | nil => exact hblocks
  | cons pair rest ih =>
    exact ih (hblocks.congr fun id => ScopeTree.range?_define state.scopes pair.1 id _)

theorem close (hblocks : EndBehind low blocks state.scopes) (hle : low ≤ stop) :
    EndBehind low blocks (state.close block stop after).scopes := by
  rw [State.close]
  split
  next scope _ =>
    have hclosed : EndBehind low blocks
        { state with scopes := state.scopes.close scope stop }.scopes := hblocks.closeScope hle scope
    exact hclosed.settle after block.pending
  next => exact hblocks.settle after block.pending

end EndBehind

theorem extends_settle (hextends : Extends low tree state.scopes) (hle : low ≤ after)
    (pending : List (ScopeId × Binding)) :
    Extends low tree (State.settle after state pending).scopes := by
  induction pending generalizing state with
  | nil => exact hextends
  | cons pair rest ih =>
    have hdefined : Extends low tree
        (state.define pair.1 { pair.2 with visibleFrom := after }).scopes := hextends.define hle pair.1
    exact ih hdefined

theorem extends_close {block : OpenBlock} {blocks : List OpenBlock}
    (hextends : Extends low tree state.scopes) (hblocks : EndBehind low (block :: blocks) state.scopes)
    (hstop : low ≤ stop) (hafter : low ≤ after) :
    Extends low tree (state.close block stop after).scopes := by
  rw [State.close]
  split
  next scope hscope =>
    have hclosed : Extends low tree { state with scopes := state.scopes.close scope stop }.scopes :=
      hextends.close (hblocks.head hscope) hstop
    exact extends_settle hclosed hafter block.pending
  next => exact extends_settle hextends hafter block.pending

theorem extends_closeAll {blocks : List OpenBlock} (hextends : Extends low tree state.scopes)
    (hblocks : EndBehind low blocks state.scopes) (hstop : low ≤ stop) (hafter : low ≤ after) :
    Extends low tree (blocks.foldl (·.close · stop after) state).scopes := by
  induction blocks generalizing state with
  | nil => exact hextends
  | cons block rest ih =>
    exact ih (extends_close hextends hblocks hstop hafter) (hblocks.tail.close hstop)

theorem extends_closeAtEnd {blocks : List OpenBlock} (hextends : Extends low tree state.scopes)
    (hblocks : EndBehind low blocks state.scopes) (hstop : low ≤ stop) :
    Extends low tree (blocks.foldl (State.closeAtEnd stop) state).scopes := by
  induction blocks generalizing state with
  | nil => exact hextends
  | cons block rest ih =>
    have hclosed := extends_close hextends hblocks hstop hstop
    have hbehind : EndBehind low (block :: rest) (state.close block stop stop).scopes :=
      hblocks.close hstop
    simp only [List.foldl_cons, State.closeAtEnd]
    split
    next scope hscope =>
      have hended : EndBehind low rest ((state.close block stop stop).scopes.closeAtEnd scope stop) :=
        (hbehind.tail.closeScope hstop scope).congr fun id => ScopeTree.range?_closeAtEnd ..
      exact ih (hclosed.closeAtEnd (hbehind.head hscope) hstop) hended
    next => exact ih hclosed hbehind.tail

/-- The scopes of open blocks stop at the end of the file. -/
theorem endBehind_of_nested {blocks : List OpenBlock} (hnested : state.Nested stop now)
    (hopen : ∀ block ∈ blocks, block ∈ state.blocks) (hle : low ≤ stop) :
    EndBehind low blocks state.scopes := by
  intro scope hscope range hrange
  obtain ⟨block, hblock, hsome⟩ := List.mem_filterMap.mp hscope
  have hmem : scope ∈ state.openScopes := List.mem_filterMap.mpr ⟨block, hopen block hblock, hsome⟩
  obtain ⟨_, hfound, _⟩ := ScopeTree.Nested.range_open hnested scope hmem
  rw [hfound, Option.some.injEq] at hrange
  subst hrange
  exact hle

section Apply

variable {statement : Statement} {id : ScopeId} {position : Position}

/-- The scope that a tag opens begins behind it, and the other scopes stay as they are. -/
theorem covers_apply (hcloses : statement.closes = false) (hlt : position < tag.after) :
    (apply state tag statement).scopes.covers id position = state.scopes.covers id position := by
  cases statement with
  | otherwise | endBlock => cases hcloses
  | beginFor | beginWith | beginMacro | beginCall | beginBlock =>
    simp only [apply, State.scopes_push, State.scopes_define, State.scopes_defineAll,
      State.scopes_startBody, State.scopes_record, State.scopes_addScope, ScopeTree.covers_define,
      ScopeTree.covers_defineAll]
    by_cases hid : id = state.scopes.nextId
    · subst hid
      rw [ScopeTree.covers_setStart_of_lt hlt, ScopeTree.covers_of_nextId_le (le_refl _)]
    · rw [ScopeTree.covers_setStart_of_ne (Ne.symm hid)]
      simp only [ScopeTree.covers_defineAll, ScopeTree.covers_insert_of_ne _ hid]
  | _ => simp [apply]

theorem parent?_apply (hcloses : statement.closes = false) (hid : id < state.scopes.nextId) :
    (apply state tag statement).scopes.parent? id = state.scopes.parent? id := by
  cases statement with
  | otherwise | endBlock => cases hcloses
  | _ => simp [apply, ScopeTree.parent?_insert, hid.ne]

theorem nextId_apply (hcloses : statement.closes = false) :
    state.scopes.nextId ≤ (apply state tag statement).scopes.nextId := by
  cases statement with
  | otherwise | endBlock => cases hcloses
  | _ => simp [apply]

end Apply

theorem extends_endLoopBody (hnested : state.Nested stop now) (hstart : low ≤ tag.start)
    (hstop : low ≤ stop) : Extends low state.scopes (endLoopBody tag state).scopes := by
  have hbehind := endBehind_of_nested hnested (fun _ => id) hstop
  rw [endLoopBody]
  split
  next scope pending outer hblocks =>
    rw [hblocks] at hbehind
    exact (Extends.refl low state.scopes).close (hbehind.head rfl) hstart
  next => exact Extends.refl low state.scopes

theorem extends_endBlock {kind : BlockKind} (hnested : state.Nested stop now)
    (hstart : low ≤ tag.start) (hafter : low ≤ tag.after) (hstop : low ≤ stop) :
    Extends low state.scopes (endBlock tag kind state).scopes := by
  rcases endBlock_cases tag kind state with hsame | ⟨closed, outer, hblocks, hclosed⟩
  · rw [hsame]
    exact Extends.refl low state.scopes
  · have hbehind := endBehind_of_nested hnested
      (fun block hmem => hblocks ▸ List.mem_append_left outer hmem) hstop
    have hinner : Extends low state.scopes { state with blocks := outer }.scopes :=
      Extends.refl low state.scopes
    rw [hclosed]
    exact extends_closeAll hinner hbehind hstart hafter

/-- What a tag does to the scopes happens behind the place where it begins. -/
theorem extends_step (hdeclared : Declared stop now state) (hbounded : tag.Bounded)
    (hstart : low ≤ tag.start) (hwithin : tag.after ≤ stop) :
    Extends low state.scopes (step state tag).scopes := by
  have hafter : low ≤ tag.after := hstart.trans hbounded.start_lt_after.le
  simp only [step]
  split
  · split <;> exact Extends.refl low state.scopes
  · cases hcloses : (Statement.ofTag tag).closes with
    | true =>
      cases hstatement : Statement.ofTag tag with
      | otherwise => exact extends_endLoopBody hdeclared.nested hstart (hafter.trans hwithin)
      | endBlock => exact extends_endBlock hdeclared.nested hstart hafter (hafter.trans hwithin)
      | _ => rw [hstatement] at hcloses; cases hcloses
    | false =>
      refine ⟨nextId_apply hcloses, fun id hid => parent?_apply hcloses hid, fun id position hlt =>
        covers_apply hcloses (hlt.trans_le hafter), fun id binding hmem => ?_⟩
      exact (adds_apply state tag _ id binding hmem).imp_right fun hnew =>
        hstart.trans (declarations_bounded hbounded hnew).1.le

theorem extends_foldl {high : Position} {tags : List Tag} (hdeclared : Declared stop now state)
    (htags : Tag.Between high now tags) (hwithin : high ≤ stop) (hbounded : ∀ tag ∈ tags, tag.Bounded)
    (hnow : low ≤ now) : Extends low state.scopes (tags.foldl step state).scopes := by
  induction tags generalizing state now with
  | nil => exact Extends.refl low state.scopes
  | cons tag rest ih =>
    obtain ⟨hstart, hbody, hrest⟩ := htags
    obtain ⟨htag, hbounded⟩ := List.forall_mem_cons.mp hbounded
    have hafter : tag.after ≤ stop := hrest.le.trans hwithin
    have hstep := declared_step hdeclared hstart htag hbody hafter
    have hlater := ih hstep hrest hbounded (hnow.trans (hstart.trans hbody.le))
    exact (extends_step hdeclared htag (hnow.trans hstart) hafter).trans hlater

theorem extends_finish (hnested : state.Nested stop now) (hstop : low ≤ stop) :
    Extends low state.scopes (finish stop state).scopes := by
  have hbehind := endBehind_of_nested hnested (fun _ => id) hstop
  have hrefl : Extends low state.scopes { state with blocks := [] }.scopes :=
    Extends.refl low state.scopes
  exact extends_closeAtEnd hrefl hbehind hstop

end Template.Outline

end TemplateAnalysis
