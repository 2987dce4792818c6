import TemplateAnalysis.Proofs.Scope.Shape
import TemplateAnalysis.Proofs.Syntax.Blocks
import TemplateAnalysis.Proofs.Template.BlockStatements

namespace TemplateAnalysis.Template

namespace Outline

/-- What counts for the nesting of blocks: whether the text is a raw part, the blocks that are open,
    and the scopes without what they declare. -/
structure Frame where
  raw : Bool
  blocks : List OpenBlock
  shapes : List Scope

namespace State

def frame (state : State) : Frame where
  raw := state.raw
  blocks := state.blocks
  shapes := state.scopes.shapes

@[simp] theorem frame_record (state : State) (scope : ScopeId) (mentions : Mentions) :
    (state.record scope mentions).frame = state.frame := rfl

@[simp] theorem frame_define (state : State) (scope : ScopeId) (binding : Binding) :
    (state.define scope binding).frame = state.frame := by
  rw [frame, define, ScopeTree.shapes_define]
  rfl

@[simp] theorem frame_defineAll (state : State) (scope : ScopeId) (bindings : List Binding) :
    (state.defineAll scope bindings).frame = state.frame := by
  induction bindings generalizing state with
  | nil => rfl
  | cons binding rest ih => exact (ih _).trans (frame_define state scope binding)

@[simp] theorem frame_settle (after : Position) (state : State) (pending : List (ScopeId × Binding)) :
    (settle after state pending).frame = state.frame := by
  induction pending generalizing state with
  | nil => rfl
  | cons pair rest ih => exact (ih _).trans (frame_define state _ _)

@[simp] theorem frame_startBody (state : State) (scope : ScopeId) (start : Position) :
    (state.startBody scope start).frame =
      { state.frame with shapes := state.frame.shapes.modify scope (Scope.startAt start) } := by
  rw [frame, startBody, ScopeTree.shapes_setStart]
  rfl

theorem frame_push (state : State) (block : OpenBlock) :
    (state.push block).frame = { state.frame with blocks := block :: state.frame.blocks } := rfl

/-- The scopes after a change to the scope of a block. -/
def changed (change : Scope → Scope) (shapes : List Scope) (block : OpenBlock) : List Scope :=
  block.scope.elim shapes fun scope => shapes.modify scope change

theorem frame_close (state : State) (block : OpenBlock) (stop after : Position) :
    (state.close block stop after).frame =
      { state.frame with shapes := changed (Scope.endAt stop) state.frame.shapes block } := by
  rw [close, changed]
  cases block.scope with
  | none => exact frame_settle after state block.pending
  | some scope =>
    simp only [frame_settle, Option.elim_some]
    rw [frame, ScopeTree.shapes_close]
    rfl

theorem shapes_closeAtEnd (state : State) (block : OpenBlock) (stop : Position) :
    (state.closeAtEnd stop block).scopes.shapes =
      changed (Scope.endAtFile stop) state.scopes.shapes block := by
  have hclose := congrArg Frame.shapes (frame_close state block stop stop)
  rw [closeAtEnd]
  cases hscope : block.scope with
  | none =>
    simp only [changed, hscope, Option.elim_none] at hclose ⊢
    exact hclose
  | some scope =>
    simp only [changed, hscope, Option.elim_some] at hclose ⊢
    rw [ScopeTree.shapes_closeAtEnd]
    simp only [frame] at hclose
    rw [hclose, List.modify_modify_eq]
    refine congrArg (state.scopes.shapes.modify scope) (funext fun shape => ?_)
    simp [Scope.endAtFile, Scope.endAt]

theorem shapes_finish (state : State) (stop : Position) :
    (finish stop state).scopes.shapes =
      state.blocks.foldl (changed (Scope.endAtFile stop)) state.scopes.shapes := by
  have hfold : ∀ (blocks : List OpenBlock) (state : State),
      (blocks.foldl (closeAtEnd stop) state).scopes.shapes =
        blocks.foldl (changed (Scope.endAtFile stop)) state.scopes.shapes := by
    intro blocks
    induction blocks with
    | nil => exact fun _ => rfl
    | cons block rest ih =>
      intro state
      rw [List.foldl_cons, List.foldl_cons, ih, shapes_closeAtEnd]
  exact hfold _ _

end State

section Steps

variable {state : State} {tag : Tag}

theorem frame_plain (hraw : state.raw = false) (hplain : (Statement.ofTag tag).isPlain = true) :
    (step state tag).frame = state.frame := by
  rw [step, hraw, if_neg Bool.false_ne_true]
  cases hstatement : Statement.ofTag tag with
  | other | evaluate => rfl
  | assign | importTemplate | importNames => simp [apply]
  | _ => rw [hstatement] at hplain; cases hplain

/-- The last branch of a condition changes nothing. -/
theorem frame_otherwise (hraw : state.raw = false) (hhead : state.blocks.head?.map (·.kind) = some .ifBranch)
    (htag : Statement.ofTag tag = .otherwise) : (step state tag).frame = state.frame := by
  rw [step, hraw, if_neg Bool.false_ne_true, htag, apply, endLoopBody]
  split
  next hblocks =>
    rw [hblocks] at hhead
    cases hhead
  next => rfl

/-- A state in which a block has been opened, perhaps with a scope that begins at a position. -/
structure Opens (kind : BlockKind) (scopeKind? : Option ScopeKind) (after : Position) (state opened : State) :
    Prop where
  raw : opened.raw = false
  blocks : ∃ pending, opened.blocks =
    { kind, scope := scopeKind?.map fun _ => state.scopes.nextId, pending } :: state.blocks
  shapes : ∃ stop, opened.scopes.shapes =
    state.scopes.shapes ++ (ownScope scopeKind? state.currentScope { start := after, stop } false).toList

theorem opens_plain (kind : BlockKind) (after : Position) (pending : List (ScopeId × Binding))
    {opened : State} (hraw : state.raw = false)
    (hopened : opened.frame = (state.push { kind, pending }).frame) :
    Opens kind none after state opened := by
  rw [State.frame, State.frame, Frame.mk.injEq] at hopened
  obtain ⟨hrawAfter, hblocks, hshapes⟩ := hopened
  exact ⟨hrawAfter.trans hraw, ⟨pending, hblocks⟩, {}, hshapes.trans (List.append_nil _).symm⟩

/-- A block has a scope that begins behind its tag, whatever is declared on the way. -/
theorem opens_scope {kind : BlockKind} {scopeKind : ScopeKind} (word : Token) {filled opened : State}
    {after : Position} (hraw : state.raw = false)
    (hopened : opened = filled.push { kind, scope := some state.scopes.nextId })
    (hfilled : filled.frame = ((state.addScope scopeKind word).startBody state.scopes.nextId after).frame) :
    Opens kind (some scopeKind) after state opened := by
  obtain ⟨range, hinsert⟩ := ScopeTree.exists_shapes_insert state.scopes scopeKind state.currentScope
    word.stop.position
  subst hopened
  have hframe := State.frame_push filled { kind, scope := some state.scopes.nextId }
  rw [hfilled, State.frame_startBody] at hframe
  simp only [State.frame, Frame.mk.injEq] at hframe
  obtain ⟨hrawAfter, hblocks, hshapes⟩ := hframe
  refine ⟨hrawAfter.trans hraw, ⟨[], hblocks⟩, ⟨max range.stop after, ?_⟩⟩
  rw [hshapes, State.addScope, hinsert, ← ScopeTree.length_shapes, modify_length]
  rfl

/-- A tag that opens a block has the block on top of the open ones, and its scope behind the others. -/
theorem step_opens {kind : BlockKind} (hraw : state.raw = false)
    (hopens : (Statement.ofTag tag).opens? = some kind) :
    Opens kind kind.scopeKind? tag.after state (step state tag) := by
  rw [step, hraw, if_neg Bool.false_ne_true]
  cases hstatement : Statement.ofTag tag with
  | beginIf | beginSet | beginFilter =>
    rw [hstatement] at hopens
    cases hopens
    exact opens_plain _ _ _ hraw rfl
  | beginFor word | beginWith word | beginMacro word | beginCall word | beginBlock word =>
    rw [hstatement] at hopens
    cases hopens
    exact opens_scope word hraw rfl (by simp)
  | _ => rw [hstatement] at hopens; cases hopens

/-- How tags lead from one state to another: the blocks that they have left open stand before the older
    ones, and once the end of the file has ended them, there are new scopes behind the older ones. -/
structure Mirrors (stop : Position) (isClosed : Bool) (state later : State) (shapes : List Scope) : Prop where
  raw : isClosed = true → later.raw = false
  blocks : ∃ inner, (isClosed = true → inner = []) ∧ later.blocks = inner ++ state.blocks ∧
    inner.foldl (State.changed (Scope.endAtFile stop)) later.scopes.shapes = state.scopes.shapes ++ shapes

namespace Mirrors

variable {stop : Position} {isClosed : Bool} {later last : State} {shapes others : List Scope}

theorem of_frame (hraw : state.raw = false) (hframe : later.frame = state.frame) :
    Mirrors stop true state later [] := by
  rw [State.frame, State.frame, Frame.mk.injEq] at hframe
  obtain ⟨hrawLater, hblocks, hshapes⟩ := hframe
  exact ⟨fun _ => hrawLater.trans hraw, [], fun _ => rfl, hblocks, hshapes.trans (List.append_nil _).symm⟩

theorem blocks_eq (hmirrors : Mirrors stop true state later shapes) : later.blocks = state.blocks := by
  obtain ⟨inner, hinner, hblocks, _⟩ := hmirrors.blocks
  rw [hblocks, hinner rfl, List.nil_append]

theorem shapes_eq (hmirrors : Mirrors stop true state later shapes) :
    later.scopes.shapes = state.scopes.shapes ++ shapes := by
  obtain ⟨inner, hinner, _, hshapes⟩ := hmirrors.blocks
  rw [hinner rfl] at hshapes
  exact hshapes

theorem currentScope_eq (hmirrors : Mirrors stop true state later shapes) :
    later.currentScope = state.currentScope := by
  rw [State.currentScope, hmirrors.blocks_eq, State.currentScope]

theorem nextId_eq (hmirrors : Mirrors stop true state later shapes) :
    later.scopes.nextId = state.scopes.nextId + shapes.length := by
  rw [← ScopeTree.length_shapes, hmirrors.shapes_eq, List.length_append, ScopeTree.length_shapes]

theorem trans (hfirst : Mirrors stop true state later shapes)
    (hsecond : Mirrors stop isClosed later last others) :
    Mirrors stop isClosed state last (shapes ++ others) := by
  obtain ⟨inner, hinner, hblocks, hshapes⟩ := hsecond.blocks
  refine ⟨hsecond.raw, inner, hinner, ?_, ?_⟩
  · rw [hblocks, hfirst.blocks_eq]
  · rw [hshapes, hfirst.shapes_eq, List.append_assoc]

end Mirrors

namespace Opens

variable {stop after : Position} {kind : BlockKind} {scopeKind? : Option ScopeKind} {opened later : State}
  {isClosed : Bool} (inner : ScopeId → ScopeId → List Scope)

theorem nextId (hopens : Opens kind scopeKind? after state opened) :
    opened.scopes.nextId = state.scopes.nextId + scopeKind?.toList.length := by
  obtain ⟨stop, hshapes⟩ := hopens.shapes
  have hlength := congrArg List.length hshapes
  rw [List.length_append, ScopeTree.length_shapes, ScopeTree.length_shapes, ownScope] at hlength
  cases scopeKind? <;> simpa using hlength

theorem currentScope (hopens : Opens kind scopeKind? after state opened) :
    opened.currentScope = (scopeKind?.map fun _ => state.scopes.nextId).getD state.currentScope := by
  obtain ⟨pending, hblocks⟩ := hopens.blocks
  rw [State.currentScope, hblocks, List.findSome?_cons]
  cases scopeKind? <;> rfl

theorem head? (hopens : Opens kind scopeKind? after state opened) :
    ∀ other ∈ some kind, opened.blocks.head?.map (·.kind) = some other := by
  obtain ⟨pending, hblocks⟩ := hopens.blocks
  rintro other ⟨⟩
  rw [hblocks]
  rfl

/-- Once the scope of a block has been ended, the scopes are the older ones, the one of the block and
    those inside it. -/
theorem ended {block : OpenBlock} {change : Scope → Scope} {range : Range} {openEnded : Bool}
    (hopens : Opens kind scopeKind? after state opened)
    (hblock : block.scope = scopeKind?.map fun _ => state.scopes.nextId)
    (hchange : ∀ shape : Scope, shape.range.start = after → shape.openEnded = false →
      change shape = { shape with range, openEnded }) :
    State.changed change (opened.scopes.shapes ++ inner opened.currentScope opened.scopes.nextId) block =
      state.scopes.shapes ++ withInner (ownScope scopeKind? state.currentScope range openEnded)
        state.currentScope state.scopes.nextId inner := by
  obtain ⟨stop, hshapes⟩ := hopens.shapes
  rw [State.changed, hblock, hshapes, hopens.nextId, hopens.currentScope]
  cases scopeKind? with
  | none => simp [ownScope, withInner]
  | some scopeKind =>
    have hmodify := modify_length state.scopes.shapes (inner state.scopes.nextId (state.scopes.nextId + 1))
      { kind := scopeKind, range := { start := after, stop }, parent := some state.currentScope } change
    rw [hchange _ rfl rfl, ScopeTree.length_shapes] at hmodify
    simpa [ownScope, withInner] using hmodify

/-- A scope that is ended behind its start reaches from there to its end. -/
theorem closed {block : OpenBlock} {close : Position} (hopens : Opens kind scopeKind? after state opened)
    (hblock : block.scope = scopeKind?.map fun _ => state.scopes.nextId) (hle : after ≤ close) :
    State.changed (Scope.endAt close)
        (opened.scopes.shapes ++ inner opened.currentScope opened.scopes.nextId) block =
      state.scopes.shapes ++ withInner
        (ownScope scopeKind? state.currentScope { start := after, stop := close } false) state.currentScope
        state.scopes.nextId inner := by
  refine hopens.ended inner hblock fun shape hstart hclosed => ?_
  rw [Scope.endAt_eq (hstart ▸ hle), hstart, ← hclosed]

/-- A block with its end adds its scope and the scopes inside it. -/
theorem mirrors_end (hopens : Opens kind scopeKind? after state opened)
    (hbody : Mirrors stop true opened later (inner opened.currentScope opened.scopes.nextId))
    (hle : after ≤ tag.start) (htag : Statement.ofTag tag = .endBlock kind) :
    Mirrors stop true state (step later tag) (withInner
      (ownScope scopeKind? state.currentScope { start := after, stop := tag.start } false) state.currentScope
      state.scopes.nextId inner) := by
  obtain ⟨pending, hblocks⟩ := hopens.blocks
  rw [← hbody.blocks_eq] at hblocks
  have hstep : step later tag = endBlock tag kind later := by
    rw [step, hbody.raw rfl, htag]
    rfl
  have hframe := State.frame_close { later with blocks := state.blocks }
    { kind, scope := scopeKind?.map fun _ => state.scopes.nextId, pending } tag.start tag.after
  rw [State.frame, State.frame, Frame.mk.injEq] at hframe
  obtain ⟨hraw, hblocksAfter, hshapes⟩ := hframe
  rw [hstep, Syntax.endBlock_head hblocks]
  refine ⟨fun _ => hraw.trans (hbody.raw rfl), [], fun _ => rfl, hblocksAfter, ?_⟩
  refine hshapes.trans ?_
  rw [hbody.shapes_eq]
  exact hopens.closed inner rfl hle

/-- The last branch of a loop ends its scope. What is left is a block without a scope. -/
theorem mirrors_otherwise (hopens : Opens .forLoop (some .loop) after state opened)
    (hbody : Mirrors stop true opened later (inner opened.currentScope opened.scopes.nextId))
    (hle : after ≤ tag.start) (htag : Statement.ofTag tag = .otherwise) :
    ∃ outside, Mirrors stop true state outside (withInner
        (ownScope (some .loop) state.currentScope { start := after, stop := tag.start } false)
        state.currentScope state.scopes.nextId inner) ∧
      Opens .forLoop none tag.after outside (step later tag) := by
  obtain ⟨pending, hblocks⟩ := hopens.blocks
  rw [← hbody.blocks_eq, Option.map_some] at hblocks
  have hstep : step later tag = endLoopBody tag later := by
    rw [step, hbody.raw rfl, htag]
    rfl
  rw [endLoopBody, hblocks] at hstep
  let outside : State :=
    { later with scopes := later.scopes.close state.scopes.nextId tag.start, blocks := state.blocks }
  have hshapes : outside.scopes.shapes = State.changed (Scope.endAt tag.start) later.scopes.shapes
      { kind := .forLoop, scope := some state.scopes.nextId } := ScopeTree.shapes_close _ _ _
  refine ⟨outside, ⟨fun _ => hbody.raw rfl, [], fun _ => rfl, rfl, ?_⟩, ?_⟩
  · refine hshapes.trans ?_
    rw [hbody.shapes_eq]
    exact hopens.closed inner rfl hle
  · exact opens_plain .forLoop tag.after pending (hbody.raw rfl) (congrArg State.frame hstep)

/-- A block without an end adds its scope, which is open at the end of the file. -/
theorem mirrors_cut (hopens : Opens kind scopeKind? after state opened)
    (hbody : Mirrors stop isClosed opened later (inner opened.currentScope opened.scopes.nextId))
    (hle : after ≤ stop) :
    Mirrors stop false state later (withInner
      (ownScope scopeKind? state.currentScope { start := after, stop } true) state.currentScope
      state.scopes.nextId inner) := by
  obtain ⟨pending, hopened⟩ := hopens.blocks
  obtain ⟨blocks, _, hblocks, hshapes⟩ := hbody.blocks
  refine ⟨nofun, blocks ++ [{ kind, scope := scopeKind?.map fun _ => state.scopes.nextId, pending }],
    nofun, ?_, ?_⟩
  · rw [hblocks, hopened, List.append_assoc, List.singleton_append]
  · rw [List.foldl_append, hshapes, List.foldl_cons, List.foldl_nil]
    refine hopens.ended inner rfl fun shape hstart _ => ?_
    rw [Scope.endAtFile_eq (hstart ▸ hle), hstart]

end Opens

end Steps

end Outline

end TemplateAnalysis.Template
