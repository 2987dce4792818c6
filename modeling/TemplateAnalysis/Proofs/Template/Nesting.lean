import TemplateAnalysis.Proofs.Scope.Nesting
import TemplateAnalysis.Proofs.Template.Order
import TemplateAnalysis.Template.Outline

namespace TemplateAnalysis.Template

namespace Statement

/-- The word that opens a scope. -/
def word? : Statement → Option Token
  | .beginFor word .. | .beginWith word .. | .beginMacro word .. | .beginCall word ..
  | .beginBlock word .. => some word
  | _ => none

theorem word?_setHead (tokens : List Token) : (setHead tokens).word? = none := by
  simp only [setHead]
  split <;> rfl

/-- A statement that opens a scope begins with the word that does so. -/
theorem word?_ofBody {token word : Token} {rest : List Token}
    (hword : (ofBody (token :: rest)).word? = some word) : word = token := by
  rw [ofBody] at hword
  split at hword
  case h_5 =>
    rw [word?_setHead] at hword
    cases hword
  case h_25 =>
    split at hword <;> cases hword
  all_goals first
    | cases hword; done
    | exact (Option.some.inj hword).symm

theorem word?_mem {tag : Tag} {word : Token} (hword : (ofTag tag).word? = some word) :
    word ∈ tag.body := by
  rw [ofTag] at hword
  split at hword
  · cases hword
  · cases hbody : tag.body with
    | nil =>
      rw [hbody] at hword
      cases hword
    | cons token rest =>
      rw [hbody] at hword
      rw [word?_ofBody hword]
      exact List.mem_cons_self

end Statement

namespace Outline

namespace State

/-- The scopes that are open, the innermost one first. -/
def openScopes (state : State) : List ScopeId :=
  state.blocks.filterMap (·.scope)

theorem currentScope_eq (state : State) :
    state.currentScope = state.openScopes.head?.getD ScopeTree.root := by
  rw [currentScope, openScopes, List.head?_filterMap]

/-- The scopes of a state are nested, and those of its blocks are the open ones. -/
def Nested (stop now : Position) (state : State) : Prop :=
  state.scopes.Nested stop now state.openScopes

namespace Nested

variable {state : State} {stop now later : Position}

theorem mono (hnested : state.Nested stop now) (hlater : now ≤ later) (hwithin : later ≤ stop) :
    state.Nested stop later :=
  ScopeTree.Nested.mono hnested hlater hwithin

theorem record (hnested : state.Nested stop now) (scope : ScopeId) (mentions : Mentions) :
    (state.record scope mentions).Nested stop now :=
  hnested

theorem define (hnested : state.Nested stop now) (scope : ScopeId) (binding : Binding) :
    (state.define scope binding).Nested stop now :=
  ScopeTree.Nested.define hnested binding

theorem defineAll (hnested : state.Nested stop now) (scope : ScopeId) (bindings : List Binding) :
    (state.defineAll scope bindings).Nested stop now := by
  induction bindings generalizing state with
  | nil => exact hnested
  | cons binding rest ih => exact ih (hnested.define scope binding)

/-- A block without a scope of its own changes nothing. -/
theorem push (hnested : state.Nested stop now) (kind : BlockKind)
    (pending : List (ScopeId × Binding)) : (state.push { kind, pending }).Nested stop now :=
  hnested

end Nested

/-- A tag has added its scope to those of the state before it, but it has not opened its block
    yet. -/
structure Opening (stop now : Position) (before state : State) : Prop where
  nested : state.scopes.Nested stop now (before.scopes.nextId :: before.openScopes)
  newest : before.scopes.nextId + 1 = state.scopes.nextId
  blocks : state.blocks = before.blocks

namespace Opening

variable {before state : State} {stop now later : Position}

theorem define (hopening : Opening stop now before state) (scope : ScopeId) (binding : Binding) :
    Opening stop now before (state.define scope binding) where
  nested := hopening.nested.define binding
  newest := by rw [State.define, ScopeTree.nextId_define, hopening.newest]
  blocks := hopening.blocks

theorem defineAll (hopening : Opening stop now before state) (scope : ScopeId)
    (bindings : List Binding) : Opening stop now before (state.defineAll scope bindings) := by
  induction bindings generalizing state with
  | nil => exact hopening
  | cons binding rest ih => exact ih (hopening.define scope binding)

theorem record (hopening : Opening stop now before state) (scope : ScopeId) (mentions : Mentions) :
    Opening stop now before (state.record scope mentions) :=
  ⟨hopening.nested, hopening.newest, hopening.blocks⟩

theorem startBody (hopening : Opening stop now before state) (hlater : now ≤ later)
    (hwithin : later ≤ stop) :
    Opening stop later before (state.startBody before.scopes.nextId later) where
  nested := hopening.nested.setStart hopening.newest hlater hwithin
  newest := by rw [State.startBody, ScopeTree.nextId_setStart, hopening.newest]
  blocks := hopening.blocks

theorem push (hopening : Opening stop now before state) (kind : BlockKind) :
    (state.push { kind, scope := before.scopes.nextId }).Nested stop now := by
  rw [Nested, openScopes, State.push, hopening.blocks]
  exact hopening.nested

end Opening

variable {state : State} {stop now later : Position}

theorem Nested.addScope (hnested : state.Nested stop now) (kind : ScopeKind) (word : Token)
    (hword : now ≤ word.stop.position) (hwithin : word.stop.position ≤ stop) :
    Opening stop word.stop.position state (state.addScope kind word) where
  nested := by
    rw [State.addScope, currentScope_eq]
    exact ScopeTree.Nested.insert hnested kind hword hwithin
  newest := by rw [State.addScope, ScopeTree.nextId_insert]
  blocks := rfl

@[simp] theorem blocks_settle (state : State) (after : Position)
    (pending : List (ScopeId × Binding)) : (settle after state pending).blocks = state.blocks := by
  induction pending generalizing state with
  | nil => rfl
  | cons pair rest ih => exact ih _

@[simp] theorem blocks_close (state : State) (block : OpenBlock) (stop after : Position) :
    (state.close block stop after).blocks = state.blocks := by
  rw [close]
  split <;> rw [blocks_settle]

theorem nested_settle {inner : List ScopeId} (after : Position)
    (pending : List (ScopeId × Binding)) (hnested : state.scopes.Nested stop now inner) :
    (settle after state pending).scopes.Nested stop now inner := by
  induction pending generalizing state with
  | nil => exact hnested
  | cons pair rest ih => exact ih (hnested.define _)

/-- The end of a block ends its scope if it has one. -/
theorem nested_close {inner : List ScopeId} (block : OpenBlock) (after : Position)
    (hnested : state.scopes.Nested stop now (block.scope.toList ++ inner)) (hlater : now ≤ later)
    (hwithin : later ≤ stop) : (state.close block later after).scopes.Nested stop later inner := by
  rw [close]
  split
  next scope hscope =>
    rw [hscope] at hnested
    exact nested_settle after block.pending (hnested.close hlater hwithin)
  next hscope =>
    rw [hscope] at hnested
    exact nested_settle after block.pending (hnested.mono hlater hwithin)

/-- The innermost blocks can end all at once. -/
theorem nested_closeAll {inner : List ScopeId} (blocks : List OpenBlock) (after : Position)
    (hnested : state.scopes.Nested stop now (blocks.filterMap (·.scope) ++ inner))
    (hlater : now ≤ later) (hwithin : later ≤ stop) :
    (blocks.foldl (·.close · later after) state).scopes.Nested stop later inner := by
  induction blocks generalizing state now with
  | nil => exact hnested.mono hlater hwithin
  | cons block rest ih =>
    refine ih (nested_close block after ?_ hlater hwithin) (le_refl later)
    cases hscope : block.scope <;> simpa [hscope] using hnested

theorem blocks_closeAll (state : State) (blocks : List OpenBlock) (stop after : Position) :
    (blocks.foldl (·.close · stop after) state).blocks = state.blocks := by
  induction blocks generalizing state with
  | nil => rfl
  | cons block rest ih => exact (ih _).trans (blocks_close state block stop after)

end State

open State

variable {state : State} {stop now later : Position}

theorem nested_endLoopBody {tag : Tag} (hnested : state.Nested stop now) (hstart : now ≤ tag.start)
    (hwithin : tag.start ≤ stop) : (endLoopBody tag state).Nested stop tag.start := by
  rw [endLoopBody]
  split
  next scope pending outer hblocks =>
    rw [State.Nested, openScopes, hblocks] at hnested
    exact ScopeTree.Nested.close hnested hstart hwithin
  next => exact hnested.mono hstart hwithin

/-- An end takes off the blocks up to the one that it ends, and closes them from the inside out. An end
    without a beginning changes nothing. -/
theorem endBlock_cases (tag : Tag) (kind : BlockKind) (state : State) :
    endBlock tag kind state = state ∨ ∃ closed outer, state.blocks = closed ++ outer ∧
      endBlock tag kind state =
        closed.foldl (·.close · tag.start tag.after) { state with blocks := outer } := by
  simp only [endBlock]
  split
  next => exact .inl rfl
  next block outer houter =>
    refine .inr ⟨state.blocks.takeWhile (·.kind != kind) ++ [block], outer, ?_, rfl⟩
    rw [List.append_assoc, List.singleton_append, ← houter, List.takeWhile_append_dropWhile]

theorem nested_endBlock {tag : Tag} {kind : BlockKind} (hnested : state.Nested stop now)
    (hstart : now ≤ tag.start) (hwithin : tag.start ≤ stop) :
    (endBlock tag kind state).Nested stop tag.start := by
  rcases endBlock_cases tag kind state with hsame | ⟨closed, outer, hblocks, hclosed⟩
  · rw [hsame]
    exact hnested.mono hstart hwithin
  · rw [hclosed, State.Nested, openScopes, blocks_closeAll]
    apply nested_closeAll _ _ _ hstart hwithin
    rw [← List.filterMap_append, ← hblocks]
    exact hnested

/-- A tag keeps the scopes nested, whatever it says. -/
theorem nested_apply {tag : Tag} {statement : Statement}
    (hword : ∀ word, statement.word? = some word → word ∈ tag.body) (hnested : state.Nested stop now)
    (hstart : now ≤ tag.start) (hbody : Token.Between tag.after tag.start tag.body)
    (hwithin : tag.after ≤ stop) : (apply state tag statement).Nested stop tag.after := by
  have hlater : state.Nested stop tag.after := hnested.mono (hstart.trans hbody.le) hwithin
  -- A scope opens behind the word of the tag, and its body begins behind the tag.
  have hopening : ∀ word kind, statement.word? = some word →
      word.stop.position ≤ tag.after ∧
        Opening stop word.stop.position state (state.addScope kind word) := by
    intro word kind hsome
    obtain ⟨hlow, hhigh⟩ := hbody.of_mem (hword word hsome)
    exact ⟨hhigh, hnested.addScope kind word (hstart.trans (hlow.trans word.start_le_stop))
      (hhigh.trans hwithin)⟩
  cases statement with
  | other | endRaw => exact hlater
  | evaluate mentions => exact hlater.record _ mentions
  | beginIf condition => exact (hlater.record _ condition).push .ifBranch []
  | beginFor word targets sequence filter =>
    obtain ⟨hafter, hadded⟩ := hopening word .loop rfl
    exact ((((hadded.defineAll _ _).record _ sequence).record _ filter).startBody hafter
      hwithin).define _ _ |>.push .forLoop
  | otherwise => exact (nested_endLoopBody hnested hstart (hbody.le.trans hwithin)).mono hbody.le hwithin
  | assign targets value => exact (hlater.record _ value).defineAll _ _
  | beginSet targets mentions => exact (hlater.record _ mentions).push .setBlock _
  | beginWith word names values =>
    obtain ⟨hafter, hadded⟩ := hopening word .withBlock rfl
    exact (((hadded.record _ values).startBody hafter hwithin).defineAll _ _).push .withBlock
  | beginMacro word name parameters defaults =>
    obtain ⟨hafter, hadded⟩ := hopening word .macroBody rfl
    exact (((((hadded.defineAll _ _).defineAll _ _).record _ defaults).startBody hafter
      hwithin).defineAll _ _).push .macroBody
  | beginCall word parameters mentions =>
    obtain ⟨hafter, hadded⟩ := hopening word .call rfl
    exact (((hadded.defineAll _ _).record _ mentions).startBody hafter hwithin).push .call
  | beginBlock word name =>
    obtain ⟨hafter, hadded⟩ := hopening word .block rfl
    exact ((hadded.defineAll _ _).startBody hafter hwithin).push .block
  | beginFilter mentions => exact (hlater.record _ mentions).push .filter []
  | beginRaw => exact hlater
  | importTemplate mentions alias? => exact (hlater.record _ mentions).defineAll _ _
  | importNames mentions names => exact (hlater.record _ mentions).defineAll _ _
  | endBlock kind =>
    exact (nested_endBlock hnested hstart (hbody.le.trans hwithin)).mono hbody.le hwithin

theorem nested_step {tag : Tag} (hnested : state.Nested stop now) (hstart : now ≤ tag.start)
    (hbody : Token.Between tag.after tag.start tag.body) (hwithin : tag.after ≤ stop) :
    (step state tag).Nested stop tag.after := by
  have hlater : state.Nested stop tag.after := hnested.mono (hstart.trans hbody.le) hwithin
  simp only [step]
  split
  · split
    · exact hlater
    · exact hlater
  · exact nested_apply (fun _ => Statement.word?_mem) hnested hstart hbody hwithin

/-- The scopes are nested after any number of tags. -/
theorem nested_foldl {tags : List Tag} (hnested : state.Nested stop now)
    (htags : Tag.Between stop now tags) : (tags.foldl step state).Nested stop stop := by
  induction tags generalizing state now with
  | nil => exact hnested.mono htags (le_refl stop)
  | cons tag rest ih =>
    obtain ⟨hstart, hbody, hrest⟩ := htags
    exact ih (nested_step hnested hstart hbody hrest.le) hrest

theorem marked_settle {inner : List ScopeId} {tree : ScopeTree} (after : Position)
    (pending : List (ScopeId × Binding)) (hmarked : ScopeTree.Marked inner tree state.scopes) :
    ScopeTree.Marked inner tree (settle after state pending).scopes := by
  induction pending generalizing state with
  | nil => exact hmarked
  | cons pair rest ih => exact ih (hmarked.define _)

/-- The end of the file marks the scopes of the blocks that are still open, and moves none. -/
theorem marked_closeAtEnd {inner : List ScopeId} {tree : ScopeTree} (blocks : List OpenBlock)
    (hopen : ∀ scope ∈ blocks.filterMap (·.scope), scope < tree.nextId ∧
      ∀ range, tree.range? scope = some range → range.stop = stop ∧ range.start ≤ stop)
    (hmarked : ScopeTree.Marked inner tree state.scopes) :
    ScopeTree.Marked ((blocks.filterMap (·.scope)).reverse ++ inner) tree
      (blocks.foldl (State.closeAtEnd stop) state).scopes := by
  induction blocks generalizing state inner with
  | nil => exact hmarked
  | cons block rest ih =>
    cases hscope : block.scope with
    | none =>
      rw [List.filterMap_cons_none hscope] at hopen ⊢
      refine ih hopen ?_
      rw [State.closeAtEnd, State.close, hscope]
      exact marked_settle stop block.pending hmarked
    | some scope =>
      rw [List.filterMap_cons_some hscope, List.forall_mem_cons] at hopen
      rw [List.filterMap_cons_some hscope, List.reverse_cons, List.append_assoc,
        List.singleton_append]
      refine ih hopen.2 ?_
      rw [State.closeAtEnd, State.close, hscope]
      exact (marked_settle stop block.pending (hmarked.close hopen.1.2)).closeAtEnd hopen.1.1
        hopen.1.2

/-- The scopes of a template are nested like brackets, also where blocks are not closed, closed in
    the wrong order or closed without having been opened. -/
theorem scopes_laminar (source : Source) : (ofSource source).scopes.Laminar := by
  let stop := source.endPosition
  let state := (Tag.ofTokens stop (tokenize source.chars)).foldl step { scopes := .ofEnd stop }
  have hnested : state.Nested stop stop :=
    nested_foldl (ScopeTree.Nested.ofEnd stop) (tags_between source)
  have hopen : ∀ scope ∈ state.openScopes, scope < state.scopes.nextId ∧
      ∀ range, state.scopes.range? scope = some range → range.stop = stop ∧ range.start ≤ stop := by
    intro scope hscope
    refine ⟨ScopeTree.Nested.lt_nextId_of_mem hnested hscope, fun range hrange => ?_⟩
    obtain ⟨start, hfound, hstart⟩ := ScopeTree.Nested.range_open hnested scope hscope
    rw [hfound, Option.some.injEq] at hrange
    subst hrange
    exact ⟨rfl, hstart⟩
  have hmarked : ScopeTree.Marked (state.openScopes.reverse ++ []) state.scopes
      (finish stop state).scopes :=
    marked_closeAtEnd state.blocks hopen (.refl (ScopeTree.Nested.notOpenEnded hnested))
  refine ScopeTree.Nested.laminar hnested (hmarked.of_mem_iff fun id => ?_)
  simp [State.openScopes]

end Outline

end TemplateAnalysis.Template
