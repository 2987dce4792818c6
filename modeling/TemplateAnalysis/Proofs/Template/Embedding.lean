import TemplateAnalysis.Proofs.Scope.Embedding
import TemplateAnalysis.Proofs.Template.Effects
import TemplateAnalysis.Proofs.Template.Moved

namespace TemplateAnalysis.Template

open ScopeTree (renumber)

/-- The reference where its text has moved to, behind `count` other scopes. -/
def Reference.map (move : Position → Position) (count : Nat) (reference : Reference) : Reference :=
  { toName := reference.toName.map move, scope := renumber count reference.scope }

/-- The block where its text has moved to, behind `count` other scopes. From where on its pending
    declarations are visible is settled at its end only. -/
def OpenBlock.map (move : Position → Position) (count : Nat) (block : OpenBlock) : OpenBlock :=
  { block with
    scope := block.scope.map (renumber count)
    pending := block.pending.map fun (scope, binding) =>
      (renumber count scope, { binding with range := binding.range.map move }) }

namespace Outline

namespace State

variable (state : State) (scope : ScopeId)

@[simp] theorem blocks_record (mentions : Mentions) :
    (state.record scope mentions).blocks = state.blocks := rfl

@[simp] theorem blocks_define (binding : Binding) :
    (state.define scope binding).blocks = state.blocks := rfl

@[simp] theorem blocks_addScope (kind : ScopeKind) (word : Token) :
    (state.addScope kind word).blocks = state.blocks := rfl

@[simp] theorem blocks_startBody (start : Position) :
    (state.startBody scope start).blocks = state.blocks := rfl

end State

/-- What has been read of a part of a text, embedded in what has been read of the whole text behind
    what was read before. The scopes in `inner` are open, like the root. -/
structure State.Embeds (earlier : State) (move : Position → Position) (stop stop' : Position)
    (inner : List ScopeId) (state whole : State) : Prop where
  scopes : earlier.scopes.Embeds move stop stop' inner state.scopes whole.scopes
  blocks : whole.blocks = state.blocks.map (OpenBlock.map move earlier.scopes.countBelow)
  raw : whole.raw = state.raw
  references : whole.references =
    earlier.references ++ state.references.map (Reference.map move earlier.scopes.countBelow)
  filters : whole.filters = earlier.filters ++ state.filters.map (Name.map move)
  templates : whole.templates = earlier.templates ++ state.templates.map (Identifier.map move)
  links : whole.links = earlier.links ++ state.links.map (Identifier.map move)
  pending : ∀ block ∈ state.blocks, ∀ pair ∈ block.pending, pair.2.kind = .setVariable

section Bindings

variable {move : Position → Position} {token moved : Token} {tokens movedTokens : List Token}

theorem bind_moved (hmoved : token.Moved move moved) (kind : IdentifierKind)
    (visibleFrom : Position) :
    bind kind (move visibleFrom) moved = (bind kind visibleFrom token).map move := by
  simp only [bind, Binding.map, hmoved.text, hmoved.range]

/-- Names that are declared where the text has moved to. -/
theorem binds_moved (hmoved : Token.AllMoved move tokens movedTokens) (kind : IdentifierKind)
    {visibleFrom visibleFrom' : Token → Position}
    (hvisible : ∀ token moved, token.Moved move moved → visibleFrom' moved = move (visibleFrom token)) :
    movedTokens.map (fun token => bind kind (visibleFrom' token) token) =
      (tokens.map fun token => bind kind (visibleFrom token) token).map (Binding.map move) := by
  induction hmoved with
  | nil => rfl
  | cons hfirst hrest ih =>
    rw [List.map_cons, List.map_cons, List.map_cons, ih, hvisible _ _ hfirst, bind_moved hfirst]

theorem bindsAt_moved (hmoved : Token.AllMoved move tokens movedTokens) (kind : IdentifierKind)
    (visibleFrom : Position) :
    movedTokens.map (bind kind (move visibleFrom)) =
      (tokens.map (bind kind visibleFrom)).map (Binding.map move) :=
  binds_moved hmoved kind fun _ _ _ => rfl

theorem pending_moved (hmoved : Token.AllMoved move tokens movedTokens) (count : Nat)
    (scope : ScopeId) :
    (movedTokens.map fun target => (renumber count scope, bind .setVariable {} target)) =
      (tokens.map fun target => (scope, bind .setVariable {} target)).map fun (scope, binding) =>
        (renumber count scope, { binding with range := binding.range.map move }) := by
  induction hmoved with
  | nil => rfl
  | cons hfirst hrest ih =>
    rw [List.map_cons, List.map_cons, List.map_cons, ih]
    simp only [bind, hfirst.text, hfirst.range]

theorem anchor_moved {name name' : Option Token} (hname : Option.Rel (Token.Moved move) name name')
    (position : Position) :
    (name'.map Token.range).getD (.empty (move position)) =
      ((name.map Token.range).getD (.empty position)).map move := by
  cases hname with
  | none => rfl
  | some hname => exact hname.range

theorem isRedefinable_of_mem_binds {kind : IdentifierKind} (hkind : kind.isRedefinable = true)
    {visibleFrom : Token → Position} :
    ∀ binding ∈ tokens.map (fun token => bind kind (visibleFrom token) token),
      binding.kind.isRedefinable = true := by
  intro binding hmem
  obtain ⟨token, _, rfl⟩ := List.mem_map.mp hmem
  exact hkind

theorem loopTargets_moved (hmoved : Token.AllMoved move tokens movedTokens) :
    loopTargets movedTokens = (loopTargets tokens).map (Binding.map move) := by
  cases hmoved with
  | nil => rfl
  | cons hfirst hrest =>
    rw [loopTargets, loopTargets, List.map_cons, hfirst.stop, bind_moved hfirst,
      binds_moved hrest .forLoopValue fun _ _ hvalue => hvalue.stop]

theorem parameterBindings_moved (hmoved : Token.AllMoved move tokens movedTokens) :
    parameterBindings movedTokens = (parameterBindings tokens).map (Binding.map move) :=
  binds_moved hmoved .macroParameter fun _ _ hparameter => hparameter.stop

theorem implicitBindings_moved (anchor : Range) (visibleFrom : Position) :
    implicitBindings (anchor.map move) (move visibleFrom) =
      (implicitBindings anchor visibleFrom).map (Binding.map move) := by
  simp only [implicitBindings, List.map_map]
  rfl

end Bindings

namespace State.Embeds

variable {earlier state whole : State} {move : Position → Position} {stop stop' : Position}
  {inner : List ScopeId}

theorem currentScope (hembeds : Embeds earlier move stop stop' inner state whole) :
    whole.currentScope = renumber earlier.scopes.countBelow state.currentScope := by
  rw [State.currentScope, State.currentScope, hembeds.blocks]
  induction state.blocks with
  | nil => rfl
  | cons block rest ih =>
    rw [List.map_cons, List.findSome?_cons, List.findSome?_cons]
    cases hscope : block.scope with
    | none => simpa [OpenBlock.map, hscope] using ih
    | some scope => simp [OpenBlock.map, hscope]

theorem nextId (hembeds : Embeds earlier move stop stop' inner state whole) :
    whole.scopes.nextId = renumber earlier.scopes.countBelow state.scopes.nextId :=
  hembeds.scopes.renumber_nextId.symm

theorem record (hembeds : Embeds earlier move stop stop' inner state whole) (scope : ScopeId)
    (mentions : Mentions) :
    Embeds earlier move stop stop' inner (state.record scope mentions)
      (whole.record (renumber earlier.scopes.countBelow scope) (mentions.map move)) where
  scopes := hembeds.scopes
  blocks := hembeds.blocks
  raw := hembeds.raw
  references := by
    simp only [State.record, hembeds.references, Mentions.map, List.map_append, List.map_map,
      List.append_assoc]
    rfl
  filters := by
    simp only [State.record, hembeds.filters, Mentions.map, List.map_append, List.append_assoc]
  templates := by
    simp only [State.record, hembeds.templates, Mentions.map, List.map_append, List.map_map,
      List.append_assoc]
    rfl
  links := by
    simp only [State.record, hembeds.links, Mentions.map, List.map_append, List.map_map,
      List.append_assoc]
    rfl
  pending := hembeds.pending

theorem define (hembeds : Embeds earlier move stop stop' inner state whole) (scope : ScopeId)
    (binding : Binding) (hkind : scope = ScopeTree.root → binding.kind.isRedefinable = true) :
    Embeds earlier move stop stop' inner (state.define scope binding)
      (whole.define (renumber earlier.scopes.countBelow scope) (binding.map move)) :=
  { hembeds with scopes := hembeds.scopes.define hkind }

theorem defineAll (hembeds : Embeds earlier move stop stop' inner state whole) (scope : ScopeId)
    (bindings : List Binding)
    (hkind : scope = ScopeTree.root → ∀ binding ∈ bindings, binding.kind.isRedefinable = true) :
    Embeds earlier move stop stop' inner (state.defineAll scope bindings)
      (whole.defineAll (renumber earlier.scopes.countBelow scope)
        (bindings.map (Binding.map move))) := by
  induction bindings generalizing state whole with
  | nil => exact hembeds
  | cons binding rest ih =>
    exact ih (hembeds.define scope binding fun hroot => hkind hroot binding List.mem_cons_self)
      fun hroot other hmem => hkind hroot other (List.mem_cons_of_mem _ hmem)

theorem addScope (hembeds : Embeds earlier move stop stop' inner state whole) (kind : ScopeKind)
    {word word' : Token} (hword : word.Moved move word') :
    Embeds earlier move stop stop' (state.scopes.nextId :: inner) (state.addScope kind word)
      (whole.addScope kind word') := by
  have hscopes := hembeds.scopes.insert kind state.currentScope word.stop.position
  rw [← hembeds.currentScope, ← hword.stop] at hscopes
  exact { hembeds with scopes := hscopes }

theorem startBody (hembeds : Embeds earlier move stop stop' inner state whole) {scope : ScopeId}
    (hopen : scope ∈ inner) (start : Position) :
    Embeds earlier move stop stop' inner (state.startBody scope start)
      (whole.startBody (renumber earlier.scopes.countBelow scope) (move start)) :=
  { hembeds with scopes := hembeds.scopes.setStart hopen start }

theorem push (hembeds : Embeds earlier move stop stop' inner state whole) (block : OpenBlock)
    (hpending : ∀ pair ∈ block.pending, pair.2.kind = .setVariable) :
    Embeds earlier move stop stop' inner (state.push block)
      (whole.push (block.map move earlier.scopes.countBelow)) :=
  { hembeds with
    blocks := by rw [State.push, State.push, hembeds.blocks, List.map_cons]
    pending := List.forall_mem_cons.mpr ⟨hpending, hembeds.pending⟩ }

/-- A tag that declares names in the scope in which it stands. -/
theorem declares (hembeds : Embeds earlier move stop stop' state.openScopes state whole)
    (mentions : Mentions) {bindings : List Binding}
    (hkind : ∀ binding ∈ bindings, binding.kind.isRedefinable = true) :
    Embeds earlier move stop stop'
      ((state.record state.currentScope mentions).defineAll state.currentScope bindings).openScopes
      ((state.record state.currentScope mentions).defineAll state.currentScope bindings)
      ((whole.record (renumber earlier.scopes.countBelow state.currentScope)
        (mentions.map move)).defineAll (renumber earlier.scopes.countBelow state.currentScope)
          (bindings.map (Binding.map move))) := by
  rw [openScopes, blocks_defineAll, blocks_record]
  exact (hembeds.record _ mentions).defineAll _ _ fun _ => hkind

/-- A tag that has added a scope opens its block. -/
theorem opens {before : State}
    (hembeds : Embeds earlier move stop stop' (before.scopes.nextId :: before.openScopes) state whole)
    (hblocks : state.blocks = before.blocks) (kind : BlockKind) :
    Embeds earlier move stop stop' (state.push { kind, scope := before.scopes.nextId }).openScopes
      (state.push { kind, scope := before.scopes.nextId })
      (whole.push { kind, scope := renumber earlier.scopes.countBelow before.scopes.nextId }) := by
  have hopen : (state.push { kind, scope := before.scopes.nextId }).openScopes =
      before.scopes.nextId :: before.openScopes := by
    rw [openScopes, State.push, hblocks]
    rfl
  rw [hopen]
  exact hembeds.push { kind, scope := before.scopes.nextId } (List.forall_mem_nil _)

/-- The declarations of a block of text count from the same place on in both texts. -/
theorem settle (hembeds : Embeds earlier move stop stop' inner state whole) (after : Position)
    {pending : List (ScopeId × Binding)}
    (hpending : ∀ pair ∈ pending, pair.2.kind = .setVariable) :
    Embeds earlier move stop stop' inner (State.settle after state pending)
      (State.settle (move after) whole (pending.map fun (scope, binding) =>
        (renumber earlier.scopes.countBelow scope,
          { binding with range := binding.range.map move }))) := by
  induction pending generalizing state whole with
  | nil => exact hembeds
  | cons pair rest ih =>
    obtain ⟨hpair, hrest⟩ := List.forall_mem_cons.mp hpending
    refine ih (hembeds.define pair.1 { pair.2 with visibleFrom := after } fun _ => ?_) hrest
    simp only [hpair]
    rfl

theorem close (hmove : Monotone move) {block : OpenBlock}
    (hembeds : Embeds earlier move stop stop' (block.scope.toList ++ inner) state whole)
    (hpending : ∀ pair ∈ block.pending, pair.2.kind = .setVariable) (last after : Position) :
    Embeds earlier move stop stop' inner (state.close block last after)
      (whole.close (block.map move earlier.scopes.countBelow) (move last) (move after)) := by
  rw [State.close, State.close]
  cases hscope : block.scope with
  | none =>
    rw [hscope] at hembeds
    simp only [OpenBlock.map, hscope, Option.map_none]
    exact Embeds.settle hembeds after hpending
  | some scope =>
    rw [hscope] at hembeds
    simp only [OpenBlock.map, hscope, Option.map_some]
    have hclosed : Embeds earlier move stop stop' inner
        { state with scopes := state.scopes.close scope last }
        { whole with
          scopes := whole.scopes.close (renumber earlier.scopes.countBelow scope) (move last) } :=
      { hembeds with scopes := hembeds.scopes.closeInnermost hmove last }
    exact hclosed.settle after hpending

/-- The innermost blocks end together. -/
theorem closeAll (hmove : Monotone move) {blocks : List OpenBlock}
    (hembeds : Embeds earlier move stop stop' (blocks.filterMap (·.scope) ++ inner) state whole)
    (hpending : ∀ block ∈ blocks, ∀ pair ∈ block.pending, pair.2.kind = .setVariable)
    (last after : Position) :
    Embeds earlier move stop stop' inner (blocks.foldl (·.close · last after) state)
      ((blocks.map (OpenBlock.map move earlier.scopes.countBelow)).foldl
        (·.close · (move last) (move after)) whole) := by
  induction blocks generalizing state whole with
  | nil => exact hembeds
  | cons block rest ih =>
    obtain ⟨hfirst, hrest⟩ := List.forall_mem_cons.mp hpending
    rw [List.map_cons, List.foldl_cons, List.foldl_cons]
    refine ih (Embeds.close hmove ?_ hfirst last after) hrest
    cases hscope : block.scope <;> simpa [hscope] using hembeds

theorem closeAtEnd (hmove : Monotone move) {block : OpenBlock}
    (hembeds : Embeds earlier move stop stop' (block.scope.toList ++ inner) state whole)
    (hpending : ∀ pair ∈ block.pending, pair.2.kind = .setVariable) (last : Position) :
    Embeds earlier move stop stop' inner (State.closeAtEnd last state block)
      (State.closeAtEnd (move last) whole (block.map move earlier.scopes.countBelow)) := by
  have hclosed := hembeds.close hmove hpending last last
  cases hscope : block.scope with
  | none =>
    have hmapped : (block.map move earlier.scopes.countBelow).scope = none := by
      simp [OpenBlock.map, hscope]
    simpa only [State.closeAtEnd, hscope, hmapped] using hclosed
  | some scope =>
    have hmapped : (block.map move earlier.scopes.countBelow).scope =
        some (renumber earlier.scopes.countBelow scope) := by
      simp [OpenBlock.map, hscope]
    have hroot : scope ≠ ScopeTree.root := by
      rintro rfl
      exact hembeds.scopes.notRoot (by simp [hscope])
    simp only [State.closeAtEnd, hscope, hmapped]
    exact { hclosed with scopes := hclosed.scopes.closeAtEnd hmove hroot last }

/-- The blocks that are open at the end end there in both texts. -/
theorem closeAllAtEnd (hmove : Monotone move) {blocks : List OpenBlock}
    (hembeds : Embeds earlier move stop stop' (blocks.filterMap (·.scope) ++ inner) state whole)
    (hpending : ∀ block ∈ blocks, ∀ pair ∈ block.pending, pair.2.kind = .setVariable)
    (last : Position) :
    Embeds earlier move stop stop' inner (blocks.foldl (State.closeAtEnd last) state)
      ((blocks.map (OpenBlock.map move earlier.scopes.countBelow)).foldl
        (State.closeAtEnd (move last)) whole) := by
  induction blocks generalizing state whole with
  | nil => exact hembeds
  | cons block rest ih =>
    obtain ⟨hfirst, hrest⟩ := List.forall_mem_cons.mp hpending
    rw [List.map_cons, List.foldl_cons, List.foldl_cons]
    refine ih (Embeds.closeAtEnd hmove ?_ hfirst last) hrest
    cases hscope : block.scope <;> simpa [hscope] using hembeds

end State.Embeds

open State

variable {earlier state whole : State} {move : Position → Position} {stop stop' : Position}
  {tag moved : Tag}

theorem embeds_endLoopBody (hmove : Monotone move)
    (hembeds : Embeds earlier move stop stop' state.openScopes state whole)
    (htag : tag.Moved move moved) :
    Embeds earlier move stop stop' (endLoopBody tag state).openScopes (endLoopBody tag state)
      (endLoopBody moved whole) := by
  have hblocks := hembeds.blocks
  have hpending := hembeds.pending
  rw [endLoopBody]
  split
  next scope pending outer hsplit =>
    rw [hsplit] at hblocks hpending
    rw [openScopes, hsplit] at hembeds
    have hclosed := hembeds.scopes.closeInnermost hmove tag.start
    rw [endLoopBody, hblocks]
    simp only [List.map_cons, OpenBlock.map, Option.map_some, htag.start]
    exact { hembeds with
      scopes := hclosed
      blocks := rfl
      pending := List.forall_mem_cons.mpr (List.forall_mem_cons.mp hpending) }
  next hother =>
    have hsame : endLoopBody moved whole = whole := by
      rw [endLoopBody]
      split
      next scope pending outer hsplit =>
        rw [hblocks] at hsplit
        obtain ⟨block, rest, hstate, hblock, _⟩ := List.map_eq_cons_iff.mp hsplit
        obtain ⟨inside, hinside, _⟩ := Option.map_eq_some_iff.mp (congrArg OpenBlock.scope hblock)
        have hkind : block.kind = .forLoop := congrArg OpenBlock.kind hblock
        refine absurd ?_ (hother inside block.pending rest)
        rw [hstate, ← hkind, ← hinside]
      next => rfl
    rw [hsame]
    exact hembeds

theorem embeds_endBlock (hmove : Monotone move)
    (hembeds : Embeds earlier move stop stop' state.openScopes state whole)
    (htag : tag.Moved move moved) (kind : BlockKind) :
    Embeds earlier move stop stop' (endBlock tag kind state).openScopes (endBlock tag kind state)
      (endBlock moved kind whole) := by
  have hkinds : ((·.kind != kind) ∘ OpenBlock.map move earlier.scopes.countBelow) =
      (·.kind != kind) := rfl
  simp only [endBlock, hembeds.blocks, List.takeWhile_map, List.dropWhile_map, hkinds, htag.start,
    htag.after]
  cases houter : state.blocks.dropWhile (·.kind != kind) with
  | nil => exact hembeds
  | cons block outer =>
    have hmap : (state.blocks.takeWhile (·.kind != kind)).map
          (OpenBlock.map move earlier.scopes.countBelow) ++ [block.map move earlier.scopes.countBelow] =
        (state.blocks.takeWhile (·.kind != kind) ++ [block]).map
          (OpenBlock.map move earlier.scopes.countBelow) := by simp
    simp only [List.map_cons, hmap]
    have hblocks : state.blocks = (state.blocks.takeWhile (·.kind != kind) ++ [block]) ++ outer := by
      rw [List.append_assoc, List.singleton_append, ← houter, List.takeWhile_append_dropWhile]
    generalize state.blocks.takeWhile (·.kind != kind) ++ [block] = ended at hblocks ⊢
    have hpending := hembeds.pending
    rw [hblocks] at hpending
    rw [openScopes, hblocks, List.filterMap_append] at hembeds
    rw [openScopes, blocks_closeAll]
    obtain ⟨hended, hrest⟩ := List.forall_mem_append.mp hpending
    have houter : Embeds earlier move stop stop' (ended.filterMap (·.scope) ++ outer.filterMap (·.scope))
        { state with blocks := outer }
        { whole with blocks := outer.map (OpenBlock.map move earlier.scopes.countBelow) } :=
      { hembeds with blocks := rfl, pending := hrest }
    exact houter.closeAll hmove hended tag.start tag.after

theorem embeds_apply (hmove : Monotone move)
    (hembeds : Embeds earlier move stop stop' state.openScopes state whole)
    (htag : tag.Moved move moved) {statement movedStatement : Statement}
    (hstatement : statement.Moved move movedStatement) :
    Embeds earlier move stop stop' (apply state tag statement).openScopes
      (apply state tag statement) (apply whole moved movedStatement) := by
  -- A new scope is never the root. In the root, names of several templates meet, so only bindings of
  -- redefinable kinds may be defined there.
  have hscope : state.scopes.nextId ≠ ScopeTree.root := hembeds.scopes.nextId_ne_root
  cases hstatement with
  | other | endRaw => exact hembeds
  | evaluate mentions =>
    simp only [apply, hembeds.currentScope]
    exact hembeds.record _ mentions
  | beginIf condition =>
    simp only [apply, hembeds.currentScope]
    exact (hembeds.record _ condition).push { kind := .ifBranch } (List.forall_mem_nil _)
  | beginFor hword htargets sequence filter =>
    simp only [apply, hembeds.currentScope, hembeds.nextId, loopTargets_moved htargets, htag.after,
      bind_moved hword]
    refine Embeds.opens ?_ (by simp) .forLoop
    refine Embeds.define ?_ _ (loopVariable tag _) fun hroot => absurd hroot hscope
    refine Embeds.startBody ?_ List.mem_cons_self tag.after
    refine Embeds.record (Embeds.record ?_ _ sequence) _ filter
    exact (hembeds.addScope .loop hword).defineAll _ _ fun hroot => absurd hroot hscope
  | otherwise => exact embeds_endLoopBody hmove hembeds htag
  | assign htargets value =>
    simp only [apply, hembeds.currentScope, htag.after, bindsAt_moved htargets]
    exact hembeds.declares value (isRedefinable_of_mem_binds rfl)
  | beginSet htargets mentions =>
    simp only [apply, hembeds.currentScope, pending_moved htargets]
    refine (hembeds.record _ mentions).push { kind := .setBlock, pending := _ } fun pair hmem => ?_
    obtain ⟨_, _, rfl⟩ := List.mem_map.mp hmem
    rfl
  | beginWith hword hnames values =>
    simp only [apply, hembeds.currentScope, hembeds.nextId, htag.after, bindsAt_moved hnames]
    refine Embeds.opens ?_ (by simp) .withBlock
    refine Embeds.defineAll ?_ _ _ fun hroot => absurd hroot hscope
    refine Embeds.startBody ?_ List.mem_cons_self tag.after
    exact (hembeds.addScope .withBlock hword).record _ values
  | beginMacro hword hname hparameters defaults =>
    simp only [apply, hembeds.currentScope, hembeds.nextId, htag.after, anchor_moved hname,
      implicitBindings_moved, parameterBindings_moved hparameters,
      binds_moved (toList_of_rel hname) .macroName fun _ _ hname => hname.start]
    refine Embeds.opens ?_ (by simp) .macroBody
    refine Embeds.defineAll ?_ _ _ fun hroot => absurd hroot hscope
    refine Embeds.startBody ?_ List.mem_cons_self tag.after
    refine Embeds.record ?_ _ defaults
    refine Embeds.defineAll ?_ _ _ fun hroot => absurd hroot hscope
    exact (hembeds.addScope .macroBody hword).defineAll _ _ fun _ => isRedefinable_of_mem_binds rfl
  | beginCall hword hparameters mentions =>
    simp only [apply, hembeds.currentScope, hembeds.nextId, htag.after,
      parameterBindings_moved hparameters]
    refine Embeds.opens ?_ (by simp) .call
    refine Embeds.startBody ?_ List.mem_cons_self tag.after
    refine Embeds.record ?_ _ mentions
    exact (hembeds.addScope .call hword).defineAll _ _ fun hroot => absurd hroot hscope
  | beginBlock hword hname =>
    simp only [apply, hembeds.currentScope, hembeds.nextId, htag.after,
      binds_moved (toList_of_rel hname) .templateBlock fun _ _ hname => hname.start]
    refine Embeds.opens ?_ (by simp) .block
    refine Embeds.startBody ?_ List.mem_cons_self tag.after
    exact (hembeds.addScope .block hword).defineAll _ _ fun _ => isRedefinable_of_mem_binds rfl
  | beginFilter mentions =>
    simp only [apply, hembeds.currentScope]
    exact (hembeds.record _ mentions).push { kind := .filter } (List.forall_mem_nil _)
  | beginRaw => exact { hembeds with raw := rfl }
  | importTemplate mentions halias =>
    simp only [apply, hembeds.currentScope, htag.after, bindsAt_moved (toList_of_rel halias)]
    exact hembeds.declares mentions (isRedefinable_of_mem_binds rfl)
  | importNames mentions hnames =>
    simp only [apply, hembeds.currentScope, htag.after, bindsAt_moved hnames]
    exact hembeds.declares mentions (isRedefinable_of_mem_binds rfl)
  | endBlock kind => exact embeds_endBlock hmove hembeds htag kind

theorem embeds_step (hmove : Monotone move)
    (hembeds : Embeds earlier move stop stop' state.openScopes state whole)
    (htag : tag.Moved move moved) :
    Embeds earlier move stop stop' (step state tag).openScopes (step state tag)
      (step whole moved) := by
  have hstatement := Statement.ofTag_moved htag
  have hend := hstatement.eq_endRaw_iff
  simp only [step, hembeds.raw, hend]
  split
  · split
    · exact { hembeds with raw := rfl }
    · exact hembeds
  · exact embeds_apply hmove hembeds htag hstatement

theorem embeds_foldl (hmove : Monotone move) {tags movedTags : List Tag}
    (hembeds : Embeds earlier move stop stop' state.openScopes state whole)
    (htags : List.Forall₂ (Tag.Moved move) tags movedTags) :
    Embeds earlier move stop stop' (tags.foldl step state).openScopes (tags.foldl step state)
      (movedTags.foldl step whole) := by
  induction htags generalizing state whole with
  | nil => exact hembeds
  | cons hfirst hrest ih => exact ih (embeds_step hmove hembeds hfirst)

theorem embeds_finish (hmove : Monotone move)
    (hembeds : Embeds earlier move stop (move stop) state.openScopes state whole) :
    Embeds earlier move stop (move stop) [] (finish stop state) (finish (move stop) whole) := by
  rw [finish, finish, hembeds.blocks]
  refine Embeds.closeAllAtEnd hmove ?_ hembeds.pending stop
  rw [List.append_nil]
  exact { hembeds with blocks := rfl, pending := List.forall_mem_nil _ }

end Outline

end TemplateAnalysis.Template
