import TemplateAnalysis.Proofs.Syntax.Simulation

namespace TemplateAnalysis.Syntax

open Template (BlockKind Keyword Mentions OpenBlock Reference Statement Tag TagForm Token)
open Template.Outline

section Plain

variable {place : Place} {state : State} {environment : Environment}

/-- The opening of a condition is a block without a scope. -/
theorem reaches_if (condition : Expr) (hstands : Stands place.position state environment) :
    let fragment := Fragment.condition .ifKw condition
    Reaches place.position (fragment.after place).position state (fragment.perform place state)
        { uses := lookups environment (select .read (fragment.tokens place)), environment } ∧
      (fragment.perform place state).blocks = { kind := .ifBranch } :: state.blocks := by
  intro fragment
  obtain ⟨limit, hprinted⟩ := printed_tagAt .statement place (.word .ifKw :: condition.parts)
  obtain ⟨mentions, hstatement, hclause⟩ := ofBody_if (spells_locate (place.past (opening .statement)) _)
  have hperform : fragment.perform place state =
      (state.record state.currentScope mentions).push { kind := .ifBranch } :=
    perform_statement hstands hstatement
  rw [hperform]
  exact ⟨(reaches_evaluate hstands hprinted hclause).push .ifBranch [], rfl⟩

/-- A later branch of a condition changes no block. -/
theorem reaches_elif (condition : Expr) (hstands : Stands place.position state environment) :
    let fragment := Fragment.condition .elifKw condition
    Reaches place.position (fragment.after place).position state (fragment.perform place state)
        { uses := lookups environment (select .read (fragment.tokens place)), environment } ∧
      (fragment.perform place state).blocks = state.blocks := by
  intro fragment
  obtain ⟨limit, hprinted⟩ := printed_tagAt .statement place (.word .elifKw :: condition.parts)
  obtain ⟨mentions, hstatement, hclause⟩ := ofBody_elif (spells_locate (place.past (opening .statement)) _)
  have hperform : fragment.perform place state = state.record state.currentScope mentions :=
    perform_statement hstands hstatement
  rw [hperform]
  exact ⟨reaches_evaluate hstands hprinted hclause, rfl⟩

theorem reaches_filter (first : Filter) (others : List Filter)
    (hstands : Stands place.position state environment) :
    let fragment := Fragment.filter first others
    Reaches place.position (fragment.after place).position state (fragment.perform place state)
        { uses := lookups environment (select .read (fragment.tokens place)), environment } ∧
      (fragment.perform place state).blocks = { kind := .filter } :: state.blocks := by
  intro fragment
  obtain ⟨limit, hprinted⟩ :=
    printed_tagAt .statement place (.word .filterKw :: (first.parts ++ pipeline others))
  obtain ⟨mentions, hstatement, hclause⟩ :=
    ofBody_filter (spells_locate (place.past (opening .statement)) _)
  have hperform : fragment.perform place state =
      (state.record state.currentScope mentions).push { kind := .filter } :=
    perform_statement hstands hstatement
  rw [hperform]
  exact ⟨(reaches_evaluate hstands hprinted hclause).push .filter [], rfl⟩

/-- The names of a captured text that are declared in a scope after its end. -/
def pendingNames (scope : ScopeId) (names : List Token) : List (ScopeId × Binding) :=
  names.map fun name => (scope, bind .setVariable {} name)

theorem settle_pendingNames (after : Position) (state : State) (scope : ScopeId) (names : List Token) :
    State.settle after state (pendingNames scope names) =
      state.defineAll scope (names.map (bind .setVariable after)) := by
  induction names generalizing state with
  | nil => rfl
  | cons name rest ih => exact ih _

theorem reaches_capture (targets : List Target) (filters : List Filter)
    (hstands : Stands place.position state environment) :
    let fragment := Fragment.capture targets filters
    let tokens := fragment.tokens place
    Reaches place.position (fragment.after place).position state (fragment.perform place state)
        { uses := lookups environment (select .read tokens), environment } ∧
      (fragment.perform place state).blocks =
        { kind := .setBlock, pending := pendingNames state.currentScope (select .declared tokens) } ::
          state.blocks := by
  intro fragment tokens
  obtain ⟨limit, hprinted⟩ := printed_tagAt .statement place
    (.word .setKw :: (separated (targets.map Target.parts) ++ pipeline filters))
  obtain ⟨found, mentions, hstatement, hclause⟩ :=
    ofBody_capture (spells_locate (place.past (opening .statement)) _)
  have hnames : select .declared tokens = found := hclause.declared
  have hperform : fragment.perform place state = (state.record state.currentScope mentions).push
      { kind := .setBlock, pending := pendingNames state.currentScope found } :=
    perform_statement hstands hstatement
  rw [hperform, hnames]
  have hrecord := reaches_record hstands hprinted hclause.references
  have hreaches := hrecord.trans (.refl hrecord.stands hprinted.limit_lt.le)
  rw [List.append_nil] at hreaches
  exact ⟨hreaches.push .setBlock _, rfl⟩

end Plain

section Endings

variable {place : Place} {state : State} {environment : Environment} {tag : Tag}

theorem tagAt_start_lt (form : TagForm) (place : Place) (parts : List Part) :
    place.position < (Fragment.after place (.tag form parts)).position := by
  obtain ⟨limit, hprinted⟩ := printed_tagAt form place parts
  exact hprinted.start_lt.trans hprinted.limit_lt

/-- An end closes the innermost block if it is of the right kind. -/
theorem endBlock_head {block : OpenBlock} {outer : List OpenBlock} (hblocks : state.blocks = block :: outer) :
    endBlock tag block.kind state = State.close { state with blocks := outer } block tag.start tag.after := by
  have hsame : (block.kind != block.kind) = false := bne_self_eq_false block.kind
  rw [endBlock, hblocks, List.takeWhile_cons_of_neg (by rw [hsame]; exact Bool.false_ne_true),
    List.dropWhile_cons_of_neg (by rw [hsame]; exact Bool.false_ne_true)]
  rfl

/-- The end of a scope leads back to the environment around it. -/
theorem reaches_leave {start stop close : Position} {frame : Frame} {blocks : List OpenBlock}
    (hstands : Stands start state (.inner frame environment)) (hle : start ≤ stop)
    (hparent : state.scopes.parent? state.currentScope =
      some ((blocks.findSome? (·.scope)).getD ScopeTree.root)) :
    Reaches start stop state
      { state with scopes := state.scopes.close state.currentScope close, blocks }
      { uses := [], environment } where
  le := hle
  stands := ⟨hstands.raw, ((hstands.represents.outer hparent).close _ _).mono hle⟩
  grows := (ScopeTree.Grows.refl start state.scopes).close _ _
  references := ⟨[], (List.append_nil _).symm, fun _ _ => rfl⟩

/-- A block without a scope and without pending names ends without an effect. -/
theorem reaches_end {start stop : Position} (hstands : Stands start state environment) (hle : start ≤ stop)
    {blocks : List OpenBlock} (hcurrent : (blocks.findSome? (·.scope)).getD ScopeTree.root = state.currentScope) :
    Reaches start stop state { state with blocks } { uses := [], environment } where
  le := hle
  stands := by
    refine ⟨hstands.raw, ?_⟩
    have hmono := hstands.represents.mono hle
    rw [← hcurrent] at hmono
    exact hmono
  grows := .refl _ _
  references := ⟨[], (List.append_nil _).symm, fun _ _ => rfl⟩

variable {outer : List OpenBlock} {frame : Frame} {word : Keyword} {kind : BlockKind} {scope : ScopeId}

theorem perform_word (hstands : Stands place.position state environment) {statement : Statement}
    (hword : ∀ token : Token, token.kind = .keyword word → Statement.ofBody [token] = statement) :
    (Fragment.word word).perform place state =
      apply state (Fragment.tagAt .statement place [.word word]) statement := by
  have hstatement : Statement.ofBody ((Part.locate (place.past (opening .statement)) [.word word]).map (·.1)) =
      statement := hword _ rfl
  exact perform_statement hstands hstatement

/-- The end of a block with a scope leads back to the environment around it. -/
theorem reaches_close (hstands : Stands place.position state (.inner frame environment))
    (hblocks : state.blocks = { kind, scope := some scope } :: outer)
    (hparent : state.scopes.parent? scope = some ((outer.findSome? (·.scope)).getD ScopeTree.root))
    (hword : ∀ token : Token, token.kind = .keyword word → Statement.ofBody [token] = .endBlock kind) :
    Reaches place.position ((Fragment.word word).after place).position state
        ((Fragment.word word).perform place state) { uses := [], environment } ∧
      ((Fragment.word word).perform place state).blocks = outer := by
  have hcurrent : state.currentScope = scope := by
    rw [State.currentScope, hblocks]
    rfl
  have hperform : (Fragment.word word).perform place state = endBlock _ kind state := perform_word hstands hword
  rw [hperform, endBlock_head hblocks]
  rw [← hcurrent] at hparent ⊢
  exact ⟨reaches_leave hstands (tagAt_start_lt .statement place [.word word]).le hparent, rfl⟩

/-- The end of a block without a scope changes no environment. -/
theorem reaches_closePlain (hstands : Stands place.position state environment)
    (hblocks : state.blocks = { kind } :: outer)
    (hword : ∀ token : Token, token.kind = .keyword word → Statement.ofBody [token] = .endBlock kind) :
    Reaches place.position ((Fragment.word word).after place).position state
        ((Fragment.word word).perform place state) { uses := [], environment } ∧
      ((Fragment.word word).perform place state).blocks = outer := by
  have hperform : (Fragment.word word).perform place state = endBlock _ kind state := perform_word hstands hword
  have hcurrent : (outer.findSome? (·.scope)).getD ScopeTree.root = state.currentScope := by
    rw [State.currentScope, hblocks]
    rfl
  rw [hperform, endBlock_head hblocks]
  exact ⟨reaches_end hstands (tagAt_start_lt .statement place [.word word]).le hcurrent, rfl⟩

/-- The last branch of a loop is put out around the loop, which stays open. -/
theorem reaches_loopElse (hstands : Stands place.position state (.inner frame environment))
    (hblocks : state.blocks = { kind := .forLoop, scope := some scope } :: outer)
    (hparent : state.scopes.parent? scope = some ((outer.findSome? (·.scope)).getD ScopeTree.root)) :
    Reaches place.position ((Fragment.word .elseKw).after place).position state
        ((Fragment.word .elseKw).perform place state) { uses := [], environment } ∧
      ((Fragment.word .elseKw).perform place state).blocks = { kind := .forLoop } :: outer := by
  have hcurrent : state.currentScope = scope := by
    rw [State.currentScope, hblocks]
    rfl
  have hperform : (Fragment.word .elseKw).perform place state = endLoopBody _ state :=
    perform_statement hstands rfl
  rw [hperform, endLoopBody, hblocks]
  rw [← hcurrent] at hparent ⊢
  exact ⟨reaches_leave hstands (tagAt_start_lt .statement place [.word .elseKw]).le hparent, rfl⟩

/-- The last branch of a condition changes no block. -/
theorem reaches_otherwise (hstands : Stands place.position state environment)
    (hblocks : state.blocks = { kind := .ifBranch } :: outer) :
    Reaches place.position ((Fragment.word .elseKw).after place).position state
        ((Fragment.word .elseKw).perform place state) { uses := [], environment } ∧
      ((Fragment.word .elseKw).perform place state).blocks = state.blocks := by
  have hperform : (Fragment.word .elseKw).perform place state = endLoopBody _ state :=
    perform_statement hstands rfl
  have hsame : (Fragment.word .elseKw).perform place state = state := by
    rw [hperform, endLoopBody, hblocks]
  rw [hsame]
  exact ⟨.refl hstands (tagAt_start_lt .statement place [.word .elseKw]).le, rfl⟩

/-- The names of a captured text take effect after its end. -/
theorem reaches_closeCapture {names : List Token} (hstands : Stands place.position state environment)
    (hblocks : state.blocks =
      { kind := .setBlock, pending := pendingNames state.currentScope names } :: outer) :
    Reaches place.position ((Fragment.word .endsetKw).after place).position state
        ((Fragment.word .endsetKw).perform place state)
        { uses := [], environment := environment.declare (names.map (declared .setVariable)) } ∧
      ((Fragment.word .endsetKw).perform place state).blocks = outer := by
  have hperform : (Fragment.word .endsetKw).perform place state = endBlock _ .setBlock state :=
    perform_statement hstands rfl
  have hcurrent : (outer.findSome? (·.scope)).getD ScopeTree.root = state.currentScope := by
    rw [State.currentScope, hblocks]
    rfl
  have hend := reaches_end hstands (le_refl _) hcurrent
  have hdeclare := hend.declare .setVariable (tagAt_start_lt .statement place [.word .endsetKw]) rfl rfl names
  rw [hperform, endBlock_head hblocks, State.close, settle_pendingNames, ← hcurrent]
  refine ⟨hdeclare, ?_⟩
  rw [State.defineAll_eq]

end Endings

section Heads

variable {low limit : Position} {tag : Tag} {marked : List (Token × Role)} {names : List Token}
  {bindings : List Binding}

/-- Names that are visible from their own ends on are declared in the order of the text. -/
structure Ends (low limit : Position) (bindings : List Binding) : Prop where
  binds : ∀ binding ∈ bindings, binding.kind.bindsReferences = true
  new : ∀ binding ∈ bindings, low < binding.visibleFrom
  ordered : bindings.Pairwise Scope.Precedes
  visible : ∀ binding ∈ bindings, binding.visibleFrom ≤ limit

theorem Printed.ends (hprinted : Printed tag marked limit) (hnames : names.Sublist (marked.map (·.1)))
    (hlow : ∀ name ∈ names, low < name.stop.position)
    (hvisible : bindings.map Binding.visibleFrom = names.map fun name => name.stop.position)
    (hbinds : ∀ binding ∈ bindings, binding.kind.bindsReferences = true) : Ends low limit bindings := by
  have hname : ∀ binding ∈ bindings, ∃ name ∈ names, name.stop.position = binding.visibleFrom := by
    intro binding hmem
    have hposition := List.mem_map_of_mem (f := Binding.visibleFrom) hmem
    rw [hvisible] at hposition
    exact List.mem_map.mp hposition
  refine ⟨hbinds, fun binding hmem => ?_, ?_, fun binding hmem => ?_⟩
  · obtain ⟨name, hnameMem, hsame⟩ := hname binding hmem
    exact hsame ▸ hlow name hnameMem
  · have hlater : names.Pairwise fun first second => first.stop.position < second.stop.position := by
      refine (hprinted.ordered.sublist hnames).imp_of_mem fun _ hsecond hle => ?_
      exact hle.trans_lt (hprinted.within _ (hnames.subset hsecond)).2.1
    rw [← List.pairwise_map, ← hvisible, List.pairwise_map] at hlater
    exact hlater.imp fun hlt => .inl hlt
  · obtain ⟨name, hnameMem, hsame⟩ := hname binding hmem
    exact hsame ▸ (hprinted.within name (hnames.subset hnameMem)).2.2

theorem loopTargets_visibleFrom (targets : List Token) :
    (loopTargets targets).map Binding.visibleFrom = targets.map fun target => target.stop.position := by
  cases targets with
  | nil => rfl
  | cons key values =>
    rw [loopTargets, List.map_cons, List.map_map, List.map_cons]
    rfl

theorem loopTargets_kind (targets : List Token) : ∀ binding ∈ loopTargets targets,
    binding.kind = .forLoopKey ∨ binding.kind = .forLoopValue := by
  cases targets with
  | nil => exact fun binding hmem => absurd hmem List.not_mem_nil
  | cons key values =>
    refine List.forall_mem_cons.mpr ⟨.inl rfl, fun binding hmem => ?_⟩
    obtain ⟨value, _, rfl⟩ := List.mem_map.mp hmem
    exact .inr rfl

theorem parameterBindings_visibleFrom (names : List Token) :
    (parameterBindings names).map Binding.visibleFrom = names.map fun name => name.stop.position := by
  rw [parameterBindings, List.map_map]
  rfl

theorem parameterBindings_binds (names : List Token) :
    ∀ binding ∈ parameterBindings names, binding.kind.bindsReferences = true := by
  intro binding hmem
  obtain ⟨name, _, rfl⟩ := List.mem_map.mp hmem
  rfl

theorem select_sublist (role : Role) (marked : List (Token × Role)) :
    (select role marked).Sublist (marked.map (·.1)) :=
  List.filter_sublist.map _

theorem namesInHead_loop (head : Loop) (tokens : List (Token × Role)) :
    (Opening.loop head).namesInHead tokens =
      (loopTargets (select .declared tokens)).map Declaration.ofBinding := by
  rw [Opening.namesInHead]
  cases select .declared tokens with
  | nil => rfl
  | cons key values =>
    rw [loopTargets, List.map_cons, List.map_map]
    rfl

end Heads

/-- The head of a block leads into the environment of its body, and the block is open then. -/
structure Enters (opening : Opening) (place : Place) (state : State) (environment : Environment) : Prop where
  reaches : Reaches place.position ((Fragment.opening opening).after place).position state
    ((Fragment.opening opening).perform place state) (opening.enter environment place)
  blocks : ((Fragment.opening opening).perform place state).blocks =
    { kind := opening.kind, scope := some state.scopes.nextId } :: state.blocks
  parent : ((Fragment.opening opening).perform place state).scopes.parent? state.scopes.nextId =
    some state.currentScope

/-- What the head of a block does to a state: it opens a scope, in which names are declared before and after
    the end of the head, and records what is read outside and inside. -/
structure Opens (opening : Opening) (place : Place) (state : State) (middle : ScopeTree)
    (first second : List Binding) : Prop where
  scopes : ∃ kind word, ((Fragment.opening opening).perform place state).scopes =
    middle.openScope kind state.currentScope word ((Fragment.opening opening).after place).position first second
  blocks : ((Fragment.opening opening).perform place state).blocks =
    { kind := opening.kind, scope := some state.scopes.nextId } :: state.blocks
  raw : ((Fragment.opening opening).perform place state).raw = state.raw
  references : ((Fragment.opening opening).perform place state).references = state.references ++
    (references state.currentScope (select .read ((Fragment.opening opening).tokens place)) ++
      references state.scopes.nextId (select .readInside ((Fragment.opening opening).tokens place)))
  nextId : middle.nextId = state.scopes.nextId
  first : opening.namesInHead ((Fragment.opening opening).tokens place) = first.map Declaration.ofBinding
  second : opening.namesInBody ((Fragment.opening opening).tokens place) = second.map Declaration.ofBinding

/-- Names of one kind that are declared at one position. -/
structure Together (position : Position) (bindings : List Binding) : Prop where
  binds : ∀ binding ∈ bindings, binding.kind.bindsReferences = true
  ordered : bindings.Pairwise Scope.Precedes
  visible : ∀ binding ∈ bindings, binding.visibleFrom = position

theorem Together.of_kind {position : Position} {bindings : List Binding} (kind : IdentifierKind)
    (hbinds : kind.bindsReferences = true)
    (hall : ∀ binding ∈ bindings, binding.kind = kind ∧ binding.visibleFrom = position) :
    Together position bindings where
  binds binding hmem := by rw [(hall binding hmem).1, hbinds]
  ordered := by
    refine List.pairwise_iff_forall_sublist.mpr fun {first second} hsub => ?_
    obtain ⟨hkind, hvisible⟩ := hall first (hsub.subset List.mem_cons_self)
    obtain ⟨hkind', hvisible'⟩ := hall second (hsub.subset (List.mem_cons_of_mem _ List.mem_cons_self))
    exact .inr ⟨hvisible.trans hvisible'.symm, hkind.trans hkind'.symm⟩
  visible binding hmem := (hall binding hmem).2

section Openings

variable {opening : Opening} {place : Place} {state : State} {environment : Environment}
  {middle : ScopeTree} {low limit : Position} {first second : List Binding}

/-- The names in the head of a block are found where something inside is read. -/
theorem Opens.enters (hopens : Opens opening place state middle first second)
    (hprinted : Printed (Fragment.tagAt .statement place opening.parts) ((Fragment.opening opening).tokens place)
      limit)
    (hraw : state.raw = false) (hgrows : state.scopes.Grows place.position middle)
    (hmiddle : middle.Represents low state.currentScope (opening.surround environment place))
    (hlow : place.position ≤ low) (hlimit : low ≤ limit) (hfirst : Ends low limit first)
    (hsecond : Together ((Fragment.opening opening).after place).position second)
    (hread : ∀ token ∈ select .read ((Fragment.opening opening).tokens place), low ≤ token.start.position)
    (hinside : ∀ token ∈ select .readInside ((Fragment.opening opening).tokens place),
      (∀ binding ∈ first, binding.visibleFrom ≤ token.start.position) ∧ low ≤ token.start.position ∧
        ∃ binding, second = [binding] ∧ ∀ other ∈ first, other.kind ≠ binding.kind) :
    Enters opening place state environment := by
  obtain ⟨kind, word, hscopes⟩ := hopens.scopes
  have hcurrent : ((Fragment.opening opening).perform place state).currentScope = middle.nextId := by
    rw [State.currentScope, hopens.blocks, hopens.nextId]
    rfl
  -- The scope is filled in two steps: what the head declares as it is read, and what the whole tag
  -- gives to the body.
  have hhead := hmiddle.head kind word hfirst.binds hfirst.new hfirst.ordered hfirst.visible hlimit
  have hbody := hhead.openScope hsecond.binds hsecond.ordered hsecond.visible hprinted.limit_lt
  have hbefore : ∀ token ∈ ((Fragment.opening opening).tokens place).map (·.1),
      token.start.position < ((Fragment.opening opening).after place).position := fun token htoken =>
    (hprinted.within token htoken).2.1.trans_le ((hprinted.within token htoken).2.2.trans hprinted.limit_lt.le)
  refine ⟨⟨(hlow.trans hlimit).trans hprinted.limit_lt.le, ⟨hopens.raw.trans hraw, ?_⟩, ?_, _,
    hopens.references, fun final hfinal => ?_⟩, hopens.blocks, ?_⟩
  · rw [hscopes, hcurrent, Opening.enter, hopens.first, hopens.second]
    exact hbody
  · rw [hscopes]
    exact hgrows.trans (ScopeTree.grows_openScope _ _ _ _ _ _ _ _)
  · rw [hscopes] at hfinal
    rw [List.map_append, Opening.enter]
    refine congrArg₂ _ (resolved_references fun token htoken => ?_) (resolved_references fun token htoken => ?_)
    · have hlate := hfinal.mono (hbefore token (mem_of_mem_select htoken)).le
      exact ⟨middle, hmiddle.mono (hread token htoken), (ScopeTree.grows_openScope _ _ _ _ _ _ _ _).trans hlate⟩
    · have hlt := hbefore token (mem_of_mem_select htoken)
      obtain ⟨hvisible, hle, binding, rfl, hkinds⟩ := hinside token htoken
      have hposition := hsecond.visible binding List.mem_cons_self
      have hgrown : ((middle.insert kind state.currentScope word).defineAll middle.nextId first).Grows
          token.start.position final :=
        (ScopeTree.grows_head (hposition ▸ hlt) hkinds).trans (hfinal.mono hlt.le)
      refine ⟨_, ?_, hgrown⟩
      rw [← hopens.nextId, hopens.first]
      exact hmiddle.head kind word hfirst.binds hfirst.new hfirst.ordered hvisible hle
  · rw [hscopes, ← hopens.nextId]
    exact ScopeTree.parent?_openScope _ _ _ _ _ _ _

theorem start_lt_of_mem {tag : Tag} {marked : List (Token × Role)} {role : Role} {token : Token}
    (hprinted : Printed tag marked limit) (hmem : token ∈ select role marked) :
    tag.start < token.start.position ∧ tag.start < token.stop.position := by
  obtain ⟨hstart, hproper, _⟩ := hprinted.within token (mem_of_mem_select hmem)
  exact ⟨hstart, hstart.trans hproper⟩

theorem Ends.nil (low limit : Position) : Ends low limit [] :=
  ⟨by simp, by simp, .nil, by simp⟩

theorem Together.nil (position : Position) : Together position [] :=
  ⟨by simp, .nil, by simp⟩

/-- The references that a head records where nothing is read inside. -/
theorem references_outside {marked : List (Token × Role)} (hinside : select .readInside marked = [])
    (outer inner : ScopeId) : references outer (select .read marked) =
      references outer (select .read marked) ++ references inner (select .readInside marked) := by
  rw [hinside]
  exact (List.append_nil _).symm

theorem represents_surround (opening : Opening) (hstands : Stands place.position state environment)
    (hnone : opening.namesAround ((Fragment.opening opening).tokens place) = []) :
    state.scopes.Represents place.position state.currentScope (opening.surround environment place) := by
  rw [Opening.surround, hnone, Environment.declare_nil]
  exact hstands.represents

/-- The variables of a block are visible in its body, and their values are read outside. -/
theorem enters_with (assignments : List Assignment) (hstands : Stands place.position state environment) :
    Enters (.withBlock assignments) place state environment := by
  obtain ⟨limit, hprinted⟩ := printed_tagAt .statement place (Opening.withBlock assignments).parts
  obtain ⟨word, found, mentions, hstatement, hclause⟩ :=
    ofBody_with (spells_locate (place.past (opening .statement)) (Opening.withBlock assignments).parts)
  have hperform : (Fragment.opening (.withBlock assignments)).perform place state = _ :=
    perform_statement hstands hstatement
  simp only [apply, State.defineAll_eq] at hperform
  let after := ((Fragment.opening (.withBlock assignments)).after place).position
  have hopens : Opens (.withBlock assignments) place state state.scopes []
      (found.map (bind .withVariable after)) := by
    refine ⟨⟨.withBlock, word.stop.position, by rw [hperform]; rfl⟩, by rw [hperform]; rfl,
      by rw [hperform]; rfl, ?_, rfl, rfl, ?_⟩
    · rw [hperform]
      refine (references_record state state.currentScope hclause.references).trans (congrArg _ ?_)
      exact references_outside hclause.inside _ _
    · rw [map_ofBinding_bind .withVariable fun _ => after, ← hclause.declared]
      rfl
  have htogether : Together after (found.map (bind .withVariable after)) := by
    refine .of_kind .withVariable rfl fun binding hmem => ?_
    obtain ⟨name, _, rfl⟩ := List.mem_map.mp hmem
    exact ⟨rfl, rfl⟩
  have hsurround := represents_surround (.withBlock assignments) hstands rfl
  refine hopens.enters hprinted hstands.raw (.refl _ _) hsurround (le_refl _) hprinted.start_lt.le (.nil _ _)
    htogether (fun token hmem => (start_lt_of_mem hprinted hmem).1.le) fun token hmem => ?_
  have hnone : select .readInside ((Fragment.opening (.withBlock assignments)).tokens place) = [] :=
    hclause.inside
  rw [hnone] at hmem
  cases hmem

/-- The parameters of a call are visible in its body, and everything in its head is read outside. -/
theorem enters_call (list : List Parameter) (callee : Expr) (hstands : Stands place.position state environment) :
    Enters (.call list callee) place state environment := by
  obtain ⟨limit, hprinted⟩ := printed_tagAt .statement place (Opening.call list callee).parts
  obtain ⟨word, found, mentions, hstatement, hclause⟩ :=
    ofBody_call (spells_locate (place.past (opening .statement)) (Opening.call list callee).parts)
  have hperform : (Fragment.opening (.call list callee)).perform place state = _ :=
    perform_statement hstands hstatement
  simp only [apply, State.defineAll_eq] at hperform
  have hopens : Opens (.call list callee) place state state.scopes (parameterBindings found) [] := by
    refine ⟨⟨.call, word.stop.position, by rw [hperform]; rfl⟩, by rw [hperform]; rfl,
      by rw [hperform]; rfl, ?_, rfl, ?_, rfl⟩
    · rw [hperform]
      refine (references_record state state.currentScope hclause.references).trans (congrArg _ ?_)
      exact references_outside hclause.inside _ _
    · rw [parameterBindings, map_ofBinding_bind .macroParameter fun name => name.stop.position,
        ← hclause.declared]
      rfl
  have hends : Ends place.position limit (parameterBindings found) := by
    rw [← hclause.declared]
    exact hprinted.ends (select_sublist _ _) (fun name hmem => (start_lt_of_mem hprinted hmem).2)
      (parameterBindings_visibleFrom _) (parameterBindings_binds _)
  have hsurround := represents_surround (.call list callee) hstands rfl
  refine hopens.enters hprinted hstands.raw (.refl _ _) hsurround (le_refl _) hprinted.start_lt.le hends
    (.nil _) (fun token hmem => (start_lt_of_mem hprinted hmem).1.le) fun token hmem => ?_
  have hnone : select .readInside ((Fragment.opening (.call list callee)).tokens place) = [] :=
    hclause.inside
  rw [hnone] at hmem
  cases hmem

/-- The targets of a loop are visible in its condition and in its body, and the sequence is read outside. -/
theorem enters_loop (loop : Loop) (hstands : Stands place.position state environment) :
    Enters (.loop loop) place state environment := by
  obtain ⟨limit, hprinted⟩ := printed_tagAt .statement place (Opening.loop loop).parts
  obtain ⟨word, header, ending, found, sequence, filter, hmarked, hstatement, hclause, hinner⟩ :=
    ofBody_loop (spells_locate (place.past (opening .statement)) (Opening.loop loop).parts)
  have htokens : (Fragment.opening (.loop loop)).tokens place = (word, .title) :: (header ++ ending) := hmarked
  have hperform : (Fragment.opening (.loop loop)).perform place state = _ :=
    perform_statement hstands hstatement
  simp only [apply, State.defineAll_eq] at hperform
  let after := ((Fragment.opening (.loop loop)).after place).position
  have hdeclared : select .declared ((Fragment.opening (.loop loop)).tokens place) = found := by
    rw [htokens, select_cons_of_ne _ _ (by decide), select_append, hclause.declared, hinner.declared,
      List.append_nil]
  have hread : select .read ((Fragment.opening (.loop loop)).tokens place) = select .read header := by
    rw [htokens, select_cons_of_ne _ _ (by decide), select_append, hinner.read, List.append_nil]
  have hinside : select .readInside ((Fragment.opening (.loop loop)).tokens place) =
      select .readInside ending := by
    rw [htokens, select_cons_of_ne _ _ (by decide), select_append, hclause.inside, List.nil_append]
  have htitle : select .title ((Fragment.opening (.loop loop)).tokens place) = [word] := by
    rw [htokens, select_cons_self, select_append, hclause.title, hinner.title]
    rfl
  have hopens : Opens (.loop loop) place state state.scopes (loopTargets found)
      [{ bind .forLoopCount after word with name := "loop" }] := by
    refine ⟨⟨.loop, word.stop.position, by rw [hperform]; rfl⟩, by rw [hperform]; rfl,
      by rw [hperform]; rfl, ?_, rfl, ?_, ?_⟩
    · rw [hperform, hread, hinside]
      have hboth := references_record (state.record state.currentScope sequence) state.scopes.nextId
        hinner.references
      rw [references_record state state.currentScope hclause.references, List.append_assoc] at hboth
      exact hboth
    · rw [namesInHead_loop, hdeclared]
    · rw [Opening.namesInBody, htitle]
      rfl
  -- A target is visible from its end on, in the condition and in the body.
  have hends : Ends place.position limit (loopTargets found) := by
    rw [← hdeclared]
    refine hprinted.ends (select_sublist _ _) (fun name hmem => (start_lt_of_mem hprinted hmem).2)
      (loopTargets_visibleFrom _) fun binding hmem => ?_
    rcases loopTargets_kind _ binding hmem with hkind | hkind <;> rw [hkind] <;> rfl
  have htogether : Together after [{ bind .forLoopCount after word with name := "loop" }] := by
    refine .of_kind .forLoopCount rfl fun binding hmem => ?_
    rw [List.mem_singleton.mp hmem]
    exact ⟨rfl, rfl⟩
  have hsurround := represents_surround (.loop loop) hstands rfl
  refine hopens.enters hprinted hstands.raw (.refl _ _) hsurround (le_refl _) hprinted.start_lt.le hends
    htogether (fun token hmem => (start_lt_of_mem hprinted hmem).1.le) fun token hmem => ⟨fun binding hbinding => ?_,
      (start_lt_of_mem hprinted hmem).1.le, _, rfl, fun other hother => ?_⟩
  -- The condition stands behind the targets, so what it reads is read where they are visible.
  · have hposition := List.mem_map_of_mem (f := Binding.visibleFrom) hbinding
    rw [loopTargets_visibleFrom] at hposition
    obtain ⟨name, hname, hsame⟩ := List.mem_map.mp hposition
    rw [← hclause.declared] at hname
    rw [hinside] at hmem
    have hordered : (((Fragment.opening (.loop loop)).tokens place).map (·.1)).Pairwise _ := hprinted.ordered
    rw [htokens, List.map_cons, List.map_append, List.pairwise_cons, List.pairwise_append] at hordered
    rw [← hsame]
    exact hordered.2.2.2 name (mem_of_mem_select hname) token (mem_of_mem_select hmem)
  · rcases loopTargets_kind _ other hother with hkind | hkind <;> rw [hkind] <;> rintro ⟨⟩

/-- The name in the head of a block stands before everything else that is declared or read there. -/
theorem title_first {word title : Token} {later : List (Token × Role)}
    (hmarked : (Fragment.opening opening).tokens place = (word, .plain) :: (title, .title) :: later)
    (hprinted : Printed (Fragment.tagAt .statement place opening.parts) ((Fragment.opening opening).tokens place)
      limit) :
    place.position < title.start.position ∧ title.start.position ≤ limit ∧
      ∀ token ∈ later.map (·.1), title.start.position < token.start.position ∧
        title.start.position < token.stop.position := by
  have hmem : title ∈ ((Fragment.opening opening).tokens place).map (·.1) := by
    rw [hmarked]
    exact List.mem_cons_of_mem _ List.mem_cons_self
  obtain ⟨hstart, hproper, hlimit⟩ := hprinted.within title hmem
  refine ⟨hstart, hproper.le.trans hlimit, fun token htoken => ?_⟩
  have hordered := hprinted.ordered
  rw [hmarked, List.map_cons, List.map_cons, List.pairwise_cons, List.pairwise_cons] at hordered
  have hbefore := hproper.trans_le (hordered.2.1 token htoken)
  have htokenMem : token ∈ ((Fragment.opening opening).tokens place).map (·.1) := by
    rw [hmarked]
    exact List.mem_cons_of_mem _ (List.mem_cons_of_mem _ htoken)
  exact ⟨hbefore, hbefore.trans (hprinted.within token htokenMem).2.1⟩

/-- The name of a macro is visible around it from the name on, its parameters are visible in its body. -/
theorem enters_macro (name : Ident) (list : List Parameter) (hstands : Stands place.position state environment) :
    Enters (.macroBody name list) place state environment := by
  obtain ⟨limit, hprinted⟩ := printed_tagAt .statement place (Opening.macroBody name list).parts
  obtain ⟨word, title, later, found, mentions, hmarked, hstatement, hclause⟩ :=
    ofBody_macro (spells_locate (place.past (opening .statement)) (Opening.macroBody name list).parts)
  have htokens : (Fragment.opening (.macroBody name list)).tokens place =
      (word, .plain) :: (title, .title) :: later := hmarked
  have hperform : (Fragment.opening (.macroBody name list)).perform place state = _ :=
    perform_statement hstands hstatement
  simp only [apply, State.defineAll_eq] at hperform
  obtain ⟨hstart, hlimit, hlater⟩ := title_first htokens hprinted
  have hid := hstands.represents.lt_nextId
  let after := ((Fragment.opening (.macroBody name list)).after place).position
  let binding := bind .macroName title.start.position title
  let middle := state.scopes.defineAll state.currentScope [binding]
  have htitle : select .title ((Fragment.opening (.macroBody name list)).tokens place) = [title] := by
    rw [htokens, select_cons_of_ne _ _ (by decide), select_cons_self, hclause.title]
  have hread : select .read ((Fragment.opening (.macroBody name list)).tokens place) = select .read later := by
    rw [htokens, select_cons_of_ne _ _ (by decide), select_cons_of_ne _ _ (by decide)]
  have hinside : select .readInside ((Fragment.opening (.macroBody name list)).tokens place) = [] := by
    rw [htokens, select_cons_of_ne _ _ (by decide), select_cons_of_ne _ _ (by decide), hclause.inside]
  have hdeclared : select .declared ((Fragment.opening (.macroBody name list)).tokens place) = found := by
    rw [htokens, select_cons_of_ne _ _ (by decide), select_cons_of_ne _ _ (by decide), hclause.declared]
  have hopens : Opens (.macroBody name list) place state middle (parameterBindings found)
      (implicitBindings title.range after) := by
    refine ⟨⟨.macroBody, word.stop.position, ?_⟩, by rw [hperform]; rfl, by rw [hperform]; rfl, ?_,
      ScopeTree.nextId_defineAll _ _ _, ?_, ?_⟩
    · rw [ScopeTree.openScope, ← ScopeTree.insert_defineAll _ _ _ _ _ _ hid, ScopeTree.nextId_defineAll, hperform]
      rfl
    · rw [hperform, hread, hinside]
      refine (references_record state state.currentScope hclause.references).trans (congrArg _ ?_)
      exact (List.append_nil _).symm
    · rw [parameterBindings, map_ofBinding_bind .macroParameter fun name => name.stop.position, ← hdeclared]
      rfl
    · rw [Opening.namesInBody, htitle]
      rfl
  have hends : Ends title.start.position limit (parameterBindings found) := by
    refine hprinted.ends ?_ (fun name hname => ?_) (parameterBindings_visibleFrom _) (parameterBindings_binds _)
    · exact hdeclared ▸ select_sublist _ _
    · exact (hlater name (mem_of_mem_select (hclause.declared ▸ hname))).2
  have htogether : Together after (implicitBindings title.range after) := by
    refine .of_kind .macroParameter rfl fun binding hmem => ?_
    obtain ⟨implied, _, rfl⟩ := List.mem_map.mp hmem
    exact ⟨rfl, rfl⟩
  -- The name of the macro is declared before the scope of its body is opened.
  have hmiddle : middle.Represents title.start.position state.currentScope
      ((Opening.macroBody name list).surround environment place) := by
    rw [Opening.surround, Opening.namesAround, htitle]
    exact hstands.represents.declare (List.forall_mem_singleton.mpr rfl) (List.forall_mem_singleton.mpr hstart)
      (List.pairwise_singleton _ _) (List.forall_mem_singleton.mpr (le_refl _)) hstart.le
  have hgrows : state.scopes.Grows place.position middle :=
    (ScopeTree.Grows.refl _ _).defineAll hid (List.forall_mem_singleton.mpr ⟨rfl, hstart⟩)
  refine hopens.enters hprinted hstands.raw hgrows hmiddle hstart.le hlimit hends htogether
    (fun token hmem => ?_) fun token hmem => ?_
  · rw [hread] at hmem
    exact (hlater token (mem_of_mem_select hmem)).1.le
  · rw [hinside] at hmem
    cases hmem

/-- The name of a block is no variable. -/
theorem enters_block (name : Ident) (modifiers : List Ident) (hstands : Stands place.position state environment) :
    Enters (.block name modifiers) place state environment := by
  obtain ⟨limit, hprinted⟩ := printed_tagAt .statement place (Opening.block name modifiers).parts
  obtain ⟨word, title, later, hmarked, hstatement, hclause⟩ :=
    ofBody_block (spells_locate (place.past (opening .statement)) (Opening.block name modifiers).parts)
  have htokens : (Fragment.opening (.block name modifiers)).tokens place =
      (word, .plain) :: (title, .title) :: later := hmarked
  have hperform : (Fragment.opening (.block name modifiers)).perform place state = _ :=
    perform_statement hstands hstatement
  simp only [apply, State.defineAll_eq] at hperform
  obtain ⟨hstart, hlimit, _⟩ := title_first htokens hprinted
  have hid := hstands.represents.lt_nextId
  let middle := state.scopes.defineAll state.currentScope [bind .templateBlock title.start.position title]
  have hnone : select .read later = [] := List.map_eq_nil_iff.mp hclause.references.symm
  have hread : select .read ((Fragment.opening (.block name modifiers)).tokens place) = [] := by
    rw [htokens, select_cons_of_ne _ _ (by decide), select_cons_of_ne _ _ (by decide), hnone]
  have hinside : select .readInside ((Fragment.opening (.block name modifiers)).tokens place) = [] := by
    rw [htokens, select_cons_of_ne _ _ (by decide), select_cons_of_ne _ _ (by decide), hclause.inside]
  have hopens : Opens (.block name modifiers) place state middle [] [] := by
    refine ⟨⟨.block, word.stop.position, ?_⟩, by rw [hperform]; rfl, by rw [hperform]; rfl, ?_,
      ScopeTree.nextId_defineAll _ _ _, rfl, rfl⟩
    · rw [ScopeTree.openScope, ← ScopeTree.insert_defineAll _ _ _ _ _ _ hid, ScopeTree.nextId_defineAll, hperform]
      rfl
    · rw [hperform, hread, hinside]
      exact (List.append_nil _).symm
  have hmiddle : middle.Represents title.start.position state.currentScope
      ((Opening.block name modifiers).surround environment place) := by
    have hsame : (Opening.block name modifiers).surround environment place = environment :=
      Environment.declare_nil environment
    rw [hsame]
    exact hstands.represents.define rfl (le_refl _) hstart.le
  have hgrows : state.scopes.Grows place.position middle :=
    (ScopeTree.Grows.refl _ _).defineAll hid (List.forall_mem_singleton.mpr ⟨rfl, hstart⟩)
  refine hopens.enters hprinted hstands.raw hgrows hmiddle hstart.le hlimit (.nil _ _) (.nil _)
    (fun token hmem => ?_) fun token hmem => ?_
  · rw [hread] at hmem
    cases hmem
  · rw [hinside] at hmem
    cases hmem

theorem Opening.enters (opening : Opening) (hstands : Stands place.position state environment) :
    Enters opening place state environment := by
  cases opening with
  | loop head => exact enters_loop head hstands
  | withBlock assignments => exact enters_with assignments hstands
  | macroBody name parameters => exact enters_macro name parameters hstands
  | call parameters callee => exact enters_call parameters callee hstands
  | block name modifiers => exact enters_block name modifiers hstands

end Openings

end TemplateAnalysis.Syntax
