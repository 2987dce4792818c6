import TemplateAnalysis.Proofs.Scope.Declared
import TemplateAnalysis.Proofs.Template.Effects
import TemplateAnalysis.Proofs.Template.Uses

namespace TemplateAnalysis.Template

/-- A record of the text without its kind. -/
def nameOf (identifier : Identifier) : Name :=
  { text := identifier.name, range := identifier.range }

namespace Outline

/-- Everything that an outline mentions, without the scopes. -/
def mentions (outline : Outline) : Mentions where
  references := outline.references.map (·.toName)
  filters := outline.filters
  templates := outline.templates.map nameOf
  links := outline.links.map nameOf

namespace State

variable (state : State) (scope : ScopeId)

/-- Everything that the tags read so far mention, without the scopes. -/
def mentions (state : State) : Mentions where
  references := state.references.map (·.toName)
  filters := state.filters
  templates := state.templates.map nameOf
  links := state.links.map nameOf

@[simp] theorem mentions_record (mentions : Mentions) :
    (state.record scope mentions).mentions = state.mentions ++ mentions := by
  have hnames : ∀ (kind : IdentifierKind) (names : List Name), (names.map fun name =>
      nameOf { range := name.range, name := name.text, kind }) = names := by
    intro kind names
    exact List.map_id names
  simp only [State.mentions, record, List.map_append, List.map_map, Function.comp_def, hnames]
  simp only [HAppend.hAppend, Append.append]
  simp

@[simp] theorem mentions_define (binding : Binding) :
    (state.define scope binding).mentions = state.mentions := rfl

@[simp] theorem mentions_defineAll (bindings : List Binding) :
    (state.defineAll scope bindings).mentions = state.mentions := by
  induction bindings generalizing state with
  | nil => rfl
  | cons binding rest ih => exact ih (state.define scope binding)

@[simp] theorem mentions_addScope (kind : ScopeKind) (word : Token) :
    (state.addScope kind word).mentions = state.mentions := rfl

@[simp] theorem mentions_startBody (start : Position) :
    (state.startBody scope start).mentions = state.mentions := rfl

@[simp] theorem mentions_push (block : OpenBlock) : (state.push block).mentions = state.mentions := rfl

@[simp] theorem mentions_settle (after : Position) (pending : List (ScopeId × Binding)) :
    (settle after state pending).mentions = state.mentions := by
  induction pending generalizing state with
  | nil => rfl
  | cons pair rest ih => exact ih _

@[simp] theorem mentions_close (block : OpenBlock) (stop after : Position) :
    (state.close block stop after).mentions = state.mentions := by
  rw [close]
  split <;> exact mentions_settle _ after block.pending

theorem mentions_closeAll (blocks : List OpenBlock) (stop after : Position) :
    (blocks.foldl (·.close · stop after) state).mentions = state.mentions := by
  induction blocks generalizing state with
  | nil => rfl
  | cons block rest ih => exact (ih _).trans (mentions_close state block stop after)

theorem mentions_closeAtEnd (blocks : List OpenBlock) (stop : Position) :
    (blocks.foldl (closeAtEnd stop) state).mentions = state.mentions := by
  induction blocks generalizing state with
  | nil => rfl
  | cons block rest ih =>
    refine (ih _).trans ?_
    simp only [closeAtEnd]
    split
    · exact mentions_close state block stop stop
    · exact mentions_close state block stop stop

/-- The declarations for which blocks of text are waiting. -/
def pending (state : State) : List Binding :=
  state.blocks.flatMap fun block => block.pending.map (·.2)

/-- The ranges of all declarations that stand in the text, those that are waiting among them. -/
def ranges (state : State) : Multiset Range :=
  state.scopes.ranges + declaredRanges state.pending

theorem ranges_le {state later : State} {added : Multiset Range}
    (hscopes : later.scopes.ranges ≤ added + state.scopes.ranges)
    (hpending : later.pending = state.pending) : later.ranges ≤ added + state.ranges := by
  rw [ranges, ranges, hpending, ← add_assoc]
  exact add_le_add hscopes (le_refl _)

theorem ranges_settle_le (after : Position) (pending : List (ScopeId × Binding)) :
    (settle after state pending).scopes.ranges ≤
      declaredRanges (pending.map (·.2)) + state.scopes.ranges := by
  induction pending generalizing state with
  | nil => simp [settle]
  | cons pair rest ih =>
    rw [List.map_cons, declaredRanges_cons, ← declaredRanges_visibleFrom pair.2 after]
    exact le_add_of_steps (state.scopes.ranges_define_le pair.1 _) (ih (state.define pair.1 _))

theorem ranges_close_le (block : OpenBlock) (stop after : Position) :
    (state.close block stop after).scopes.ranges ≤
      declaredRanges (block.pending.map (·.2)) + state.scopes.ranges := by
  rw [close]
  split
  next scope _ =>
    have hsettled := ranges_settle_le { state with scopes := state.scopes.close scope stop } after
      block.pending
    rwa [ScopeTree.ranges_close] at hsettled
  next => exact ranges_settle_le state after block.pending

theorem ranges_closeAll_le (blocks : List OpenBlock) (stop after : Position) :
    (blocks.foldl (·.close · stop after) state).scopes.ranges ≤
      declaredRanges (blocks.flatMap fun block => block.pending.map (·.2)) + state.scopes.ranges := by
  induction blocks generalizing state with
  | nil => simp
  | cons block rest ih =>
    rw [List.flatMap_cons, declaredRanges_append]
    exact le_add_of_steps (state.ranges_close_le block stop after)
      (ih (state.close block stop after))

theorem ranges_closeAtEnd_le (blocks : List OpenBlock) (stop : Position) :
    (blocks.foldl (closeAtEnd stop) state).scopes.ranges ≤
      declaredRanges (blocks.flatMap fun block => block.pending.map (·.2)) + state.scopes.ranges := by
  induction blocks generalizing state with
  | nil => simp
  | cons block rest ih =>
    have hclosed : (closeAtEnd stop state block).scopes.ranges ≤
        declaredRanges (block.pending.map (·.2)) + state.scopes.ranges := by
      simp only [closeAtEnd]
      split
      · rw [ScopeTree.ranges_closeAtEnd]
        exact state.ranges_close_le block stop stop
      · exact state.ranges_close_le block stop stop
    rw [List.flatMap_cons, declaredRanges_append]
    exact le_add_of_steps hclosed (ih (closeAtEnd stop state block))

end State

variable {state : State} {tag : Tag}

/-- A tag adds what it mentions to what the tags before it mention. -/
theorem mentions_apply (state : State) (tag : Tag) (statement : Statement) :
    (apply state tag statement).mentions = state.mentions ++ statement.mentions := by
  cases statement with
  | otherwise =>
    simp only [apply, endLoopBody, Statement.mentions, Mentions.append_empty]
    split <;> rfl
  | endBlock kind =>
    rw [apply, Statement.mentions, Mentions.append_empty]
    rcases endBlock_cases tag kind state with hsame | ⟨closed, outer, _, hclosed⟩
    · rw [hsame]
    · rw [hclosed, State.mentions_closeAll]
      rfl
  | beginRaw => exact (Mentions.append_empty _).symm
  | _ => simp [apply, Statement.mentions, Mentions.append_assoc]

theorem declaredRanges_bind (kind : IdentifierKind) (visibleFrom : Token → Position)
    (names : List Token) : declaredRanges (names.map fun name => bind kind (visibleFrom name) name) =
      ↑(names.map Token.range) := by
  simp [declaredRanges, bind, List.filter_map, Function.comp_def]

theorem declaredRanges_loopTargets (targets : List Token) :
    declaredRanges (loopTargets targets) = ↑(targets.map Token.range) := by
  cases targets with
  | nil => rfl
  | cons key values =>
    rw [loopTargets, declaredRanges_cons, declaredRanges_bind]
    rfl

theorem declaredRanges_implicitBindings (anchor : Range) (visibleFrom : Position) :
    declaredRanges (implicitBindings anchor visibleFrom) = 0 := rfl

/-- A block that has a scope of its own waits for nothing. -/
theorem pending_apply_of_word? {statement : Statement} (hword : statement.word?.isSome = true) :
    (apply state tag statement).pending = state.pending := by
  cases statement with
  | beginFor | beginWith | beginMacro | beginCall | beginBlock =>
    simp [apply, State.pending, State.push, State.define, State.startBody, State.record,
      State.addScope]
  | _ => cases hword

theorem ranges_endLoopBody (tag : Tag) (state : State) :
    (endLoopBody tag state).ranges = state.ranges := by
  rw [endLoopBody]
  split
  next scope pending outer hblocks => simp [State.ranges, State.pending, hblocks]
  next => rfl

/-- The end of a block turns what its blocks were waiting for into declarations. -/
theorem ranges_endBlock_le (tag : Tag) (kind : BlockKind) (state : State) :
    (endBlock tag kind state).ranges ≤ state.ranges := by
  rcases endBlock_cases tag kind state with hsame | ⟨closed, outer, hblocks, hclosed⟩
  · rw [hsame]
  · have hpending : state.ranges = (declaredRanges (closed.flatMap fun block =>
        block.pending.map (·.2)) + state.scopes.ranges) +
          declaredRanges (outer.flatMap fun block => block.pending.map (·.2)) := by
      rw [State.ranges, State.pending, hblocks, List.flatMap_append, declaredRanges_append,
        ← add_assoc, add_comm state.scopes.ranges]
    rw [hclosed, hpending, State.ranges, State.pending, State.blocks_closeAll]
    exact add_le_add (State.ranges_closeAll_le { state with blocks := outer } closed _ _) (le_refl _)

theorem ranges_defineAll_bind_le (tree : ScopeTree) (id : ScopeId) (kind : IdentifierKind)
    (visibleFrom : Token → Position) (names : List Token) :
    (tree.defineAll id (names.map fun name => bind kind (visibleFrom name) name)).ranges ≤
      ↑(names.map Token.range) + tree.ranges :=
  declaredRanges_bind kind visibleFrom names ▸ tree.ranges_defineAll_le id _

/-- A tag that declares names in the scope in which it stands. -/
theorem ranges_declare_le (state : State) (tag : Tag) (kind : IdentifierKind) (mentions : Mentions)
    (names : List Token) :
    ((state.record state.currentScope mentions).defineAll state.currentScope
      (names.map (bind kind tag.after))).ranges ≤ ↑(names.map Token.range) + state.ranges := by
  refine State.ranges_le ?_ (by simp [State.pending, State.record])
  rw [State.scopes_defineAll, State.scopes_record]
  exact ranges_defineAll_bind_le state.scopes _ kind (fun _ => tag.after) names

/-- A tag declares a name once at most for each token from which it takes one. -/
theorem ranges_apply_le (state : State) (tag : Tag) (statement : Statement) :
    (apply state tag statement).ranges ≤ ↑(statement.declaring.map Token.range) + state.ranges := by
  have hnothing : state.ranges ≤ ↑(([] : List Token).map Token.range) + state.ranges := by simp
  cases statement with
  | other | endRaw | evaluate | beginRaw | beginIf | beginFilter => exact hnothing
  | otherwise => exact (ranges_endLoopBody tag state).symm ▸ hnothing
  | endBlock kind => exact (ranges_endBlock_le tag kind state).trans hnothing
  | assign names value => exact ranges_declare_le state tag _ value names
  | importTemplate mentions name => exact ranges_declare_le state tag _ mentions name.toList
  | importNames mentions names => exact ranges_declare_le state tag _ mentions names
  | beginSet names mentions =>
    have hwaiting : (apply state tag (.beginSet names mentions)).ranges =
        state.scopes.ranges + (↑(names.map Token.range) + declaredRanges state.pending) := by
      rw [← declaredRanges_bind .setVariable fun _ => {}, ← declaredRanges_append]
      simp [apply, State.ranges, State.pending, State.push, State.record, Function.comp_def]
    rw [hwaiting, State.ranges, add_left_comm]
    exact le_refl _
  | beginFor word targets sequence filter =>
    have htargets := (state.scopes.insert .loop state.currentScope word.stop.position).ranges_defineAll_le
      state.scopes.nextId (loopTargets targets)
    rw [declaredRanges_loopTargets, ScopeTree.ranges_insert] at htargets
    refine State.ranges_le ?_ (pending_apply_of_word? rfl)
    -- The word that opens the loop stands for the variable that every loop has.
    have hnames : (↑((Statement.beginFor word targets sequence filter).declaring.map Token.range) :
        Multiset Range) = ↑(targets.map Token.range) + declaredRanges [loopVariable tag word] := by
      rw [add_comm]
      rfl
    simp only [apply, State.scopes_push, State.scopes_define, State.scopes_defineAll,
      State.scopes_startBody, State.scopes_record, State.scopes_addScope]
    rw [hnames]
    refine le_add_of_steps ?_ (ScopeTree.ranges_define_le _ _ _)
    rwa [ScopeTree.ranges_setStart]
  | beginWith word names values =>
    have hnames := ranges_defineAll_bind_le ((state.scopes.insert .withBlock state.currentScope
      word.stop.position).setStart state.scopes.nextId tag.after) state.scopes.nextId .withVariable
        (fun _ => tag.after) names
    rw [ScopeTree.ranges_setStart, ScopeTree.ranges_insert] at hnames
    refine State.ranges_le ?_ (pending_apply_of_word? rfl)
    simp only [apply, State.scopes_push, State.scopes_defineAll, State.scopes_startBody,
      State.scopes_record, State.scopes_addScope]
    exact hnames
  | beginMacro word name parameters defaults =>
    have htitle := ranges_defineAll_bind_le (state.scopes.insert .macroBody state.currentScope
      word.stop.position) state.currentScope .macroName (fun name => name.start.position) name.toList
    rw [ScopeTree.ranges_insert] at htitle
    refine State.ranges_le ?_ (pending_apply_of_word? rfl)
    simp only [apply, State.scopes_push, State.scopes_defineAll, State.scopes_startBody,
      State.scopes_record, State.scopes_addScope, Statement.declaring, Statement.declaredNames,
      List.map_append, ← Multiset.coe_add]
    have hparameters := le_add_of_steps htitle (ranges_defineAll_bind_le _ state.scopes.nextId
      .macroParameter (fun parameter => parameter.stop.position) parameters)
    -- The names that every macro has are implicit, so they count for no range.
    refine (ScopeTree.ranges_defineAll_le _ _ _).trans ?_
    rwa [declaredRanges_implicitBindings, zero_add, ScopeTree.ranges_setStart]
  | beginCall word parameters mentions =>
    have hparameters := ranges_defineAll_bind_le (state.scopes.insert .call state.currentScope
      word.stop.position) state.scopes.nextId .macroParameter
        (fun parameter => parameter.stop.position) parameters
    rw [ScopeTree.ranges_insert] at hparameters
    refine State.ranges_le ?_ (pending_apply_of_word? rfl)
    simp only [apply, State.scopes_push, State.scopes_defineAll, State.scopes_startBody,
      State.scopes_record, State.scopes_addScope, ScopeTree.ranges_setStart]
    exact hparameters
  | beginBlock word name =>
    have htitle := ranges_defineAll_bind_le (state.scopes.insert .block state.currentScope
      word.stop.position) state.currentScope .templateBlock (fun name => name.start.position)
        name.toList
    rw [ScopeTree.ranges_insert] at htitle
    refine State.ranges_le ?_ (pending_apply_of_word? rfl)
    simp only [apply, State.scopes_push, State.scopes_defineAll, State.scopes_startBody,
      State.scopes_addScope, ScopeTree.ranges_setStart]
    exact htitle

/-- What tags record are tokens of their bodies, each of them once at most and in one way. -/
theorem exists_recorded (state : State) (tags : List Tag) : ∃ uses mentions declared,
    (uses.map (·.1)).Sublist (tags.flatMap (·.body)) ∧ Recorded uses mentions declared ∧
      (tags.foldl step state).mentions = state.mentions ++ mentions ∧
      (tags.foldl step state).ranges ≤ ↑(declared.map Token.range) + state.ranges := by
  induction tags generalizing state with
  | nil =>
    refine ⟨[], {}, [], List.Sublist.slnil, ⟨rfl, rfl, rfl, rfl, rfl⟩,
      (Mentions.append_empty _).symm, ?_⟩
    rw [List.map_nil, Multiset.coe_nil, zero_add]
    exact le_refl _
  | cons tag rest ih =>
    have htag : ∃ uses mentions declared, (uses.map (·.1)).Sublist tag.body ∧
        Recorded uses mentions declared ∧ (step state tag).mentions = state.mentions ++ mentions ∧
        (step state tag).ranges ≤ ↑(declared.map Token.range) + state.ranges := by
      simp only [step]
      split
      · refine ⟨[], {}, [], List.nil_sublist _, ⟨rfl, rfl, rfl, rfl, rfl⟩, ?_, ?_⟩
        · rw [Mentions.append_empty]
          split <;> rfl
        · rw [List.map_nil, Multiset.coe_nil, zero_add]
          split <;> exact le_refl _
      · obtain ⟨after, passed, uses, hbody, huses, hrecorded⟩ := Statement.ofTag_consumes tag
        refine ⟨uses, _, _, huses.trans ?_, hrecorded, mentions_apply state tag _,
          ranges_apply_le state tag _⟩
        rw [hbody]
        exact List.sublist_append_left passed after
    obtain ⟨uses, mentions, declared, huses, hrecorded, hmentions, hranges⟩ := htag
    obtain ⟨later, others, names, hlater, hrecordedLater, hothers, hnames⟩ := ih (step state tag)
    refine ⟨uses ++ later, mentions ++ others, declared ++ names, ?_, hrecorded.append hrecordedLater,
      ?_, ?_⟩
    · rw [List.map_append, List.flatMap_cons]
      exact huses.append hlater
    · rw [List.foldl_cons, hothers, hmentions, Mentions.append_assoc]
    · rw [List.map_append, ← Multiset.coe_add]
      exact le_add_of_steps hranges hnames

/-- At the end of the file nothing more is mentioned. -/
theorem mentions_ofTokens (stop : Position) (tokens : List Token) : (ofTokens stop tokens).mentions =
    ((Tag.ofTokens stop tokens).foldl step { scopes := .ofEnd stop }).mentions :=
  State.mentions_closeAtEnd
    { (Tag.ofTokens stop tokens).foldl step { scopes := .ofEnd stop } with blocks := [] } _ stop

/-- At the end of the file no name is declared that was not declared or waited for. -/
theorem ranges_finish_le (stop : Position) (state : State) :
    (finish stop state).scopes.ranges ≤ state.ranges := by
  rw [State.ranges, add_comm]
  exact State.ranges_closeAtEnd_le { state with blocks := [] } state.blocks stop

end Outline

end TemplateAnalysis.Template
