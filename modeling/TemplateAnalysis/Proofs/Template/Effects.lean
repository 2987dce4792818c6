import TemplateAnalysis.Proofs.Scope.Keeping
import TemplateAnalysis.Proofs.Template.Naming
import TemplateAnalysis.Proofs.Template.Nesting
import TemplateAnalysis.Proofs.Template.Placement

namespace TemplateAnalysis.Template

/-- The declarations of a block of text as they take effect behind a position. -/
def OpenBlock.settled (after : Position) (block : OpenBlock) : List (ScopeId × Binding) :=
  block.pending.map fun (scope, binding) => (scope, { binding with visibleFrom := after })

/-- Whether a statement can end the scope of a block. -/
def Statement.closes : Statement → Bool
  | .otherwise | .endBlock _ => true
  | _ => false

/-- The tag of a loop ends right behind a target that has the name of the variable of the loop. -/
def Tag.EndsInLoopName (tag : Tag) : Prop :=
  ∃ word targets sequence filter, Statement.ofTag tag = .beginFor word targets sequence filter ∧
    ∃ target ∈ targets, target.text = "loop" ∧ target.stop.position = tag.after

namespace Outline

open ScopeTree (Gains)

namespace State

variable (state : State) (scope : ScopeId)

@[simp] theorem scopes_record (mentions : Mentions) :
    (state.record scope mentions).scopes = state.scopes := rfl

@[simp] theorem scopes_define (binding : Binding) :
    (state.define scope binding).scopes = state.scopes.define scope binding := rfl

@[simp] theorem scopes_defineAll (bindings : List Binding) :
    (state.defineAll scope bindings).scopes = state.scopes.defineAll scope bindings := by
  induction bindings generalizing state with
  | nil => rfl
  | cons binding rest ih => exact ih (state.define scope binding)

@[simp] theorem scopes_addScope (kind : ScopeKind) (word : Token) :
    (state.addScope kind word).scopes =
      state.scopes.insert kind state.currentScope word.stop.position := rfl

@[simp] theorem scopes_startBody (start : Position) :
    (state.startBody scope start).scopes = state.scopes.setStart scope start := rfl

@[simp] theorem scopes_push (block : OpenBlock) : (state.push block).scopes = state.scopes := rfl

end State

/-- The variable that every loop has. -/
def loopVariable (tag : Tag) (word : Token) : Binding :=
  { bind .forLoopCount tag.after word with name := "loop" }

/-- The declarations that a tag can make, each with the scope in which it is made. -/
def declarations (state : State) (tag : Tag) : Statement → List (ScopeId × Binding)
  | .beginFor word targets _ _ =>
    (loopTargets targets ++ [loopVariable tag word]).map (state.scopes.nextId, ·)
  | .assign names _ => (names.map (bind .setVariable tag.after)).map (state.currentScope, ·)
  | .beginWith _ names _ => (names.map (bind .withVariable tag.after)).map (state.scopes.nextId, ·)
  | .beginMacro _ name parameters _ =>
    (name.toList.map fun name => (state.currentScope, bind .macroName name.start.position name)) ++
      (parameterBindings parameters ++
        implicitBindings ((name.map Token.range).getD (.empty tag.after)) tag.after).map
          (state.scopes.nextId, ·)
  | .beginCall _ parameters _ => (parameterBindings parameters).map (state.scopes.nextId, ·)
  | .beginBlock _ name =>
    name.toList.map fun name => (state.currentScope, bind .templateBlock name.start.position name)
  | .importTemplate _ name =>
    (name.toList.map (bind .setVariable tag.after)).map (state.currentScope, ·)
  | .importNames _ names => (names.map (bind .macroName tag.after)).map (state.currentScope, ·)
  | .endBlock _ => state.blocks.flatMap (·.settled tag.after)
  | _ => []

/-- Every declaration of the later tree stands in the earlier one, or it is one of the given ones. -/
def Adds (tree later : ScopeTree) (declared : List (ScopeId × Binding)) : Prop :=
  ∀ id, ∀ binding ∈ later.bindingsOf id, binding ∈ tree.bindingsOf id ∨ (id, binding) ∈ declared

/-- What a tree gains is all that is new in it. -/
theorem adds_of_gains {tree later : ScopeTree} {declared : List (ScopeId × Binding)}
    (hgains : Gains tree later declared) : Adds tree later declared := by
  intro id binding hmem
  rw [hgains.bindingsOf id (ScopeTree.lt_nextId_of_mem hmem)] at hmem
  exact (Scope.mem_of_mem_addAll hmem).imp_right ScopeTree.mem_declaredIn.mp

variable {state : State} {tree : ScopeTree} {declared : List (ScopeId × Binding)}

theorem gains_settle (after : Position) (pending : List (ScopeId × Binding))
    (hgains : Gains tree state.scopes declared) : Gains tree (State.settle after state pending).scopes
      (declared ++ pending.map fun (scope, binding) => (scope, { binding with visibleFrom := after })) := by
  induction pending generalizing state declared with
  | nil => rwa [List.map_nil, List.append_nil]
  | cons pair rest ih =>
    have hfirst : Gains tree (state.define pair.1 { pair.2 with visibleFrom := after }).scopes _ :=
      hgains.define pair.1 _
    have hrest := ih hfirst
    rwa [List.append_assoc, List.singleton_append] at hrest

theorem gains_close (block : OpenBlock) (stop after : Position)
    (hgains : Gains tree state.scopes declared) :
    Gains tree (state.close block stop after).scopes (declared ++ block.settled after) := by
  rw [State.close]
  split
  next scope _ =>
    have hclosed : Gains tree { state with scopes := state.scopes.close scope stop }.scopes declared :=
      hgains.close scope stop
    exact gains_settle after block.pending hclosed
  · exact gains_settle after block.pending hgains

theorem gains_closeAll (blocks : List OpenBlock) (stop after : Position)
    (hgains : Gains tree state.scopes declared) :
    Gains tree (blocks.foldl (·.close · stop after) state).scopes
      (declared ++ blocks.flatMap (·.settled after)) := by
  induction blocks generalizing state declared with
  | nil => rwa [List.flatMap_nil, List.append_nil]
  | cons block rest ih =>
    have hrest := ih (gains_close block stop after hgains)
    rwa [List.append_assoc] at hrest

theorem gains_closeAtEnd (blocks : List OpenBlock) (stop : Position)
    (hgains : Gains tree state.scopes declared) :
    Gains tree (blocks.foldl (State.closeAtEnd stop) state).scopes
      (declared ++ blocks.flatMap (·.settled stop)) := by
  induction blocks generalizing state declared with
  | nil => rwa [List.flatMap_nil, List.append_nil]
  | cons block rest ih =>
    have hclosed := gains_close block stop stop hgains
    rw [List.flatMap_cons, ← List.append_assoc]
    refine ih ?_
    simp only [State.closeAtEnd]
    split
    · exact hclosed.closeAtEnd _ _
    · exact hclosed

/-- A tag that ends no scope makes exactly these declarations, one after the other. -/
theorem gains_apply (state : State) (tag : Tag) {statement : Statement}
    (hopens : statement.closes = false) :
    Gains state.scopes (apply state tag statement).scopes (declarations state tag statement) := by
  have hrefl := Gains.refl state.scopes
  have hopened := Gains.insert state.scopes
  cases statement with
  | otherwise | endBlock => cases hopens
  | other | endRaw | evaluate | beginIf | beginSet | beginFilter | beginRaw => exact hrefl
  | beginFor word targets sequence filter =>
    have hgains := (((hopened .loop state.currentScope word.stop.position).defineAll
      state.scopes.nextId (loopTargets targets)).setStart state.scopes.nextId tag.after).define
        state.scopes.nextId (loopVariable tag word)
    simpa [apply, declarations, loopVariable] using hgains
  | assign names value =>
    have hgains := hrefl.defineAll state.currentScope (names.map (bind .setVariable tag.after))
    simpa [apply, declarations] using hgains
  | beginWith word names values =>
    have hgains := ((hopened .withBlock state.currentScope word.stop.position).setStart
      state.scopes.nextId tag.after).defineAll state.scopes.nextId
        (names.map (bind .withVariable tag.after))
    simpa [apply, declarations] using hgains
  | beginMacro word name parameters defaults =>
    have hgains := ((((hopened .macroBody state.currentScope word.stop.position).defineAll
      state.currentScope (name.toList.map fun name =>
        bind .macroName name.start.position name)).defineAll state.scopes.nextId
          (parameterBindings parameters)).setStart state.scopes.nextId tag.after).defineAll
            state.scopes.nextId
              (implicitBindings ((name.map Token.range).getD (.empty tag.after)) tag.after)
    simpa [apply, declarations, Function.comp_def] using hgains
  | beginCall word parameters mentions =>
    have hgains := ((hopened .call state.currentScope word.stop.position).defineAll
      state.scopes.nextId (parameterBindings parameters)).setStart state.scopes.nextId tag.after
    simpa [apply, declarations] using hgains
  | beginBlock word name =>
    have hgains := ((hopened .block state.currentScope word.stop.position).defineAll
      state.currentScope (name.toList.map fun name =>
        bind .templateBlock name.start.position name)).setStart state.scopes.nextId tag.after
    simpa [apply, declarations, Function.comp_def] using hgains
  | importTemplate mentions name =>
    have hgains := hrefl.defineAll state.currentScope (name.toList.map (bind .setVariable tag.after))
    simpa [apply, declarations] using hgains
  | importNames mentions names =>
    have hgains := hrefl.defineAll state.currentScope (names.map (bind .macroName tag.after))
    simpa [apply, declarations] using hgains

theorem gains_endLoopBody (tag : Tag) (state : State) :
    Gains state.scopes (endLoopBody tag state).scopes [] := by
  rw [endLoopBody]
  split
  · exact (Gains.refl state.scopes).close _ _
  · exact Gains.refl state.scopes

/-- An end takes off some blocks, and what they were waiting for takes effect. -/
theorem gains_endBlock (tag : Tag) (kind : BlockKind) (state : State) :
    ∃ closed outer, state.blocks = closed ++ outer ∧ (endBlock tag kind state).blocks = outer ∧
      Gains state.scopes (endBlock tag kind state).scopes (closed.flatMap (·.settled tag.after)) := by
  rcases endBlock_cases tag kind state with hsame | ⟨closed, outer, hblocks, hclosed⟩
  · rw [hsame]
    exact ⟨[], state.blocks, rfl, rfl, Gains.refl state.scopes⟩
  · rw [hclosed]
    refine ⟨closed, outer, hblocks, State.blocks_closeAll _ closed _ _, ?_⟩
    have hopen : Gains state.scopes { state with blocks := outer }.scopes [] := Gains.refl state.scopes
    exact gains_closeAll closed tag.start tag.after hopen

/-- A tag makes no other declarations than these. -/
theorem adds_apply (state : State) (tag : Tag) (statement : Statement) :
    Adds state.scopes (apply state tag statement).scopes (declarations state tag statement) := by
  cases hopens : statement.closes with
  | false => exact adds_of_gains (gains_apply state tag hopens)
  | true =>
    cases statement with
    | otherwise => exact adds_of_gains (gains_endLoopBody tag state)
    | endBlock kind =>
      obtain ⟨closed, outer, hblocks, _, hgains⟩ := gains_endBlock tag kind state
      intro id binding hmem
      refine (adds_of_gains hgains id binding hmem).imp_right fun hnew => ?_
      rw [declarations, hblocks, List.flatMap_append]
      exact List.mem_append_left _ hnew
    | _ => cases hopens

theorem adds_closeAtEnd (blocks : List OpenBlock) (stop : Position)
    (hgains : Gains tree state.scopes declared) :
    Adds tree (blocks.foldl (State.closeAtEnd stop) state).scopes
      (declared ++ blocks.flatMap (·.settled stop)) :=
  adds_of_gains (gains_closeAtEnd blocks stop hgains)

section Bounds

variable {tag : Tag} {pair : ScopeId × Binding}

theorem mem_scoped {scope id : ScopeId} {bindings : List Binding} {binding : Binding} :
    (id, binding) ∈ bindings.map (scope, ·) ↔ scope = id ∧ binding ∈ bindings := by
  simp [and_left_comm, eq_comm]

theorem kind_of_mem_binds {kind : IdentifierKind} {visibleFrom : Token → Position}
    {names : List Token} {binding : Binding}
    (hmem : binding ∈ names.map fun name => bind kind (visibleFrom name) name) : binding.kind = kind := by
  obtain ⟨_, _, rfl⟩ := List.mem_map.mp hmem
  rfl

theorem mem_loopTargets {targets : List Token} {binding : Binding}
    (hmem : binding ∈ loopTargets targets) :
    ∃ kind, ∃ target ∈ targets, binding = bind kind target.stop.position target := by
  cases targets with
  | nil => cases hmem
  | cons key values =>
    rcases List.mem_cons.mp hmem with rfl | hmem
    · exact ⟨_, key, List.mem_cons_self, rfl⟩
    · obtain ⟨value, hvalue, rfl⟩ := List.mem_map.mp hmem
      exact ⟨_, value, List.mem_cons_of_mem key hvalue, rfl⟩

/-- What a tag declares takes effect behind its opening mark, and not behind the tag. -/
theorem declarations_bounded (hbounded : tag.Bounded)
    (hmem : pair ∈ declarations state tag (Statement.ofTag tag)) :
    tag.start < pair.2.visibleFrom ∧ pair.2.visibleFrom ≤ tag.after := by
  have hafter : tag.start < tag.after ∧ tag.after ≤ tag.after := ⟨hbounded.start_lt_after, le_refl _⟩
  have hnames : ∀ name ∈ (Statement.ofTag tag).declaredNames,
      tag.start < name.start.position ∧ name.stop.position ≤ tag.after := fun name hname =>
    hbounded.of_mem ((Statement.ofTag_declaredNames tag).subset hname)
  have hstarts : ∀ name ∈ (Statement.ofTag tag).declaredNames,
      tag.start < name.start.position ∧ name.start.position ≤ tag.after := fun name hname =>
    ⟨(hnames name hname).1, name.start_le_stop.trans (hnames name hname).2⟩
  have hstops : ∀ name ∈ (Statement.ofTag tag).declaredNames,
      tag.start < name.stop.position ∧ name.stop.position ≤ tag.after := fun name hname =>
    ⟨(hnames name hname).1.trans_le name.start_le_stop, (hnames name hname).2⟩
  generalize Statement.ofTag tag = statement at hmem hstarts hstops
  cases statement with
  | other | endRaw | evaluate | beginIf | otherwise | beginSet | beginFilter | beginRaw => cases hmem
  | beginFor word targets sequence filter =>
    obtain ⟨binding, hbinding, rfl⟩ := List.mem_map.mp hmem
    rcases List.mem_append.mp hbinding with hbinding | hbinding
    · obtain ⟨_, target, htarget, rfl⟩ := mem_loopTargets hbinding
      exact hstops target htarget
    · rw [List.mem_singleton.mp hbinding]
      exact hafter
  | assign | beginWith | importTemplate | importNames =>
    obtain ⟨binding, hbinding, rfl⟩ := List.mem_map.mp hmem
    obtain ⟨name, _, rfl⟩ := List.mem_map.mp hbinding
    exact hafter
  | beginMacro word name parameters defaults =>
    rcases List.mem_append.mp hmem with hmem | hmem
    · obtain ⟨name, hname, rfl⟩ := List.mem_map.mp hmem
      exact hstarts name (List.mem_append_left _ hname)
    · obtain ⟨binding, hbinding, rfl⟩ := List.mem_map.mp hmem
      rcases List.mem_append.mp hbinding with hbinding | hbinding
      · obtain ⟨parameter, hparameter, rfl⟩ := List.mem_map.mp hbinding
        exact hstops parameter (List.mem_append_right _ hparameter)
      · obtain ⟨_, _, rfl⟩ := List.mem_map.mp hbinding
        exact hafter
  | beginCall word parameters mentions =>
    obtain ⟨binding, hbinding, rfl⟩ := List.mem_map.mp hmem
    obtain ⟨parameter, hparameter, rfl⟩ := List.mem_map.mp hbinding
    exact hstops parameter hparameter
  | beginBlock word name =>
    obtain ⟨name, hname, rfl⟩ := List.mem_map.mp hmem
    exact hstarts name hname
  | endBlock kind =>
    obtain ⟨block, _, hpair⟩ := List.mem_flatMap.mp hmem
    obtain ⟨_, _, rfl⟩ := List.mem_map.mp hpair
    exact hafter

/-- The targets of a loop take effect one after the other. -/
theorem loopTargets_alike {targets : List Token} {first second : Binding}
    (hpairwise : targets.Pairwise fun first second => first.stop.position < second.stop.position)
    (hfirst : first ∈ loopTargets targets) (hsecond : second ∈ loopTargets targets)
    (hsame : first.visibleFrom = second.visibleFrom) : first.kind = second.kind := by
  cases targets with
  | nil => cases hfirst
  | cons key values =>
    have hlater : ∀ binding ∈ values.map fun value => bind .forLoopValue value.stop.position value,
        key.stop.position < binding.visibleFrom ∧ binding.kind = .forLoopValue := by
      intro binding hmem
      obtain ⟨value, hvalue, rfl⟩ := List.mem_map.mp hmem
      exact ⟨(List.pairwise_cons.mp hpairwise).1 value hvalue, rfl⟩
    rcases List.mem_cons.mp hfirst with rfl | hfirst <;>
      rcases List.mem_cons.mp hsecond with rfl | hsecond
    · rfl
    · exact absurd hsame (hlater second hsecond).1.ne
    · exact absurd hsame (hlater first hfirst).1.ne'
    · rw [(hlater first hfirst).2, (hlater second hsecond).2]

/-- In the scope of a loop a target can only take effect together with the variable of the loop. -/
theorem loop_alike {word : Token} {targets : List Token} {first second : Binding}
    (hpairwise : targets.Pairwise fun first second => first.stop.position < second.stop.position)
    (hends : ∀ target ∈ targets, target.text = first.name → first.name = "loop" →
      target.stop.position ≠ tag.after)
    (hfirst : first ∈ loopTargets targets ++ [loopVariable tag word])
    (hsecond : second ∈ loopTargets targets ++ [loopVariable tag word])
    (hname : first.name = second.name) (hsame : first.visibleFrom = second.visibleFrom) :
    first.kind = second.kind := by
  rcases List.mem_append.mp hfirst with hfirst | hfirst <;>
    rcases List.mem_append.mp hsecond with hsecond | hsecond
  · exact loopTargets_alike hpairwise hfirst hsecond hsame
  · obtain ⟨_, target, htarget, rfl⟩ := mem_loopTargets hfirst
    rw [List.mem_singleton.mp hsecond] at hname hsame
    exact absurd hsame (hends target htarget rfl hname)
  · obtain ⟨_, target, htarget, rfl⟩ := mem_loopTargets hsecond
    rw [List.mem_singleton.mp hfirst] at hname hsame hends
    exact absurd hsame.symm (hends target htarget hname.symm rfl)
  · rw [List.mem_singleton.mp hfirst, List.mem_singleton.mp hsecond]

/-- The title of a macro belongs to the scope around it, and the parameters to the one of its body. -/
theorem macro_kinds {word : Token} {title : Option Token} {parameters : List Token}
    {defaults : Mentions} {id : ScopeId} {binding : Binding}
    (hmem : (id, binding) ∈ declarations state tag (.beginMacro word title parameters defaults)) :
    id = state.currentScope ∧ binding.kind = .macroName ∨
      id = state.scopes.nextId ∧ binding.kind = .macroParameter := by
  rcases List.mem_append.mp hmem with hmem | hmem
  · obtain ⟨_, _, hpair⟩ := List.mem_map.mp hmem
    cases hpair
    exact .inl ⟨rfl, rfl⟩
  · obtain ⟨hscope, hmem⟩ := mem_scoped.mp hmem
    refine .inr ⟨hscope.symm, ?_⟩
    rcases List.mem_append.mp hmem with hmem | hmem
    · exact kind_of_mem_binds hmem
    · obtain ⟨_, _, rfl⟩ := List.mem_map.mp hmem
      rfl

/-- Two declarations of a tag for one scope that take effect together are of one kind, except for a
    target with the name of the variable of its loop. -/
theorem declarations_alike {id : ScopeId} {first second : Binding} {name : String}
    (hcurrent : state.currentScope < state.scopes.nextId) (hbounded : tag.Bounded)
    (hpending : ∀ block ∈ state.blocks, ∀ pair ∈ block.pending, pair.2.kind = .setVariable)
    (hloop : name = "loop" → ¬ tag.EndsInLoopName)
    (hfirst : (id, first) ∈ declarations state tag (Statement.ofTag tag))
    (hsecond : (id, second) ∈ declarations state tag (Statement.ofTag tag))
    (hfirstName : first.name = name) (hsecondName : second.name = name)
    (hsame : first.visibleFrom = second.visibleFrom) : first.kind = second.kind := by
  have hordered : (Statement.ofTag tag).declaredNames.Pairwise fun first second =>
      first.stop.position < second.stop.position :=
    (hbounded.pairwise.imp And.right).sublist (Statement.ofTag_declaredNames tag)
  have hends : ∀ word targets sequence filter,
      Statement.ofTag tag = .beginFor word targets sequence filter →
      ∀ target ∈ targets, target.text = first.name → first.name = "loop" →
        target.stop.position ≠ tag.after := by
    intro word targets sequence filter hstatement target htarget htext hfirstLoop hafter
    exact hloop (hfirstName.symm.trans hfirstLoop)
      ⟨word, targets, sequence, filter, hstatement, target, htarget, htext.trans hfirstLoop, hafter⟩
  have huniform : ∀ kind : IdentifierKind, (∀ binding, (id, binding) ∈
      declarations state tag (Statement.ofTag tag) → binding.kind = kind) → first.kind = second.kind :=
    fun kind hkinds => (hkinds first hfirst).trans (hkinds second hsecond).symm
  generalize Statement.ofTag tag = statement at hfirst hsecond hordered hends huniform
  cases statement with
  | other | endRaw | evaluate | beginIf | otherwise | beginSet | beginFilter | beginRaw => cases hfirst
  | beginFor word targets sequence filter =>
    exact loop_alike hordered (hends word targets sequence filter rfl) (mem_scoped.mp hfirst).2
      (mem_scoped.mp hsecond).2 (hfirstName.trans hsecondName.symm) hsame
  | assign | beginWith | beginCall | importTemplate | importNames =>
    exact huniform _ fun binding hmem => kind_of_mem_binds (mem_scoped.mp hmem).2
  | beginBlock word title =>
    refine huniform .templateBlock fun binding hmem => ?_
    obtain ⟨_, _, hpair⟩ := List.mem_map.mp hmem
    cases hpair
    rfl
  | beginMacro word title parameters defaults =>
    rcases macro_kinds hfirst with ⟨hid, hfirst⟩ | ⟨hid, hfirst⟩ <;>
      rcases macro_kinds hsecond with ⟨hother, hsecond⟩ | ⟨hother, hsecond⟩
    · rw [hfirst, hsecond]
    · exact absurd (hid.symm.trans hother) hcurrent.ne
    · exact absurd (hother.symm.trans hid) hcurrent.ne
    · rw [hfirst, hsecond]
  | endBlock kind =>
    refine huniform .setVariable fun binding hmem => ?_
    obtain ⟨block, hblock, hpair⟩ := List.mem_flatMap.mp hmem
    obtain ⟨pair, hmember, hsettled⟩ := List.mem_map.mp hpair
    cases hsettled
    exact hpending block hblock pair hmember

end Bounds

/-- What holds of the declarations while a template is read up to `now`: all of them have taken effect,
    and a block of text can only be waiting to declare variables. -/
structure Declared (stop now : Position) (state : State) : Prop where
  nested : state.Nested stop now
  earlier : ∀ id, ∀ binding ∈ state.scopes.bindingsOf id, binding.visibleFrom ≤ now
  pending : ∀ block ∈ state.blocks, ∀ pair ∈ block.pending, pair.2.kind = .setVariable

/-- Declarations of a name in one scope that take effect together are of one kind. -/
def Alike (name : String) (tree : ScopeTree) : Prop :=
  ∀ id, ∀ first ∈ tree.bindingsOf id, ∀ second ∈ tree.bindingsOf id, first.name = name →
    second.name = name → first.visibleFrom = second.visibleFrom → first.kind = second.kind

/-- Later declarations do not come between earlier ones. -/
theorem Alike.add {name : String} {later : ScopeTree} {now : Position} (halike : Alike name tree)
    (hadds : Adds tree later declared)
    (hearlier : ∀ id, ∀ binding ∈ tree.bindingsOf id, binding.visibleFrom ≤ now)
    (hlater : ∀ pair ∈ declared, now < pair.2.visibleFrom)
    (hdeclared : ∀ id first second, (id, first) ∈ declared → (id, second) ∈ declared →
      first.name = name → second.name = name → first.visibleFrom = second.visibleFrom →
      first.kind = second.kind) : Alike name later := by
  intro id first hfirst second hsecond hfirstName hsecondName hsame
  rcases hadds id first hfirst with hfirst | hfirst <;>
    rcases hadds id second hsecond with hsecond | hsecond
  · exact halike id first hfirst second hsecond hfirstName hsecondName hsame
  · exact absurd hsame ((hearlier id first hfirst).trans_lt (hlater _ hsecond)).ne
  · exact absurd hsame ((hearlier id second hsecond).trans_lt (hlater _ hfirst)).ne'
  · exact hdeclared id first second hfirst hsecond hfirstName hsecondName hsame

section Step

variable {stop now : Position} {tag : Tag} {name : String}

theorem mem_blocks_endLoopBody {block : OpenBlock} (hmem : block ∈ (endLoopBody tag state).blocks) :
    ∃ old ∈ state.blocks, block.pending = old.pending := by
  unfold endLoopBody at hmem
  split at hmem
  next scope pending outer hblocks =>
    rw [hblocks]
    rcases List.mem_cons.mp hmem with rfl | hmem
    · exact ⟨_, List.mem_cons_self, rfl⟩
    · exact ⟨block, List.mem_cons_of_mem _ hmem, rfl⟩
  next => exact ⟨block, hmem, rfl⟩

theorem mem_blocks_endBlock {kind : BlockKind} {block : OpenBlock}
    (hmem : block ∈ (endBlock tag kind state).blocks) : block ∈ state.blocks := by
  rcases endBlock_cases tag kind state with hsame | ⟨closed, outer, hblocks, hclosed⟩
  · exact hsame ▸ hmem
  · rw [hclosed, State.blocks_closeAll] at hmem
    rw [hblocks]
    exact List.mem_append_right closed hmem

@[simp] theorem State.blocks_defineAll (state : State) (scope : ScopeId) (bindings : List Binding) :
    (state.defineAll scope bindings).blocks = state.blocks := by
  induction bindings generalizing state with
  | nil => rfl
  | cons binding rest ih => exact ih (state.define scope binding)

/-- A tag opens one block at most. Only the one for an assignment is waiting for its declarations. -/
theorem mem_pending_apply {statement : Statement} {block : OpenBlock} {pair : ScopeId × Binding}
    (hblock : block ∈ (apply state tag statement).blocks) (hpair : pair ∈ block.pending) :
    (∃ old ∈ state.blocks, pair ∈ old.pending) ∨ ∃ names mentions,
      statement = .beginSet names mentions ∧
        ∃ name ∈ names, pair = (state.currentScope, bind .setVariable {} name) := by
  cases statement with
  | other | endRaw | evaluate | beginRaw => exact .inl ⟨block, hblock, hpair⟩
  | beginIf | beginFilter | beginFor | beginWith | beginMacro | beginCall | beginBlock =>
    rcases List.mem_cons.mp hblock with rfl | hmem
    · cases hpair
    · refine .inl ⟨block, ?_, hpair⟩
      simpa [State.define, State.startBody, State.record, State.addScope] using hmem
  | beginSet names mentions =>
    rcases List.mem_cons.mp hblock with rfl | hmem
    · obtain ⟨name, hname, rfl⟩ := List.mem_map.mp hpair
      exact .inr ⟨names, mentions, rfl, name, hname, rfl⟩
    · exact .inl ⟨block, hmem, hpair⟩
  | assign | importTemplate | importNames =>
    refine .inl ⟨block, ?_, hpair⟩
    simpa [apply, State.record] using hblock
  | otherwise =>
    obtain ⟨old, hold, hsame⟩ := mem_blocks_endLoopBody hblock
    exact .inl ⟨old, hold, hsame ▸ hpair⟩
  | endBlock kind => exact .inl ⟨block, mem_blocks_endBlock hblock, hpair⟩

theorem pending_apply (hpending : ∀ block ∈ state.blocks, ∀ pair ∈ block.pending,
    pair.2.kind = .setVariable) (tag : Tag) (statement : Statement) :
    ∀ block ∈ (apply state tag statement).blocks, ∀ pair ∈ block.pending,
      pair.2.kind = .setVariable := by
  intro block hblock pair hpair
  rcases mem_pending_apply hblock hpair with ⟨old, hold, hpair⟩ | ⟨_, _, _, _, _, rfl⟩
  · exact hpending old hold pair hpair
  · rfl

theorem declared_step (hdeclared : Declared stop now state) (hstart : now ≤ tag.start)
    (hbounded : tag.Bounded) (hbody : Token.Between tag.after tag.start tag.body)
    (hwithin : tag.after ≤ stop) : Declared stop tag.after (step state tag) where
  nested := nested_step hdeclared.nested hstart hbody hwithin
  earlier id binding hmem := by
    have hlater : ∀ binding ∈ state.scopes.bindingsOf id, binding.visibleFrom ≤ tag.after :=
      fun binding hmem => (hdeclared.earlier id binding hmem).trans (hstart.trans hbody.le)
    simp only [step] at hmem
    split at hmem
    · split at hmem <;> exact hlater binding hmem
    · rcases adds_apply state tag _ id binding hmem with hmem | hmem
      · exact hlater binding hmem
      · exact (declarations_bounded hbounded hmem).2
  pending := by
    simp only [step]
    split
    · split <;> exact hdeclared.pending
    · exact pending_apply hdeclared.pending tag _

theorem Declared.mono {later : Position} (hdeclared : Declared stop now state) (hlater : now ≤ later)
    (hwithin : later ≤ stop) : Declared stop later state where
  nested := hdeclared.nested.mono hlater hwithin
  earlier id binding hmem := (hdeclared.earlier id binding hmem).trans hlater
  pending := hdeclared.pending

/-- The scope in which a tag is read exists. -/
theorem Declared.currentScope_lt (hdeclared : Declared stop now state) :
    state.currentScope < state.scopes.nextId := by
  rw [State.currentScope_eq]
  exact ScopeTree.Nested.valid hdeclared.nested

theorem alike_step (halike : Alike name state.scopes) (hdeclared : Declared stop now state)
    (hstart : now ≤ tag.start) (hbounded : tag.Bounded)
    (hloop : name = "loop" → ¬ tag.EndsInLoopName) : Alike name (step state tag).scopes := by
  simp only [step]
  split
  · split <;> exact halike
  · refine halike.add (adds_apply state tag _) hdeclared.earlier
      (fun pair hpair => hstart.trans_lt (declarations_bounded hbounded hpair).1) ?_
    intro id first second hfirst hsecond
    exact declarations_alike hdeclared.currentScope_lt hbounded hdeclared.pending hloop hfirst hsecond

theorem declared_foldl {high : Position} {tags : List Tag} (hdeclared : Declared stop now state)
    (htags : Tag.Between high now tags) (hwithin : high ≤ stop) (hbounded : ∀ tag ∈ tags, tag.Bounded) :
    Declared stop high (tags.foldl step state) := by
  induction tags generalizing state now with
  | nil => exact hdeclared.mono htags hwithin
  | cons tag rest ih =>
    obtain ⟨hstart, hbody, hrest⟩ := htags
    obtain ⟨htag, hbounded⟩ := List.forall_mem_cons.mp hbounded
    exact ih (declared_step hdeclared hstart htag hbody (hrest.le.trans hwithin)) hrest hbounded

theorem alike_foldl {tags : List Tag} (halike : Alike name state.scopes)
    (hdeclared : Declared stop now state) (htags : Tag.Between stop now tags)
    (hbounded : ∀ tag ∈ tags, tag.Bounded)
    (hloop : name = "loop" → ∀ tag ∈ tags, ¬ tag.EndsInLoopName) :
    Alike name (tags.foldl step state).scopes := by
  induction tags generalizing state now with
  | nil => exact halike
  | cons tag rest ih =>
    obtain ⟨hstart, hbody, hrest⟩ := htags
    obtain ⟨htag, hbounded⟩ := List.forall_mem_cons.mp hbounded
    have hhere := alike_step halike hdeclared hstart htag fun hname => hloop hname tag List.mem_cons_self
    exact ih hhere (declared_step hdeclared hstart htag hbody hrest.le) hrest hbounded
      fun hname tag hmem => hloop hname tag (List.mem_cons_of_mem _ hmem)

theorem declared_initial (stop : Position) : Declared stop {} { scopes := .ofEnd stop } where
  nested := ScopeTree.Nested.ofEnd stop
  earlier id binding hmem := by
    cases id with
    | zero => cases hmem
    | succ id => cases hmem
  pending block hmem := nomatch hmem

theorem alike_initial (name : String) (stop : Position) : Alike name (ScopeTree.ofEnd stop) := by
  intro id first hfirst
  cases id with
  | zero => cases hfirst
  | succ id => cases hfirst

end Step

/-- Declarations of a template for one name and scope that take effect together are of one kind. At the
    end of the file, blocks of text that are not closed may add to them. -/
theorem kind_eq_of_visibleFrom (source : Source) {name : String} {id : ScopeId} {first second : Binding}
    (hloop : name = "loop" →
      ∀ tag ∈ Tag.ofTokens source.endPosition (tokenize source.chars), ¬ tag.EndsInLoopName)
    (hfirst : first ∈ (ofSource source).scopes.bindingsOf id)
    (hsecond : second ∈ (ofSource source).scopes.bindingsOf id) (hfirstName : first.name = name)
    (hsecondName : second.name = name) (hsame : first.visibleFrom = second.visibleFrom)
    (hbefore : first.visibleFrom < source.endPosition) : first.kind = second.kind := by
  let stop := source.endPosition
  let state := (Tag.ofTokens stop (tokenize source.chars)).foldl step { scopes := .ofEnd stop }
  have halike : Alike name state.scopes := alike_foldl (alike_initial name stop) (declared_initial stop)
    (tags_between source) (tags_bounded source) hloop
  have hread : ∀ binding ∈ (ofSource source).scopes.bindingsOf id, binding.visibleFrom < stop →
      binding ∈ state.scopes.bindingsOf id := by
    intro binding hmem hlt
    have hopen : Gains state.scopes { state with blocks := [] }.scopes [] := Gains.refl state.scopes
    have hadds := adds_closeAtEnd state.blocks stop hopen
    refine (hadds id binding hmem).resolve_right fun hnew => ?_
    obtain ⟨block, _, hpair⟩ := List.mem_flatMap.mp hnew
    obtain ⟨_, _, hsettled⟩ := List.mem_map.mp hpair
    cases hsettled
    exact hlt.ne rfl
  exact halike id first (hread first hfirst hbefore) second (hread second hsecond (hsame ▸ hbefore))
    hfirstName hsecondName hsame

end Outline

end TemplateAnalysis.Template
