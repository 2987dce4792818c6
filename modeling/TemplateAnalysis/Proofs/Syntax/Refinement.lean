import TemplateAnalysis.Proofs.Syntax.Blocks
import TemplateAnalysis.Proofs.Syntax.Lexing

namespace TemplateAnalysis.Syntax

open Template (BlockKind Keyword OpenBlock Reference Statement Tag Token)
open Template.Outline

/-- The state after fragments that are printed one after the other. -/
def performAll (place : Place) (state : State) : List Fragment → State
  | [] => state
  | fragment :: rest => performAll (fragment.after place) (fragment.perform place state) rest

theorem performAll_eq (place : Place) (state : State) (fragments : List Fragment) :
    performAll place state fragments = (Fragment.tags place fragments).foldl step state := by
  induction fragments generalizing place state with
  | nil => rfl
  | cons fragment rest ih => cases fragment <;> exact ih _ _

theorem performAll_append (place : Place) (state : State) (first second : List Fragment) :
    performAll place state (first ++ second) =
      performAll (place.past (first.flatMap Fragment.chars)) (performAll place state first) second := by
  induction first generalizing place state with
  | nil => rfl
  | cons fragment rest ih =>
    rw [List.cons_append, performAll, ih, List.flatMap_cons, Place.past_append]
    rfl

/-- Fragments that are printed from a place on lead from one state to another with the outcome that the
    interpreter gives to them. -/
structure Performs (place : Place) (fragments : List Fragment) (state later : State) (outcome : Outcome) :
    Prop where
  state_eq : performAll place state fragments = later
  reaches : Reaches place.position (place.past (fragments.flatMap Fragment.chars)).position state later outcome

namespace Performs

variable {place : Place} {fragment : Fragment} {first second : List Fragment} {state middle later : State}
  {environment environment' : Environment} {uses uses' : List Use}

theorem nil (hstands : Stands place.position state environment) :
    Performs place [] state state { uses := [], environment } :=
  ⟨rfl, .refl hstands (le_refl _)⟩

theorem cons (hfirst : Reaches place.position (fragment.after place).position state (fragment.perform place state)
      { uses, environment })
    (hsecond : Performs (fragment.after place) second (fragment.perform place state) later
      { uses := uses', environment := environment' }) :
    Performs place (fragment :: second) state later { uses := uses ++ uses', environment := environment' } where
  state_eq := hsecond.state_eq
  reaches := by
    rw [List.flatMap_cons, Place.past_append]
    exact hfirst.trans hsecond.reaches

theorem append (hfirst : Performs place first state middle { uses, environment })
    (hsecond : Performs (place.past (first.flatMap Fragment.chars)) second middle later
      { uses := uses', environment := environment' }) :
    Performs place (first ++ second) state later { uses := uses ++ uses', environment := environment' } where
  state_eq := by rw [performAll_append, hfirst.state_eq, hsecond.state_eq]
  reaches := by
    rw [List.flatMap_append, Place.past_append]
    exact hfirst.reaches.trans hsecond.reaches

end Performs

/-- The environment of the body of a block lies inside the one around the block. -/
theorem Opening.outer?_enter (opening : Opening) (environment : Environment) (place : Place) :
    (opening.enter environment place).environment.outer? = some (opening.surround environment place) := by
  rw [Opening.enter, Environment.outer?_declare, Environment.outer?_declare]
  rfl

theorem Opening.outer?_surround (opening : Opening) (environment : Environment) (place : Place) :
    (opening.surround environment place).outer? = environment.outer? :=
  Environment.outer?_declare _ _

mutual

/-- A part of a template changes the innermost frame alone. -/
theorem Markup.outer?_run (markup : Markup) (environment : Environment) (place : Place) :
    (markup.run environment place).environment.outer? = environment.outer? := by
  cases markup with
  | done => rfl
  | text content next => exact next.outer?_run _ _
  | action action next => exact (next.outer?_run _ _).trans (Environment.outer?_declare _ _)
  | block opening body next => exact (next.outer?_run _ _).trans (opening.outer?_surround _ _)
  | loopElse loop body otherwise next => exact (next.outer?_run _ _).trans (otherwise.outer?_run _ _)
  | capture targets filters body next =>
    exact ((next.outer?_run _ _).trans (Environment.outer?_declare _ _)).trans (body.outer?_run _ _)
  | filter first others body next => exact (next.outer?_run _ _).trans (body.outer?_run _ _)
  | branch condition body branches next =>
    exact ((next.outer?_run _ _).trans (branches.outer?_run _ _)).trans (body.outer?_run _ _)

theorem Branches.outer?_run (branches : Branches) (environment : Environment) (place : Place) :
    (branches.run environment place).environment.outer? = environment.outer? := by
  cases branches with
  | done => rfl
  | otherwise body => exact body.outer?_run _ _
  | elseIf condition body branches => exact (branches.outer?_run _ _).trans (body.outer?_run _ _)

end

section Simulation

variable {place : Place} {state : State} {environment : Environment}

/-- The body of a block stays in its frame and leaves the block open. -/
theorem Enters.after_body {opening : Opening} (henters : Enters opening place state environment)
    {body : Markup} {later : State}
    (hbody : Performs ((Fragment.opening opening).after place) body.fragments
      ((Fragment.opening opening).perform place state) later
      (body.run (opening.enter environment place).environment ((Fragment.opening opening).after place)))
    (hblocks : later.blocks = ((Fragment.opening opening).perform place state).blocks) :
    (∃ frame, Stands (((Fragment.opening opening).after place).past body.chars).position later
      (.inner frame (opening.surround environment place))) ∧
      later.blocks = { kind := opening.kind, scope := some state.scopes.nextId } :: state.blocks ∧
      later.scopes.parent? state.scopes.nextId =
        some ((state.blocks.findSome? (·.scope)).getD ScopeTree.root) := by
  have hcurrent : ((Fragment.opening opening).perform place state).currentScope = state.scopes.nextId := by
    rw [State.currentScope, henters.blocks]
    rfl
  have hid := henters.reaches.stands.represents.lt_nextId
  rw [hcurrent] at hid
  obtain ⟨frame, hframe⟩ := Environment.eq_inner
    ((body.outer?_run _ _).trans (opening.outer?_enter environment place))
  refine ⟨⟨frame, hframe ▸ hbody.reaches.stands⟩, hblocks.trans henters.blocks, ?_⟩
  exact (hbody.reaches.grows.parent? _ hid).trans henters.parent

theorem ofBody_ending (opening : Opening) {token : Token} (hkind : token.kind = .keyword opening.ending) :
    Statement.ofBody [token] = .endBlock opening.kind := by
  rw [Statement.ofBody, hkind]
  cases opening <;> rfl

theorem ofBody_endfilter {token : Token} (hkind : token.kind = .keyword .endfilterKw) :
    Statement.ofBody [token] = .endBlock .filter := by
  rw [Statement.ofBody, hkind]

theorem ofBody_endif {token : Token} (hkind : token.kind = .keyword .endifKw) :
    Statement.ofBody [token] = .endBlock .ifBranch := by
  rw [Statement.ofBody, hkind]

end Simulation

mutual

/-- A template whose blocks are closed leads to the outcome that the interpreter gives to it. -/
theorem Markup.performs (markup : Markup) {place : Place} {state : State} {environment : Environment}
    (hfree : ∀ ident ∈ markup.imports, ident ≠ .without)
    (hstands : Stands place.position state environment) :
    ∃ later, Performs place markup.fragments state later (markup.run environment place) ∧
      later.blocks = state.blocks := by
  cases markup with
  | done => exact ⟨state, .nil hstands, rfl⟩
  | text content next =>
    have htext : Reaches place.position ((Fragment.text content).after place).position state state
        { uses := [], environment } := .refl hstands (place.position_le_past content.chars)
    obtain ⟨later, hnext, hblocks⟩ := next.performs hfree htext.stands
    exact ⟨later, .cons htext hnext, hblocks⟩
  | action action next =>
    obtain ⟨hfreeAction, hfreeNext⟩ := List.forall_mem_append.mp hfree
    obtain ⟨haction, hsame⟩ := action.reaches hfreeAction hstands
    obtain ⟨later, hnext, hblocks⟩ := next.performs hfreeNext haction.stands
    exact ⟨later, .cons haction hnext, hblocks.trans hsame⟩
  | block opening body next =>
    obtain ⟨hfreeBody, hfreeNext⟩ := List.forall_mem_append.mp hfree
    have henters := opening.enters hstands
    obtain ⟨middle, hbody, hopen⟩ := body.performs hfreeBody henters.reaches.stands
    -- The body changes the innermost frame alone, so the end of the block gives the outer one back.
    obtain ⟨⟨frame, hinner⟩, hblock, hparent⟩ := henters.after_body hbody hopen
    obtain ⟨hclose, houter⟩ := reaches_close hinner hblock hparent fun _ => ofBody_ending opening
    obtain ⟨later, hnext, hblocks⟩ := next.performs hfreeNext hclose.stands
    exact ⟨later, .cons henters.reaches (hbody.append (.cons hclose hnext)), hblocks.trans houter⟩
  | loopElse loop body otherwise next =>
    obtain ⟨hfreeBody, hfreeRest⟩ := List.forall_mem_append.mp hfree
    obtain ⟨hfreeOther, hfreeNext⟩ := List.forall_mem_append.mp hfreeRest
    have henters := (Opening.loop loop).enters hstands
    obtain ⟨middle, hbody, hopen⟩ := body.performs hfreeBody henters.reaches.stands
    obtain ⟨⟨frame, hinner⟩, hblock, hparent⟩ := henters.after_body hbody hopen
    -- A loop declares nothing around it, so its other branch is read in the environment before it.
    have houtside : (Opening.loop loop).surround environment place = environment :=
      Environment.declare_nil environment
    rw [houtside] at hinner
    obtain ⟨helse, hloop⟩ := reaches_loopElse hinner hblock hparent
    obtain ⟨last, hother, hstill⟩ := otherwise.performs hfreeOther helse.stands
    obtain ⟨hclose, houter⟩ := reaches_closePlain hother.reaches.stands (hstill.trans hloop)
      fun _ => ofBody_ending (.loop loop)
    obtain ⟨later, hnext, hblocks⟩ := next.performs hfreeNext hclose.stands
    have hrest := Performs.cons helse (hother.append (.cons hclose hnext))
    exact ⟨later, .cons henters.reaches (hbody.append hrest), hblocks.trans houter⟩
  | capture targets filters body next =>
    obtain ⟨hfreeBody, hfreeNext⟩ := List.forall_mem_append.mp hfree
    obtain ⟨hopening, hopen⟩ := reaches_capture targets filters hstands
    obtain ⟨middle, hbody, hstill⟩ := body.performs hfreeBody hopening.stands
    have hcapture := hstill.trans hopen
    have hcurrent : state.currentScope = middle.currentScope := by
      rw [State.currentScope, State.currentScope, hcapture]
      rfl
    rw [hcurrent] at hcapture
    obtain ⟨hclose, houter⟩ := reaches_closeCapture hbody.reaches.stands hcapture
    obtain ⟨later, hnext, hblocks⟩ := next.performs hfreeNext hclose.stands
    exact ⟨later, .cons hopening (hbody.append (.cons hclose hnext)), hblocks.trans houter⟩
  | filter first others body next =>
    obtain ⟨hfreeBody, hfreeNext⟩ := List.forall_mem_append.mp hfree
    obtain ⟨hopening, hopen⟩ := reaches_filter first others hstands
    obtain ⟨middle, hbody, hstill⟩ := body.performs hfreeBody hopening.stands
    obtain ⟨hclose, houter⟩ := reaches_closePlain hbody.reaches.stands (hstill.trans hopen)
      fun _ => ofBody_endfilter
    obtain ⟨later, hnext, hblocks⟩ := next.performs hfreeNext hclose.stands
    exact ⟨later, .cons hopening (hbody.append (.cons hclose hnext)), hblocks.trans houter⟩
  | branch condition body branches next =>
    obtain ⟨hfreeBody, hfreeRest⟩ := List.forall_mem_append.mp hfree
    obtain ⟨hfreeOthers, hfreeNext⟩ := List.forall_mem_append.mp hfreeRest
    obtain ⟨hopening, hopen⟩ := reaches_if condition hstands
    obtain ⟨middle, hbody, hstill⟩ := body.performs hfreeBody hopening.stands
    obtain ⟨last, hothers, houter⟩ := branches.performs hfreeOthers hbody.reaches.stands (hstill.trans hopen)
    obtain ⟨later, hnext, hblocks⟩ := next.performs hfreeNext hothers.reaches.stands
    exact ⟨later, .cons hopening (hbody.append (hothers.append hnext)), hblocks.trans houter⟩

/-- The other branches of a condition lead to its end. -/
theorem Branches.performs (branches : Branches) {place : Place} {state : State} {environment : Environment}
    {outer : List OpenBlock} (hfree : ∀ ident ∈ branches.imports, ident ≠ .without)
    (hstands : Stands place.position state environment)
    (hblocks : state.blocks = { kind := .ifBranch } :: outer) :
    ∃ later, Performs place branches.fragments state later (branches.run environment place) ∧
      later.blocks = outer := by
  cases branches with
  | done =>
    obtain ⟨hclose, houter⟩ := reaches_closePlain hstands hblocks fun _ => ofBody_endif
    exact ⟨_, .cons hclose (.nil hclose.stands), houter⟩
  | otherwise body =>
    obtain ⟨helse, hsame⟩ := reaches_otherwise hstands hblocks
    obtain ⟨middle, hbody, hstill⟩ := body.performs hfree helse.stands
    obtain ⟨hclose, houter⟩ := reaches_closePlain hbody.reaches.stands
      (hstill.trans (hsame.trans hblocks)) fun _ => ofBody_endif
    have hperforms := hbody.append (.cons hclose (.nil hclose.stands))
    rw [List.append_nil, List.append_nil] at hperforms
    exact ⟨_, .cons helse hperforms, houter⟩
  | elseIf condition body branches =>
    obtain ⟨hfreeBody, hfreeOthers⟩ := List.forall_mem_append.mp hfree
    obtain ⟨hopening, hsame⟩ := reaches_elif condition hstands
    obtain ⟨middle, hbody, hstill⟩ := body.performs hfreeBody hopening.stands
    obtain ⟨later, hothers, houter⟩ := branches.performs hfreeOthers hbody.reaches.stands
      (hstill.trans (hsame.trans hblocks))
    exact ⟨later, .cons hopening (hbody.append hothers), houter⟩

end

section Whole

variable {parts : List Part} {word : Keyword} {body rest : List Fragment}

theorem Action.closes (action : Action) : (Fragment.action action).Closes := by
  cases action with
  | print value => exact value.builds builds_depthAfter 0
  | _ => trivial

theorem closes_head (hrest : ∀ fragment ∈ rest, fragment.Closes) :
    ∀ fragment ∈ Fragment.tag .statement parts :: rest, fragment.Closes :=
  List.forall_mem_cons.mpr ⟨trivial, hrest⟩

theorem closes_body (hbody : ∀ fragment ∈ body, fragment.Closes) (hrest : ∀ fragment ∈ rest, fragment.Closes) :
    ∀ fragment ∈ body ++ Fragment.word word :: rest, fragment.Closes :=
  List.forall_mem_append.mpr ⟨hbody, closes_head hrest⟩

mutual

/-- A template is read up to its end, as the braces of each expression are closed. -/
theorem Markup.closes (markup : Markup) : ∀ fragment ∈ markup.fragments, fragment.Closes := by
  cases markup with
  | done => exact fun _ hmem => absurd hmem List.not_mem_nil
  | text content next => exact List.forall_mem_cons.mpr ⟨trivial, next.closes⟩
  | action action next => exact List.forall_mem_cons.mpr ⟨action.closes, next.closes⟩
  | block _ body next | capture _ _ body next | filter _ _ body next =>
    exact closes_head (closes_body body.closes next.closes)
  | loopElse loop body otherwise next =>
    exact closes_head (closes_body body.closes (closes_body otherwise.closes next.closes))
  | branch condition body branches next =>
    have hothers := List.forall_mem_append.mpr ⟨branches.closes, next.closes⟩
    exact closes_head (List.forall_mem_append.mpr ⟨body.closes, hothers⟩)

theorem Branches.closes (branches : Branches) : ∀ fragment ∈ branches.fragments, fragment.Closes := by
  cases branches with
  | done => exact closes_head fun _ hmem => absurd hmem List.not_mem_nil
  | otherwise body => exact closes_head (closes_body body.closes fun _ hmem => absurd hmem List.not_mem_nil)
  | elseIf condition body branches =>
    exact closes_head (List.forall_mem_append.mpr ⟨body.closes, branches.closes⟩)

end

theorem stands_initial (stop : Position) :
    Stands ({} : Place).position { scopes := .ofEnd stop } (.outermost []) where
  raw := rfl
  represents := .outermost Nat.one_pos rfl (.nil _)

/-- The source of a template. -/
def Markup.source (name : String) (markup : Markup) : Source :=
  { name, text := String.ofList markup.chars }

/-- The references of a template refer to what the interpreter says, in the order of the text. -/
theorem Markup.references_resolve (markup : Markup) (name : String)
    (hfree : ∀ ident ∈ markup.imports, ident ≠ .without) :
    let outline := Template.Outline.ofSource (markup.source name)
    outline.references.map (resolved outline.scopes) = markup.uses := by
  intro outline
  let stop := (markup.source name).endPosition
  obtain ⟨later, hperforms, hblocks⟩ := markup.performs hfree (stands_initial stop)
  have hchars : (markup.source name).chars = markup.chars := String.toList_ofList
  have htags : Tag.ofTokens stop (Template.tokenize (markup.source name).chars) =
      Fragment.tags {} markup.fragments := by
    rw [hchars]
    exact ofTokens_fragments markup.fragments markup.closes
  have hstate : finish stop ((Fragment.tags {} markup.fragments).foldl step { scopes := .ofEnd stop }) =
      { later with blocks := [] } := by
    rw [← performAll_eq, hperforms.state_eq, finish, hblocks]
    rfl
  have hreferences : outline.references = later.references := by
    show (finish _ _).references = _
    rw [htags, hstate]
  have hscopes : outline.scopes = later.scopes := by
    show (finish _ _).scopes = _
    rw [htags, hstate]
  obtain ⟨added, hadded, huses⟩ := hperforms.reaches.references
  rw [hreferences, hscopes, hadded]
  exact huses later.scopes (.refl _ _)

/-- A template that takes a name from another one and puts it out. -/
def Markup.importing (original : Ident) : Markup :=
  .action (.importNames (.string ⟨'"', ['f'], Literal.isQuote_double, rfl⟩) [{ original }] .unspecified)
    (.action (.print (.reference original)) .done)

theorem Markup.references_resolve_importing :
    (∀ ident ∈ (importing .missing).imports, ident ≠ .without) ∧
      let outline := Template.Outline.ofSource ((importing .missing).source "page.html")
      outline.references.map (resolved outline.scopes) =
        [{ name := { text := "missing", range := ⟨⟨0, 32⟩, ⟨0, 39⟩⟩ }
           declaration := some { name := "missing", kind := .macroName, range := ⟨⟨0, 19⟩, ⟨0, 26⟩⟩ } }] :=
  ⟨by decide, (references_resolve (importing .missing) "page.html" (by decide)).trans (by decide +kernel)⟩

/-- The word that can follow the names of an import is not taken for one of them. -/
theorem Markup.references_resolve_without :
    let outline := Template.Outline.ofSource ((importing .without).source "page.html")
    outline.references.map (resolved outline.scopes) ≠ (importing .without).uses := by
  decide +kernel

end Whole

end TemplateAnalysis.Syntax
