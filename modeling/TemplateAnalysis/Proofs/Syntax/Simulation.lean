import TemplateAnalysis.Proofs.Scope.Resolution
import TemplateAnalysis.Proofs.Syntax.Heads
import TemplateAnalysis.Proofs.Syntax.Interpreter
import TemplateAnalysis.Proofs.Template.Order
import TemplateAnalysis.Template.Outline

namespace TemplateAnalysis.Syntax

open Template (BlockKind Mentions Reference Statement Tag TagForm Token)
open Template.Outline

section Printed

theorem Lexeme.chars_ne_nil (lexeme : Lexeme) : lexeme.chars ≠ [] := by
  cases lexeme with
  | keyword word => cases word <;> decide
  | symbol mark => cases mark <;> decide
  | _ => exact List.cons_ne_nil _ _

theorem spells_locate (place : Place) (parts : List Part) : Part.Spells (Part.locate place parts) parts := by
  induction parts generalizing place with
  | nil => rfl
  | cons part rest ih => exact congrArg _ (ih _)

/-- Parts are printed one after the other. -/
theorem between_locate (place : Place) (parts : List Part) :
    Token.Between (place.past (Part.spaced parts)).position place.position
      ((Part.locate place parts).map (·.1)) := by
  induction parts generalizing place with
  | nil => exact le_refl _
  | cons part rest ih =>
    have hchars : part.chars ≠ [] := part.lexeme.chars_ne_nil
    have hstop : (part.text).toList = part.chars := String.toList_ofList
    have hrest := ih ((place.after ' ').past part.chars)
    rw [← Place.past_append] at hrest
    refine ⟨(Position.lt_after place.position ' ').le, fun _ => ?_, ?_⟩
    · rw [Token.stop, hstop]
      exact Place.position_lt_past _ hchars
    · rw [Token.stop, hstop]
      exact hrest

/-- A tag stands in the text as it is printed: its tokens lie one after the other between its start and a
    position before its end. -/
structure Printed (tag : Tag) (marked : List (Token × Role)) (limit : Position) : Prop where
  body : tag.body = marked.map (·.1)
  within : ∀ token ∈ marked.map (·.1), tag.start < token.start.position ∧
    token.start.position < token.stop.position ∧ token.stop.position ≤ limit
  ordered : (marked.map (·.1)).Pairwise fun first second => first.stop.position ≤ second.start.position
  start_lt : tag.start < limit
  limit_lt : limit < tag.after

theorem pairwise_of_between {low high : Position} {tokens : List Token}
    (hbetween : Token.Between high low tokens) :
    tokens.Pairwise fun first second => first.stop.position ≤ second.start.position := by
  induction tokens generalizing low with
  | nil => exact .nil
  | cons token rest ih =>
    obtain ⟨_, _, hrest⟩ := hbetween
    exact .cons (fun later hlater => (hrest.of_mem hlater).1) (ih hrest)

theorem start_lt_stop {low high : Position} {tokens : List Token} (hbetween : Token.Between high low tokens)
    {token : Token} (hmem : token ∈ tokens) (hkind : token.kind ≠ .endOfFile) :
    token.start.position < token.stop.position := by
  induction tokens generalizing low with
  | nil => cases hmem
  | cons first rest ih =>
    obtain ⟨_, hlt, hrest⟩ := hbetween
    rcases List.mem_cons.mp hmem with rfl | hmem
    · exact hlt hkind
    · exact ih hrest hmem

theorem Lexeme.kind_ne_endOfFile (lexeme : Lexeme) : lexeme.kind ≠ .endOfFile := by
  cases lexeme with
  | number value => rcases value.kind_cases with hkind | hkind <;> rw [Lexeme.kind, hkind] <;> rintro ⟨⟩
  | _ => rintro ⟨⟩

theorem printed_tagAt (form : TagForm) (place : Place) (parts : List Part) :
    ∃ limit, Printed (Fragment.tagAt form place parts) (Fragment.tokens place (.tag form parts)) limit := by
  have hbetween := between_locate (place.past (opening form)) parts
  have hopening : place.position < (place.past (opening form)).position :=
    place.position_lt_past (by cases form <;> exact List.cons_ne_nil _ _)
  refine ⟨((place.past (opening form)).past (Part.spaced parts)).position, rfl, fun token hmem => ?_,
    pairwise_of_between hbetween, hopening.trans_le hbetween.le, ?_⟩
  · obtain ⟨hlow, hhigh⟩ := hbetween.of_mem hmem
    refine ⟨hopening.trans_le hlow, start_lt_stop hbetween hmem ?_, hhigh⟩
    obtain ⟨⟨token, role⟩, hpair, rfl⟩ := List.mem_map.mp hmem
    have hview := List.mem_map_of_mem (f := fun (pair : Token × Role) => (pair.1.kind, pair.1.text, pair.2)) hpair
    rw [show (Fragment.tokens place (.tag form parts)).map _ = _ from spells_locate _ parts] at hview
    obtain ⟨part, _, hsame⟩ := List.mem_map.mp hview
    rw [← (Prod.mk.inj hsame).1]
    exact part.lexeme.kind_ne_endOfFile
  · simp only [Fragment.tagAt, Fragment.chars, Place.past_append]
    exact Place.position_lt_past _ (List.cons_ne_nil _ _)

end Printed

/-- The state after a fragment. -/
def Fragment.perform (place : Place) (state : State) : Fragment → State
  | .text _ => state
  | .tag form parts => step state (tagAt form place parts)

/-- What a reference refers to in a tree of scopes. -/
def resolved (tree : ScopeTree) (reference : Reference) : Use :=
  { name := reference.toName
    declaration := (tree.resolve reference.scope reference.text reference.range.start).map fun found =>
      .ofBinding found.2 }

/-- A state stands for an environment at a position. -/
structure Stands (now : Position) (state : State) (environment : Environment) : Prop where
  raw : state.raw = false
  represents : state.scopes.Represents now state.currentScope environment

/-- A part of a template leads from one state to another: the scopes only grow, and the references that
    are recorded refer to what they refer to in the outcome, whatever is declared afterwards. -/
structure Reaches (start stop : Position) (state later : State) (outcome : Outcome) : Prop where
  le : start ≤ stop
  stands : Stands stop later outcome.environment
  grows : state.scopes.Grows start later.scopes
  references : ∃ added, later.references = state.references ++ added ∧
    ∀ final, later.scopes.Grows stop final → added.map (resolved final) = outcome.uses

namespace Reaches

variable {start middle stop : Position} {state next later : State} {first second : List Use}
  {environment environment' : Environment}

theorem refl (hstands : Stands start state environment) (hle : start ≤ stop) :
    Reaches start stop state state { uses := [], environment } where
  le := hle
  stands := ⟨hstands.raw, hstands.represents.mono hle⟩
  grows := .refl _ _
  references := ⟨[], (List.append_nil _).symm, fun _ _ => rfl⟩

theorem trans (hfirst : Reaches start middle state next { uses := first, environment })
    (hsecond : Reaches middle stop next later { uses := second, environment := environment' }) :
    Reaches start stop state later { uses := first ++ second, environment := environment' } where
  le := hfirst.le.trans hsecond.le
  stands := hsecond.stands
  grows := hfirst.grows.trans (hsecond.grows.mono hfirst.le)
  references := by
    obtain ⟨added, hadded, hfirstUses⟩ := hfirst.references
    obtain ⟨added', hadded', hsecondUses⟩ := hsecond.references
    refine ⟨added ++ added', by rw [hadded', hadded, List.append_assoc], fun final hfinal => ?_⟩
    have hmiddle : next.scopes.Grows middle final := hsecond.grows.trans (hfinal.mono hsecond.le)
    rw [List.map_append, hfirstUses final hmiddle, hsecondUses final hfinal]

/-- A block without a scope of its own changes nothing. -/
theorem push (hreaches : Reaches start stop state later { uses := first, environment }) (kind : BlockKind)
    (pending : List (ScopeId × Binding)) :
    Reaches start stop state (later.push { kind, pending }) { uses := first, environment } :=
  ⟨hreaches.le, ⟨hreaches.stands.raw, hreaches.stands.represents⟩, hreaches.grows, hreaches.references⟩

end Reaches

theorem State.defineAll_eq (state : State) (scope : ScopeId) (bindings : List Binding) :
    state.defineAll scope bindings = { state with scopes := state.scopes.defineAll scope bindings } := by
  induction bindings generalizing state with
  | nil => rfl
  | cons binding rest ih => exact ih (state.define scope binding)

section Reading

variable {tokens : List Token} {scope : ScopeId} {environment : Environment} {final : ScopeTree}

/-- The references that are recorded where tokens are read in a scope. -/
def references (scope : ScopeId) (tokens : List Token) : List Reference :=
  tokens.map fun token => { token.name with scope }

/-- Variables that are read in a scope refer to what the environment there gives them. -/
theorem resolved_references
    (hread : ∀ token ∈ tokens, ∃ tree : ScopeTree, tree.Represents token.start.position scope environment ∧
      tree.Grows token.start.position final) :
    (references scope tokens).map (resolved final) = lookups environment tokens := by
  rw [references, List.map_map, lookups]
  refine List.map_congr_left fun token htoken => ?_
  obtain ⟨tree, hrepresents, hgrows⟩ := hread token htoken
  have hresolve := hrepresents.resolve hgrows (le_refl _) token.text
  exact congrArg (Use.mk token.name) hresolve

theorem references_record (state : State) (scope : ScopeId) {mentions : Mentions}
    (hmentions : mentions.references = tokens.map Token.name) :
    (state.record scope mentions).references = state.references ++ references scope tokens := by
  rw [State.record, hmentions, List.map_map]
  rfl

end Reading

theorem mem_of_mem_select {role : Role} {marked : List (Token × Role)} {token : Token}
    (hmem : token ∈ select role marked) : token ∈ marked.map (·.1) := by
  obtain ⟨pair, hpair, rfl⟩ := List.mem_map.mp hmem
  exact List.mem_map_of_mem (List.mem_filter.mp hpair).1

theorem map_ofBinding_bind (kind : IdentifierKind) (visibleFrom : Token → Position) (tokens : List Token) :
    (tokens.map fun token => bind kind (visibleFrom token) token).map Declaration.ofBinding =
      tokens.map (declared kind) := by
  rw [List.map_map]
  rfl

section Alone

variable {start stop after limit : Position} {state later : State} {tag : Tag}
  {marked : List (Token × Role)} {environment : Environment} {uses : List Use} {mentions : Mentions}

/-- What a tag reads around it is recorded in the scope around it. -/
theorem reaches_record (hstands : Stands tag.start state environment) (hprinted : Printed tag marked limit)
    (hmentions : mentions.references = (select .read marked).map Token.name) :
    Reaches tag.start limit state (state.record state.currentScope mentions)
      { uses := lookups environment (select .read marked), environment } where
  le := hprinted.start_lt.le
  stands := ⟨hstands.raw, hstands.represents.mono hprinted.start_lt.le⟩
  grows := .refl _ _
  references := by
    refine ⟨_, references_record state state.currentScope hmentions, fun final hfinal => ?_⟩
    refine resolved_references fun token htoken => ?_
    obtain ⟨hstart, hproper, hlimit⟩ := hprinted.within token (mem_of_mem_select htoken)
    exact ⟨state.scopes, hstands.represents.mono hstart.le, hfinal.mono (hproper.le.trans hlimit)⟩

/-- Names that take effect at the end of a tag are the newest ones of the innermost frame. -/
theorem Reaches.declare (hreaches : Reaches start stop state later { uses, environment })
    (kind : IdentifierKind) (hlt : stop < after) (hredefinable : kind.isRedefinable = true)
    (hbinds : kind.bindsReferences = true) (names : List Token) :
    Reaches start after state (later.defineAll later.currentScope (names.map (bind kind after)))
      { uses, environment := environment.declare (names.map (declared kind)) } := by
  rw [State.defineAll_eq]
  have hall : ∀ {P : Binding → Prop}, (∀ name, P (bind kind after name)) →
      ∀ binding ∈ names.map (bind kind after), P binding := by
    intro P hP binding hmem
    obtain ⟨name, _, rfl⟩ := List.mem_map.mp hmem
    exact hP name
  have hgrows : later.scopes.Grows stop (later.scopes.defineAll later.currentScope (names.map (bind kind after))) :=
    (ScopeTree.Grows.refl stop later.scopes).defineAll hreaches.stands.represents.lt_nextId
      (hall fun _ => ⟨hredefinable, hlt⟩)
  have hordered : (names.map (bind kind after)).Pairwise Scope.Precedes :=
    List.pairwise_map.mpr (List.pairwise_of_forall fun _ _ => .inr ⟨rfl, rfl⟩)
  have hrepresents := hreaches.stands.represents.declare (hall fun _ => hbinds) (hall fun _ => hlt) hordered
    (hall fun _ => le_refl after) hlt.le
  rw [map_ofBinding_bind kind (fun _ => after)] at hrepresents
  refine ⟨hreaches.le.trans hlt.le, ⟨hreaches.stands.raw, hrepresents⟩,
    hreaches.grows.trans (hgrows.mono hreaches.le), ?_⟩
  obtain ⟨added, hadded, huses⟩ := hreaches.references
  exact ⟨added, hadded, fun final hfinal => huses final (hgrows.trans (hfinal.mono hlt.le))⟩

/-- A statement that stands alone records what it reads, then its names take effect. -/
theorem reaches_declare (hstands : Stands tag.start state environment) (hprinted : Printed tag marked limit)
    {found : List Token} (hclause : Clause marked found mentions) {kind : IdentifierKind}
    (hredefinable : kind.isRedefinable = true) (hbinds : kind.bindsReferences = true) :
    Reaches tag.start tag.after state
      ((state.record state.currentScope mentions).defineAll state.currentScope (found.map (bind kind tag.after)))
      { uses := lookups environment (select .read marked)
        environment := environment.declare ((select .declared marked).map (declared kind)) } := by
  rw [hclause.declared]
  exact (reaches_record hstands hprinted hclause.references).declare kind hprinted.limit_lt hredefinable hbinds found

theorem reaches_evaluate (hstands : Stands tag.start state environment) (hprinted : Printed tag marked limit)
    (hclause : Clause marked [] mentions) :
    Reaches tag.start tag.after state (state.record state.currentScope mentions)
      { uses := lookups environment (select .read marked), environment } := by
  have hkind : IdentifierKind.setVariable.isRedefinable = true := rfl
  have hreaches := reaches_declare hstands hprinted hclause hkind rfl
  simp only [hclause.declared, List.map_nil, Environment.declare_nil] at hreaches
  exact hreaches

end Alone

section Steps

variable {place : Place} {state : State} {environment : Environment} {parts : List Part}
  {statement : Statement}

theorem perform_statement (hstands : Stands place.position state environment)
    (hstatement : Statement.ofBody ((Part.locate (place.past (opening .statement)) parts).map (·.1)) = statement) :
    Fragment.perform place state (.tag .statement parts) =
      apply state (Fragment.tagAt .statement place parts) statement := by
  rw [Fragment.perform, step, hstands.raw, if_neg Bool.false_ne_true, ← hstatement]
  rfl

/-- A statement that stands alone is a clause whose names take effect at its end. -/
theorem Action.perform_eq (action : Action) (hfree : ∀ ident ∈ action.imports, ident ≠ .without)
    (hstands : Stands place.position state environment) :
    ∃ found mentions, Clause ((Fragment.action action).tokens place) found mentions ∧
      (Fragment.action action).perform place state =
        (state.record state.currentScope mentions).defineAll state.currentScope
          (found.map (bind action.kind ((Fragment.action action).after place).position)) := by
  have hspells := spells_locate (place.past (opening action.form)) action.parts
  cases action with
  | print value =>
    refine ⟨[], _, clause_expression value hspells, ?_⟩
    rw [Fragment.action, Fragment.perform, step, hstands.raw, if_neg Bool.false_ne_true]
    rfl
  | assign targets value =>
    obtain ⟨found, mentions, hstatement, hclause⟩ := ofBody_assign hspells
    exact ⟨found, mentions, hclause, perform_statement hstands hstatement⟩
  | inherit template =>
    obtain ⟨mentions, hstatement, hclause⟩ := ofBody_inherit hspells
    exact ⟨[], mentions, hclause, perform_statement hstands hstatement⟩
  | insert template ignoresMissing sharing =>
    obtain ⟨mentions, hstatement, hclause⟩ := ofBody_insert hspells
    exact ⟨[], mentions, hclause, perform_statement hstands hstatement⟩
  | importAs template name sharing =>
    obtain ⟨found, mentions, hstatement, hclause⟩ := ofBody_importAs hspells
    exact ⟨[found], mentions, hclause, perform_statement hstands hstatement⟩
  | importNames template names sharing =>
    have hnames : ∀ imported ∈ names, imported.original ≠ .without := fun imported hmem =>
      hfree _ (List.mem_map_of_mem hmem)
    obtain ⟨found, mentions, hstatement, hclause⟩ := ofBody_importNames hspells hnames
    exact ⟨found, mentions, hclause, perform_statement hstands hstatement⟩

theorem Action.reaches (action : Action) (hfree : ∀ ident ∈ action.imports, ident ≠ .without)
    (hstands : Stands place.position state environment) :
    Reaches place.position ((Fragment.action action).after place).position state
        ((Fragment.action action).perform place state) (action.run environment place) ∧
      ((Fragment.action action).perform place state).blocks = state.blocks := by
  obtain ⟨limit, hprinted⟩ := printed_tagAt action.form place action.parts
  obtain ⟨found, mentions, hclause, hperform⟩ := action.perform_eq hfree hstands
  rw [hperform]
  refine ⟨reaches_declare hstands hprinted hclause ?_ ?_, ?_⟩
  · cases action <;> rfl
  · cases action <;> rfl
  · rw [State.defineAll_eq]
    rfl

end Steps

end TemplateAnalysis.Syntax
