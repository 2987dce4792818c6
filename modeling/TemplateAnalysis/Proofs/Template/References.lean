import Mathlib.Data.List.Nodup
import TemplateAnalysis.Proofs.Template.Order
import TemplateAnalysis.Proofs.Template.Reading
import TemplateAnalysis.Template.Outline

namespace TemplateAnalysis.Template

/-- The words among tokens that follow one another are apart. None of them is empty. -/
theorem Token.Between.wordNames {high low : Position} {tokens : List Token}
    (hbetween : Token.Between high low tokens) :
    (wordNames tokens).Pairwise (fun first second => first.range.stop ≤ second.range.start) ∧
      ∀ name ∈ wordNames tokens, low ≤ name.range.start ∧ name.range.start < name.range.stop ∧
        name.range.stop ≤ high := by
  induction tokens generalizing low with
  | nil => exact ⟨List.Pairwise.nil, fun name hname => by cases hname⟩
  | cons token rest ih =>
    obtain ⟨hstart, hlt, hrest⟩ := hbetween
    obtain ⟨happart, hall⟩ := ih hrest
    have hlater : ∀ name ∈ Template.wordNames rest, low ≤ name.range.start ∧
        name.range.start < name.range.stop ∧ name.range.stop ≤ high := fun name hname =>
      ⟨(hstart.trans token.start_le_stop).trans (hall name hname).1, (hall name hname).2⟩
    by_cases hword : token.kind.isWord = true
    · have hnames : Template.wordNames (token :: rest) = token.name :: Template.wordNames rest := by
        simp [Template.wordNames, hword]
      have hkind : token.kind ≠ .endOfFile := by
        rintro hkind
        rw [hkind] at hword
        cases hword
      rw [hnames, List.pairwise_cons, List.forall_mem_cons]
      exact ⟨⟨fun name hname => (hall name hname).1, happart⟩, ⟨hstart, hlt hkind, hrest.le⟩, hlater⟩
    · have hnames : Template.wordNames (token :: rest) = Template.wordNames rest := by
        simp [Template.wordNames, hword]
      rw [hnames]
      exact ⟨happart, hlater⟩

namespace Outline

namespace State

variable (state : State) (scope : ScopeId)

@[simp] theorem references_record (mentions : Mentions) : (state.record scope mentions).references =
    state.references ++ mentions.references.map fun name => { name with scope } := rfl

@[simp] theorem references_define (binding : Binding) :
    (state.define scope binding).references = state.references := rfl

@[simp] theorem references_defineAll (bindings : List Binding) :
    (state.defineAll scope bindings).references = state.references := by
  induction bindings generalizing state with
  | nil => rfl
  | cons binding rest ih => exact ih (state.define scope binding)

@[simp] theorem references_addScope (kind : ScopeKind) (word : Token) :
    (state.addScope kind word).references = state.references := rfl

@[simp] theorem references_startBody (start : Position) :
    (state.startBody scope start).references = state.references := rfl

@[simp] theorem references_push (block : OpenBlock) :
    (state.push block).references = state.references := rfl

@[simp] theorem references_settle (after : Position) (pending : List (ScopeId × Binding)) :
    (settle after state pending).references = state.references := by
  induction pending generalizing state with
  | nil => rfl
  | cons pair rest ih => exact ih _

@[simp] theorem references_close (block : OpenBlock) (stop after : Position) :
    (state.close block stop after).references = state.references := by
  rw [close]
  split <;> rw [references_settle]

theorem references_closeAll (blocks : List OpenBlock) (stop after : Position) :
    (blocks.foldl (·.close · stop after) state).references = state.references := by
  induction blocks generalizing state with
  | nil => rfl
  | cons block rest ih => exact (ih _).trans (references_close state block stop after)

theorem references_closeAtEnd (blocks : List OpenBlock) (stop : Position) :
    (blocks.foldl (closeAtEnd stop) state).references = state.references := by
  induction blocks generalizing state with
  | nil => rfl
  | cons block rest ih =>
    refine (ih _).trans ?_
    simp only [closeAtEnd]
    split
    · exact references_close state block stop stop
    · exact references_close state block stop stop

/-- The references of a state without the scopes in which they are evaluated. -/
def mentioned : List Name :=
  state.references.map (·.toName)

end State

variable {state : State}

/-- The references that a tag makes, each with the scope in which it is evaluated: the filter of a
    loop in the scope of the loop, everything else in the current one. -/
def evaluated (state : State) : Statement → List Reference
  | .beginFor _ _ sequence filter =>
    (sequence.references.map fun name => { name with scope := state.currentScope }) ++
      filter.references.map fun name => { name with scope := state.scopes.nextId }
  | statement => statement.mentions.references.map fun name => { name with scope := state.currentScope }

/-- A tag adds what it evaluates to the references, and nothing else. -/
theorem references_apply (state : State) (tag : Tag) (statement : Statement) :
    (apply state tag statement).references = state.references ++ evaluated state statement := by
  cases statement with
  | otherwise =>
    simp only [apply, endLoopBody, evaluated, Statement.mentions, List.map_nil, List.append_nil]
    split <;> rfl
  | endBlock kind =>
    simp only [apply, endBlock, evaluated, Statement.mentions, List.map_nil, List.append_nil]
    split
    · rfl
    · exact State.references_closeAll _ _ _ _
  | beginRaw => exact (List.append_nil _).symm
  | _ => simp [apply, evaluated, Statement.mentions]

theorem toName_evaluated (state : State) (statement : Statement) :
    (evaluated state statement).map (·.toName) = statement.mentions.references := by
  cases statement <;> simp [evaluated, Statement.mentions, Function.comp_def]

theorem mentioned_apply (state : State) (tag : Tag) (statement : Statement) :
    (apply state tag statement).mentioned = state.mentioned ++ statement.mentions.references := by
  rw [State.mentioned, references_apply, List.map_append, toName_evaluated, State.mentioned]

/-- The references of a state are apart, and none of them goes beyond a position. -/
def Apart (now : Position) (names : List Name) : Prop :=
  names.Pairwise (fun first second => first.range.stop ≤ second.range.start) ∧
    ∀ name ∈ names, name.range.start < name.range.stop ∧ name.range.stop ≤ now

theorem apart_step {tag : Tag} {now : Position} (happart : Apart now state.mentioned)
    (hstart : now ≤ tag.start) (hbody : Token.Between tag.after tag.start tag.body) :
    Apart tag.after (step state tag).mentioned := by
  have hlater : Apart tag.after state.mentioned :=
    ⟨happart.1, fun name hname => ⟨(happart.2 name hname).1,
      (happart.2 name hname).2.trans (hstart.trans hbody.le)⟩⟩
  obtain ⟨hwords, hwithin⟩ := hbody.wordNames
  have hsub := Statement.ofTag_sublist tag
  simp only [step]
  split
  · split <;> exact hlater
  · rw [mentioned_apply]
    refine ⟨List.pairwise_append.mpr ⟨happart.1, hwords.sublist hsub, ?_⟩, ?_⟩
    · intro first hfirst second hsecond
      exact ((happart.2 first hfirst).2.trans hstart).trans (hwithin second (hsub.subset hsecond)).1
    · intro name hname
      rcases List.mem_append.mp hname with hname | hname
      · exact hlater.2 name hname
      · exact (hwithin name (hsub.subset hname)).2

theorem apart_foldl {tags : List Tag} {now stop : Position} (happart : Apart now state.mentioned)
    (htags : Tag.Between stop now tags) : Apart stop (tags.foldl step state).mentioned := by
  induction tags generalizing state now with
  | nil => exact ⟨happart.1, fun name hname => ⟨(happart.2 name hname).1,
      (happart.2 name hname).2.trans htags⟩⟩
  | cons tag rest ih =>
    obtain ⟨hstart, hbody, hrest⟩ := htags
    exact ih (apart_step happart hstart hbody) hrest

/-- The references of a template stand one after the other in the text. -/
theorem references_apart (source : Source) :
    Apart source.endPosition ((ofSource source).references.map (·.toName)) := by
  let stop := source.endPosition
  let state := (Tag.ofTokens stop (tokenize source.chars)).foldl step { scopes := .ofEnd stop }
  have hstate : Apart stop state.mentioned :=
    apart_foldl ⟨List.Pairwise.nil, fun name hname => by cases hname⟩ (tags_between source)
  have hfinish : (finish stop state).references = state.references :=
    State.references_closeAtEnd { state with blocks := [] } state.blocks stop
  rw [State.mentioned, ← hfinish] at hstate
  exact hstate

/-- No two references of a template have the same range. -/
theorem reference_eq_of_range {source : Source} {first second : Reference}
    (hfirst : first ∈ (ofSource source).references)
    (hsecond : second ∈ (ofSource source).references) (hrange : first.range = second.range) :
    first = second := by
  obtain ⟨happart, hproper⟩ := references_apart source
  have hnodup : ((ofSource source).references.map (·.range)).Nodup := by
    rw [List.pairwise_map] at happart
    rw [List.nodup_iff_pairwise_ne, List.pairwise_map]
    refine happart.imp_of_mem fun {first second} hfirst _ hle hsame => ?_
    have hlt := (hproper first.toName (List.mem_map_of_mem hfirst)).1
    rw [hsame] at hlt hle
    exact absurd hle (not_le_of_gt hlt)
  exact List.inj_on_of_nodup_map hnodup hfirst hsecond hrange

end Outline

end TemplateAnalysis.Template
