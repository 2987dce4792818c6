import TemplateAnalysis.Proofs.Template.Header
import TemplateAnalysis.Proofs.Template.Visibility

namespace TemplateAnalysis.Template

namespace Statement

end Statement

namespace Outline

open ScopeTree (Gains Keeps)

variable {state : State} {tag : Tag} {pair : ScopeId × Binding}

/-- Blocks of text wait for declarations that take the place of no other ones. -/
def State.Redefines (state : State) : Prop :=
  ∀ block ∈ state.blocks, ∀ pair ∈ block.pending, pair.2.kind = .setVariable

theorem redefines_step (hredefines : state.Redefines) (tag : Tag) : (step state tag).Redefines := by
  simp only [step]
  split
  · split <;> exact hredefines
  · exact pending_apply hredefines tag _

theorem isRedefinable_of_settled {blocks : List OpenBlock} {after : Position}
    (hkinds : ∀ block ∈ blocks, ∀ pair ∈ block.pending, pair.2.kind = .setVariable)
    (hmem : pair ∈ blocks.flatMap (·.settled after)) : pair.2.kind.isRedefinable = true := by
  obtain ⟨block, hblock, hsettled⟩ := List.mem_flatMap.mp hmem
  obtain ⟨waiting, hwaiting, rfl⟩ := List.mem_map.mp hsettled
  exact (hkinds block hblock waiting hwaiting) ▸ rfl

/-- Names that cannot be declared anew belong to the scope that the tag itself opens. -/
theorem declarations_keep {statement : Statement} (hopens : statement.closes = false)
    (hmem : pair ∈ declarations state tag statement) :
    pair.2.kind.isRedefinable = true ∨ state.scopes.nextId ≤ pair.1 := by
  -- A tag declares in the scope that it opens or in the one in which it stands.
  have hinner : ∀ bindings : List Binding, pair ∈ bindings.map (state.scopes.nextId, ·) →
      state.scopes.nextId ≤ pair.1 := by
    intro bindings hmem
    obtain ⟨_, _, rfl⟩ := List.mem_map.mp hmem
    exact le_refl _
  have hnames : ∀ (kind : IdentifierKind) (names : List Token), kind.isRedefinable = true →
      pair ∈ (names.map (bind kind tag.after)).map (state.currentScope, ·) →
      pair.2.kind.isRedefinable = true := by
    intro kind names hkind hmem
    obtain ⟨_, hbinding, rfl⟩ := List.mem_map.mp hmem
    exact (kind_of_mem_binds hbinding) ▸ hkind
  have htitle : ∀ (kind : IdentifierKind) (title : Option Token), kind.isRedefinable = true →
      pair ∈ title.toList.map (fun name => (state.currentScope, bind kind name.start.position name)) →
      pair.2.kind.isRedefinable = true := by
    intro kind title hkind hmem
    obtain ⟨_, _, rfl⟩ := List.mem_map.mp hmem
    exact hkind
  cases statement with
  | other | endRaw | evaluate | beginIf | beginSet | beginFilter | beginRaw => cases hmem
  | otherwise | endBlock => cases hopens
  | beginFor | beginWith | beginCall => exact .inr (hinner _ hmem)
  | assign names => exact .inl (hnames _ names rfl hmem)
  | importTemplate _ name => exact .inl (hnames _ name.toList rfl hmem)
  | importNames _ names => exact .inl (hnames _ names rfl hmem)
  | beginBlock _ title => exact .inl (htitle _ title rfl hmem)
  | beginMacro _ title =>
    rcases List.mem_append.mp hmem with hmem | hmem
    · exact .inl (htitle _ title rfl hmem)
    · exact .inr (hinner _ hmem)

theorem keeps_apply (hredefines : state.Redefines) (tag : Tag) (statement : Statement) :
    Keeps state.scopes (apply state tag statement).scopes := by
  cases hopens : statement.closes with
  | false => exact (gains_apply state tag hopens).keeps fun pair hmem => declarations_keep hopens hmem
  | true =>
    cases statement with
    | otherwise => exact (gains_endLoopBody tag state).keeps fun pair hmem => by cases hmem
    | endBlock kind =>
      obtain ⟨closed, outer, hblocks, _, hgains⟩ := gains_endBlock tag kind state
      refine hgains.keeps fun pair hmem => .inl (isRedefinable_of_settled ?_ hmem)
      exact fun block hblock => hredefines block (hblocks ▸ List.mem_append_left outer hblock)
    | _ => cases hopens

theorem keeps_step (hredefines : state.Redefines) (tag : Tag) :
    Keeps state.scopes (step state tag).scopes := by
  simp only [step]
  split
  · split <;> exact Keeps.refl state.scopes
  · exact keeps_apply hredefines tag _

/-- Whatever is read keeps the declarations that were made before. -/
theorem keeps_foldl (hredefines : state.Redefines) (tags : List Tag) :
    (tags.foldl step state).Redefines ∧ Keeps state.scopes (tags.foldl step state).scopes := by
  induction tags generalizing state with
  | nil => exact ⟨hredefines, Keeps.refl state.scopes⟩
  | cons tag rest ih =>
    obtain ⟨hrest, hkeeps⟩ := ih (redefines_step hredefines tag)
    exact ⟨hrest, (keeps_step hredefines tag).trans hkeeps⟩

/-- At the end of the file the open blocks make the declarations for which they wait. -/
theorem gains_finish (stop : Position) (state : State) :
    Gains state.scopes (finish stop state).scopes (state.blocks.flatMap (·.settled stop)) := by
  have hopen : Gains state.scopes { state with blocks := [] }.scopes [] := Gains.refl state.scopes
  exact gains_closeAtEnd state.blocks stop hopen

theorem keeps_finish (hredefines : state.Redefines) (stop : Position) :
    Keeps state.scopes (finish stop state).scopes :=
  (gains_finish stop state).keeps fun _ hmem => .inl (isRedefinable_of_settled hredefines hmem)

section ReadAt

variable {source : Source} {earlier later : List Tag}

theorem ReadAt.ofSource_eq (hread : ReadAt source earlier tag later) : (ofSource source).scopes =
    (finish source.endPosition (later.foldl step
      (apply (read source earlier) tag (Statement.ofTag tag)))).scopes := by
  have hfold : (Tag.ofTokens source.endPosition (tokenize source.chars)).foldl step
      { scopes := .ofEnd source.endPosition } =
        later.foldl step (apply (read source earlier) tag (Statement.ofTag tag)) := by
    rw [hread.split, List.foldl_append, List.foldl_cons, ← hread.step_eq]
    rfl
  rw [ofSource, ofTokens, hfold]

/-- The declarations that a tag makes at once are kept. -/
theorem ReadAt.keeps (hread : ReadAt source earlier tag later) :
    Keeps (apply (read source earlier) tag (Statement.ofTag tag)).scopes (ofSource source).scopes := by
  have hredefines := redefines_step hread.declared.pending tag
  rw [hread.step_eq] at hredefines
  obtain ⟨hall, hkeeps⟩ := keeps_foldl hredefines later
  rw [hread.ofSource_eq]
  exact hkeeps.trans (keeps_finish hall source.endPosition)

end ReadAt

open Header (declaredAs loopNames)

section Names

variable {tree later : ScopeTree} {declared : List (ScopeId × Binding)} {scope : ScopeId}
  {name : Token} {kind : IdentifierKind} {statement : Statement}

variable {state : State} {tag : Tag}

end Names

end Outline

end TemplateAnalysis.Template
