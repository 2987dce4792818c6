import TemplateAnalysis.Proofs.Template.Classification
import TemplateAnalysis.Proofs.Template.Evaluation

namespace TemplateAnalysis.Template

theorem Tag.Between.le_of_mem {high low : Position} {tags : List Tag} {tag : Tag}
    (hbetween : Tag.Between high low tags) (hmem : tag ∈ tags) :
    low ≤ tag.start ∧ tag.after ≤ high := by
  induction tags generalizing low with
  | nil => cases hmem
  | cons first rest ih =>
    obtain ⟨hstart, hbody, hrest⟩ := hbetween
    rcases List.mem_cons.mp hmem with rfl | hmem
    · exact ⟨hstart, hrest.le⟩
    · obtain ⟨hlow, hhigh⟩ := ih hrest hmem
      exact ⟨(hstart.trans hbody.le).trans hlow, hhigh⟩

/-- A statement takes its declarations from tokens of its tag. -/
theorem Statement.mem_body_of_declaring {tag : Tag} {name : Token}
    (hname : name ∈ (ofTag tag).declaring) : name ∈ tag.body := by
  obtain ⟨after, passed, uses, hbody, huses, hrecorded⟩ := ofTag_consumes tag
  rw [hrecorded.declared] at hname
  obtain ⟨used, hused, rfl⟩ := List.mem_map.mp hname
  rw [hbody]
  exact List.mem_append_left after (huses.subset (List.mem_map_of_mem (List.mem_filter.mp hused).1))

namespace Outline

section Declarations

variable {state : State} {tag : Tag} {statement : Statement} {id : ScopeId} {binding : Binding}

/-- What a tag declares are names of its own, the variable of a loop, the names that the body of a macro
    has without declaring them, or names for which a block was waiting. -/
inductive DeclaredBy (state : State) (tag : Tag) (statement : Statement) : Binding → Prop
  /-- A name takes effect where it stands, or behind the tag. -/
  | named {name : Token} {kind : IdentifierKind} {visibleFrom : Position}
      (hname : name ∈ statement.declaring)
      (hvisible : name.start.position ≤ visibleFrom ∨ visibleFrom = tag.after) :
      DeclaredBy state tag statement (bind kind visibleFrom name)
  | loop {word : Token} (hword : word ∈ statement.declaring) :
      DeclaredBy state tag statement (loopVariable tag word)
  /-- The names that the body of a macro has stand where the macro has its name, if it has one. -/
  | implicit {name : String} {range : Range} (hname : name ∈ implicitNames)
      (hrange : range = .empty tag.after ∨ ∃ title ∈ statement.declaring, range = title.range) :
      DeclaredBy state tag statement
        { name, kind := .macroParameter, range, visibleFrom := tag.after, implicit := true }
  | settled {block : OpenBlock} {pair : ScopeId × Binding} (hblock : block ∈ state.blocks)
      (hpair : pair ∈ block.pending) :
      DeclaredBy state tag statement { pair.2 with visibleFrom := tag.after }

theorem declaredBy_of_mem (hmem : (id, binding) ∈ declarations state tag statement) :
    DeclaredBy state tag statement binding := by
  -- There are three ways to take names from a tag: visible behind the tag, behind themselves, or
  -- from their beginning on.
  have hbehind : ∀ (kind : IdentifierKind) (names : List Token), names ⊆ statement.declaring →
      binding ∈ names.map (bind kind tag.after) → DeclaredBy state tag statement binding := by
    intro kind names hsubset hmem
    obtain ⟨name, hname, rfl⟩ := List.mem_map.mp hmem
    exact .named (hsubset hname) (.inr rfl)
  have hparameters : ∀ parameters : List Token, parameters ⊆ statement.declaring →
      binding ∈ parameterBindings parameters → DeclaredBy state tag statement binding := by
    intro parameters hsubset hmem
    obtain ⟨parameter, hparameter, rfl⟩ := List.mem_map.mp hmem
    exact .named (hsubset hparameter) (.inl parameter.start_le_stop)
  have htitle : ∀ (scope : ScopeId) (kind : IdentifierKind) (title : Option Token),
      title.toList ⊆ statement.declaring →
      (id, binding) ∈ title.toList.map (fun name => (scope, bind kind name.start.position name)) →
      DeclaredBy state tag statement binding := by
    intro scope kind title hsubset hmem
    obtain ⟨name, hname, hpair⟩ := List.mem_map.mp hmem
    cases hpair
    exact .named (hsubset hname) (.inl (le_refl _))
  cases statement with
  | other | endRaw | evaluate | beginIf | beginSet | beginFilter | beginRaw | otherwise => cases hmem
  | beginFor word targets sequence filter =>
    rcases List.mem_append.mp (mem_scoped.mp hmem).2 with htarget | hloop
    · obtain ⟨_, target, hlisted, rfl⟩ := mem_loopTargets htarget
      exact .named (List.mem_cons_of_mem word hlisted) (.inl target.start_le_stop)
    · exact List.mem_singleton.mp hloop ▸ .loop List.mem_cons_self
  | assign | beginWith | importTemplate | importNames =>
    exact hbehind _ _ (List.Subset.refl _) (mem_scoped.mp hmem).2
  | beginCall word parameters mentions =>
    exact hparameters parameters (List.Subset.refl _) (mem_scoped.mp hmem).2
  | beginBlock word title => exact htitle _ _ _ (List.Subset.refl _) hmem
  | beginMacro word title parameters defaults =>
    rcases List.mem_append.mp hmem with hname | hbody
    · exact htitle _ _ _ (List.subset_append_left _ _) hname
    · rcases List.mem_append.mp (mem_scoped.mp hbody).2 with hparameter | himplicit
      · exact hparameters _ (List.subset_append_right _ _) hparameter
      · obtain ⟨name, hlisted, rfl⟩ := List.mem_map.mp himplicit
        refine .implicit hlisted ?_
        cases title with
        | none => exact .inl rfl
        | some name => exact .inr ⟨name, List.mem_cons_self, rfl⟩
  | endBlock kind =>
    obtain ⟨block, hblock, hsettled⟩ := List.mem_flatMap.mp hmem
    obtain ⟨pair, hpair, hsame⟩ := List.mem_map.mp hsettled
    cases hsame
    exact .settled hblock hpair

end Declarations

variable {source : Source} {tags later : List Tag} {id : ScopeId} {binding : Binding} {range : Range}

/-- Every declaration is made by a tag that is read outside of raw parts. -/
theorem exists_declared
    (htags : Tag.ofTokens source.endPosition (tokenize source.chars) = tags ++ later)
    (hmem : binding ∈ (read source tags).scopes.bindingsOf id) :
    ∃ earlier tag between, tags = earlier ++ tag :: between ∧
      ReadAt source earlier tag (between ++ later) ∧
      (id, binding) ∈ declarations (read source earlier) tag (Statement.ofTag tag) := by
  have hinitial : binding ∉ (ScopeTree.ofEnd source.endPosition).bindingsOf id := by
    cases id with
    | zero => exact List.not_mem_nil
    | succ id => exact List.not_mem_nil
  obtain ⟨earlier, tag, between, hsplit, hread, hbefore, hbehind⟩ := exists_readAt_of
    (P := (binding ∈ ·.scopes.bindingsOf id)) (fun _ _ hmem => hmem) hinitial htags hmem
  exact ⟨earlier, tag, between, hsplit, hread,
    (adds_apply (read source earlier) tag _ id binding hbehind).resolve_left hbefore⟩

/-- For what a block waits, it waits since the tag that opened it. -/
theorem exists_beginSet
    (htags : Tag.ofTokens source.endPosition (tokenize source.chars) = tags ++ later)
    {block : OpenBlock} {pair : ScopeId × Binding} (hblock : block ∈ (read source tags).blocks)
    (hpair : pair ∈ block.pending) :
    ∃ earlier tag between, tags = earlier ++ tag :: between ∧
      ReadAt source earlier tag (between ++ later) ∧
      ∃ names mentions, Statement.ofTag tag = .beginSet names mentions ∧
        ∃ name ∈ names, pair = ((read source earlier).currentScope, bind .setVariable {} name) := by
  obtain ⟨earlier, tag, between, hsplit, hread, hbefore, block, hblock, hpair⟩ := exists_readAt_of
    (P := fun state => ∃ block ∈ state.blocks, pair ∈ block.pending) (fun _ _ => id)
    (fun ⟨_, hnone, _⟩ => List.not_mem_nil hnone) htags ⟨block, hblock, hpair⟩
  exact ⟨earlier, tag, between, hsplit, hread,
    (mem_pending_apply hblock hpair).resolve_left hbefore⟩

/-- A name for which a block waits stands before everything that is read next. -/
theorem start_le_of_pending
    (htags : Tag.ofTokens source.endPosition (tokenize source.chars) = tags ++ later)
    {block : OpenBlock} {pair : ScopeId × Binding} (hblock : block ∈ (read source tags).blocks)
    (hpair : pair ∈ block.pending) :
    pair.2.range.start ≤ source.endPosition ∧ ∀ tag ∈ later, pair.2.range.start ≤ tag.start := by
  obtain ⟨earlier, setting, between, _, hread, names, mentions, hstatement, name, hname, rfl⟩ :=
    exists_beginSet htags hblock hpair
  have hdeclaring : name ∈ (Statement.ofTag setting).declaring := by rwa [hstatement]
  have hstart : name.start.position ≤ setting.after := name.start_le_stop.trans
    (hread.bounded.of_mem (Statement.mem_body_of_declaring hdeclaring)).2
  refine ⟨hstart.trans hread.within, fun tag htag => ?_⟩
  exact hstart.trans (hread.placed.2.le_of_mem (List.mem_append_right between htag)).1

/-- At the end of the file what open blocks wait for takes effect. -/
theorem mem_bindingsOf_ofSource (hmem : binding ∈ (ofSource source).scopes.bindingsOf id) :
    binding ∈ (read source (Tag.ofTokens source.endPosition (tokenize source.chars))).scopes.bindingsOf
      id ∨
    ∃ block ∈ (read source (Tag.ofTokens source.endPosition (tokenize source.chars))).blocks,
      ∃ pair ∈ block.pending, binding = { pair.2 with visibleFrom := source.endPosition } := by
  let state := read source (Tag.ofTokens source.endPosition (tokenize source.chars))
  have hopen : ScopeTree.Gains state.scopes { state with blocks := [] }.scopes [] :=
    ScopeTree.Gains.refl _
  refine (adds_closeAtEnd state.blocks source.endPosition hopen id binding hmem).imp_right ?_
  intro hsettled
  obtain ⟨block, hblock, hpair⟩ := List.mem_flatMap.mp hsettled
  obtain ⟨pair, hpending, hsame⟩ := List.mem_map.mp hpair
  cases hsame
  exact ⟨block, hblock, pair, hpending, rfl⟩

/-- A declaration begins where it takes effect, or before that. -/
theorem start_le_visibleFrom (hmem : binding ∈ (ofSource source).scopes.bindingsOf id) :
    binding.range.start ≤ binding.visibleFrom := by
  rcases mem_bindingsOf_ofSource hmem with hdeclared | ⟨block, hblock, pair, hpending, rfl⟩
  · obtain ⟨earlier, tag, between, _, hread, hnew⟩ :=
      exists_declared (List.append_nil _).symm hdeclared
    have hnames : ∀ name ∈ (Statement.ofTag tag).declaring, name.start.position ≤ tag.after :=
      fun name hname => name.start_le_stop.trans
        (hread.bounded.of_mem (Statement.mem_body_of_declaring hname)).2
    cases declaredBy_of_mem hnew with
    | named hname hvisible =>
      rcases hvisible with hle | rfl
      · exact hle
      · exact hnames _ hname
    | loop hword => exact hnames _ hword
    | implicit _ hrange =>
      rcases hrange with rfl | ⟨title, htitle, rfl⟩
      · exact le_refl _
      · exact hnames title htitle
    | settled hblock hpair =>
      exact ((start_le_of_pending hread.split hblock hpair).2 tag List.mem_cons_self).trans
        hread.bounded.start_lt_after.le
  · exact (start_le_of_pending (List.append_nil _).symm hblock hpending).1

/-- A declaration is a name of a tag, the variable of a loop, or a name that the body of a macro has
    without declaring it. -/
theorem origin_of_mem (hmem : binding ∈ (ofSource source).scopes.bindingsOf id) :
    (∃ tag ∈ Tag.ofTokens source.endPosition (tokenize source.chars),
      ∃ name ∈ (Statement.ofTag tag).declaring,
        binding = bind binding.kind binding.visibleFrom name) ∨
      (binding.kind = .forLoopCount ∧ binding.implicit = false) ∨
      (binding.implicit = true ∧ binding.name ∈ implicitNames) := by
  have hwaiting : ∀ {tags later : List Tag} {after : Position},
      Tag.ofTokens source.endPosition (tokenize source.chars) = tags ++ later →
      (∃ block ∈ (read source tags).blocks, ∃ pair ∈ block.pending,
        binding = { pair.2 with visibleFrom := after }) →
      ∃ tag ∈ Tag.ofTokens source.endPosition (tokenize source.chars),
        ∃ name ∈ (Statement.ofTag tag).declaring,
          binding = bind binding.kind binding.visibleFrom name := by
    rintro tags later after htags ⟨block, hblock, pair, hpair, rfl⟩
    obtain ⟨_, tag, _, _, hread, names, _, hstatement, name, hname, rfl⟩ :=
      exists_beginSet htags hblock hpair
    exact ⟨tag, hread.mem, name, by rwa [hstatement], rfl⟩
  rcases mem_bindingsOf_ofSource hmem with hdeclared | hsettled
  · obtain ⟨earlier, tag, between, _, hread, hnew⟩ :=
      exists_declared (List.append_nil _).symm hdeclared
    cases declaredBy_of_mem hnew with
    | named hname => exact .inl ⟨tag, hread.mem, _, hname, rfl⟩
    | loop => exact .inr (.inl ⟨rfl, rfl⟩)
    | implicit hname => exact .inr (.inr ⟨rfl, hname⟩)
    | settled hblock hpair =>
      exact .inl (hwaiting hread.split ⟨_, hblock, _, hpair, rfl⟩)
  · exact .inl (hwaiting (List.append_nil _).symm hsettled)

/-- A name that is declared, or for which a block waits, was taken from a tag that is read outside of raw
    parts. -/
theorem exists_declaring
    (htags : Tag.ofTokens source.endPosition (tokenize source.chars) = tags ++ later)
    (hmem : range ∈ (read source tags).ranges) :
    ∃ earlier tag between, tags = earlier ++ tag :: between ∧
      ReadAt source earlier tag (between ++ later) ∧
      range ∈ (Statement.ofTag tag).declaring.map Token.range := by
  obtain ⟨earlier, tag, between, hsplit, hread, hbefore, hbehind⟩ := exists_readAt_of
    (P := (range ∈ ·.ranges)) (fun _ _ => id) (Multiset.notMem_zero range) htags hmem
  have hnew := Multiset.mem_of_le (ranges_apply_le (read source earlier) tag _) hbehind
  exact ⟨earlier, tag, between, hsplit, hread,
    Multiset.mem_coe.mp ((Multiset.mem_add.mp hnew).resolve_right hbefore)⟩

theorem exists_declaring_of_mem (hmem : binding ∈ (ofSource source).scopes.bindingsOf id)
    (himplicit : binding.implicit = false) :
    ∃ earlier tag later, ReadAt source earlier tag later ∧
      binding.range ∈ (Statement.ofTag tag).declaring.map Token.range := by
  have hrange := Multiset.mem_of_le
    (ranges_finish_le source.endPosition (read source (Tag.ofTokens source.endPosition _)))
    (ScopeTree.range_mem_ranges hmem himplicit)
  obtain ⟨earlier, tag, between, _, hread, hnames⟩ :=
    exists_declaring (List.append_nil _).symm hrange
  exact ⟨earlier, tag, _, hread, hnames⟩

/-- What was read before a tag was taken from before it. -/
theorem start_lt_of_mem_ranges {earlier : List Tag} {tag : Tag} (hread : ReadAt source earlier tag later)
    (hmem : range ∈ (read source earlier).ranges) : range.start < tag.start := by
  obtain ⟨_, other, between, _, hother, hnames⟩ := exists_declaring hread.split hmem
  obtain ⟨name, hname, rfl⟩ := List.mem_map.mp hnames
  have hbody := Statement.mem_body_of_declaring hname
  calc name.start.position < name.stop.position := hother.bounded.start_lt_stop hbody
    _ ≤ other.after := (hother.bounded.of_mem hbody).2
    _ ≤ tag.start :=
      (hother.placed.2.le_of_mem (List.mem_append_right between List.mem_cons_self)).1

/-- No name is declared twice, and none is declared while a block waits for it. -/
theorem ranges_nodup
    (htags : Tag.ofTokens source.endPosition (tokenize source.chars) = tags ++ later) :
    (read source tags).ranges.Nodup := by
  obtain ⟨uses, _, declared, huses, hrecorded, _, hranges⟩ :=
    exists_recorded { scopes := .ofEnd source.endPosition } tags
  have hinitial : State.ranges { scopes := .ofEnd source.endPosition } = 0 := rfl
  rw [hinitial, add_zero, hrecorded.declared] at hranges
  refine Multiset.nodup_of_le (hranges.trans ?_)
    (Multiset.coe_nodup.mpr (recordedRanges_nodup_of_tags htags huses))
  rw [coe_recordedRanges]
  exact (le_add_of_nonneg_right (Multiset.zero_le _)).trans
    ((le_add_of_nonneg_right (Multiset.zero_le _)).trans (le_add_of_nonneg_left (Multiset.zero_le _)))

/-- A name is not declared as long as a block waits for it. -/
theorem not_mem_bindingsOf_of_pending
    (htags : Tag.ofTokens source.endPosition (tokenize source.chars) = tags ++ later)
    {block : OpenBlock} {pair : ScopeId × Binding} (hblock : block ∈ (read source tags).blocks)
    (hpair : pair ∈ block.pending) (hwaits : pair.2.implicit = false)
    (himplicit : binding.implicit = false) (hrange : pair.2.range = binding.range) :
    binding ∉ (read source tags).scopes.bindingsOf id := by
  intro hdeclared
  obtain ⟨_, _, hdisjoint⟩ := Multiset.nodup_add.mp (ranges_nodup htags)
  have hpending : pair.2 ∈ (read source tags).pending :=
    List.mem_flatMap.mpr ⟨block, hblock, List.mem_map_of_mem hpair⟩
  refine Multiset.disjoint_left.mp hdisjoint (ScopeTree.range_mem_ranges hdeclared himplicit) ?_
  exact hrange ▸ range_mem_declaredRanges hpending hwaits

end Outline

end TemplateAnalysis.Template
