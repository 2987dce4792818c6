import TemplateAnalysis.Proofs.Template.Origin

namespace TemplateAnalysis.Template

/-- Whether the names of a statement take effect behind its tag: it assigns them, imports them or gives
    them to a block. -/
def Statement.bindsBehind : Statement → Bool
  | .assign _ _ | .beginWith _ _ _ | .importTemplate _ _ | .importNames _ _ => true
  | _ => false

namespace Outline

section BlockEnd

variable {state : State} {block : OpenBlock} {inner outer : List OpenBlock}

/-- The tag that ends a block which stands above a number of other ones: the first tag behind which no
    more blocks than those are open. -/
def blockEnd? (depth : Nat) (state : State) : List Tag → Option Tag
  | [] => none
  | tag :: rest =>
    if (step state tag).blocks.length ≤ depth then some tag
    else blockEnd? depth (step state tag) rest

/-- A block stays as it is until a tag ends it. Only the block of a loop can change before that. -/
theorem blocks_step_cases (hkind : block.kind ≠ .forLoop)
    (hblocks : state.blocks = inner ++ block :: outer) (tag : Tag) :
    (∃ inner, (step state tag).blocks = inner ++ block :: outer) ∨
      (step state tag).blocks.length ≤ outer.length ∧ state.raw = false ∧
        ∃ kind, Statement.ofTag tag = .endBlock kind := by
  simp only [step]
  split
  · split <;> exact .inl ⟨inner, hblocks⟩
  next hraw =>
    cases hstatement : Statement.ofTag tag with
    | other | endRaw | evaluate | beginRaw => exact .inl ⟨inner, hblocks⟩
    | assign | importTemplate | importNames =>
      exact .inl ⟨inner, by simpa [apply, State.record] using hblocks⟩
    | beginIf | beginSet | beginFilter | beginFor | beginWith | beginMacro | beginCall | beginBlock =>
      refine .inl ⟨_ :: inner, congrArg (List.cons _) ?_⟩
      simpa [State.define, State.startBody, State.record, State.addScope] using hblocks
    | otherwise =>
      refine .inl ?_
      simp only [apply, endLoopBody]
      split
      next scope pending rest hmatch =>
        -- An else changes the block on top, and this one is not the block of a loop.
        rw [hblocks] at hmatch
        cases inner with
        | nil =>
          obtain ⟨rfl, _⟩ := List.cons.inj hmatch
          exact absurd rfl hkind
        | cons first inner =>
          obtain ⟨_, hrest⟩ := List.cons.inj hmatch
          exact ⟨_ :: inner, by rw [← hrest]; rfl⟩
      next => exact ⟨inner, hblocks⟩
    | endBlock kind =>
      rw [apply]
      rcases endBlock_cases tag kind state with hsame | ⟨closed, left, hclosed, hafter⟩
      · exact .inl ⟨inner, by rw [hsame, hblocks]⟩
      · rw [hafter, State.blocks_closeAll]
        rw [hclosed] at hblocks
        -- The end takes off blocks above this one, or this one too and then all of those above it.
        rcases List.append_eq_append_iff.mp hblocks with ⟨others, _, hleft⟩ | ⟨others, _, hrest⟩
        · exact .inl ⟨others, hleft⟩
        · cases others with
          | nil => exact .inl ⟨[], hrest.symm⟩
          | cons _ others =>
            obtain ⟨_, houter⟩ := List.cons.inj hrest
            refine .inr ⟨?_, Bool.eq_false_of_not_eq_true hraw, kind, rfl⟩
            simp [houter]

/-- A block is open behind all tags, or there is one that ends it. -/
theorem blockEnd?_cases (hkind : block.kind ≠ .forLoop)
    (hblocks : state.blocks = inner ++ block :: outer) (tags : List Tag) :
    (∃ inner, (tags.foldl step state).blocks = inner ++ block :: outer) ∨
      ∃ between closing after, tags = between ++ closing :: after ∧
        blockEnd? outer.length state tags = some closing ∧
        (∃ inner, (between.foldl step state).blocks = inner ++ block :: outer) ∧
        (between.foldl step state).raw = false ∧
        ∃ kind, Statement.ofTag closing = .endBlock kind := by
  induction tags generalizing state inner with
  | nil => exact .inl ⟨inner, hblocks⟩
  | cons tag rest ih =>
    rw [blockEnd?]
    rcases blocks_step_cases hkind hblocks tag with ⟨inner, hopen⟩ | ⟨hended, hraw, hstatement⟩
    · have hlength : ¬ (step state tag).blocks.length ≤ outer.length := by
        rw [hopen, List.length_append, List.length_cons]
        omega
      rw [if_neg hlength]
      refine (ih hopen).imp_right ?_
      rintro ⟨between, closing, after, rfl, hend, hfound⟩
      exact ⟨tag :: between, closing, after, rfl, hend, hfound⟩
    · rw [if_pos hended]
      exact .inr ⟨[], tag, rest, rfl, rfl, ⟨inner, hblocks⟩, hraw, hstatement⟩

end BlockEnd

section ReadAt

variable {source : Source} {earlier later : List Tag} {tag : Tag} {id : ScopeId} {binding : Binding}

/-- The end of the file marks the scopes of the blocks that are open, and moves none. -/
theorem marked_finish {state : State} {stop now : Position} (hnested : state.Nested stop now) :
    ScopeTree.Marked (state.openScopes.reverse ++ []) state.scopes (finish stop state).scopes := by
  refine marked_closeAtEnd state.blocks (fun scope hscope => ?_)
    (.refl (ScopeTree.Nested.notOpenEnded hnested))
  refine ⟨ScopeTree.Nested.lt_nextId_of_mem hnested hscope, fun range hrange => ?_⟩
  obtain ⟨start, hfound, hstart⟩ := ScopeTree.Nested.range_open hnested scope hscope
  rw [hfound, Option.some.injEq] at hrange
  subst hrange
  exact ⟨rfl, hstart.trans (ScopeTree.Nested.within hnested)⟩

/-- The scopes around a tag that ends none of them contain it. -/
theorem ReadAt.inside (hread : ReadAt source earlier tag later)
    (hopens : (Statement.ofTag tag).closes = false)
    (hid : id ∈ (read source earlier).openScopes) :
    ∃ range, (ofSource source).scopes.range? id = some range ∧ range.start ≤ tag.start ∧
      tag.after ≤ range.stop := by
  have hnested := hread.declared.nested
  have hroot : id ≠ ScopeTree.root := fun hsame =>
    ScopeTree.Nested.notRoot hnested (hsame ▸ hid)
  have hcovers : ∀ position, tag.start ≤ position → position < tag.after →
      (ofSource source).scopes.covers id position = true := by
    intro position hstart hlt
    rw [hread.extended.covers id position hlt, covers_apply hopens hlt]
    exact (ScopeTree.Nested.covers_iff_mem hnested hstart (hlt.trans_le hread.within) hroot).mpr hid
  obtain ⟨now, hdeclared, _⟩ := declared_read
    (List.append_nil (Tag.ofTokens source.endPosition (tokenize source.chars))).symm
  have hmarked := marked_finish hdeclared.nested
  obtain ⟨range, hrange, hstart, _⟩ :=
    hmarked.covers_iff.mp (hcovers tag.start (le_refl _) hread.bounded.start_lt_after)
  refine ⟨range, (hmarked.range? id).trans hrange, hstart, le_of_not_gt fun hstop => ?_⟩
  obtain ⟨other, hother, _, hbehind⟩ := hmarked.covers_iff.mp
    (hcovers (max tag.start range.stop) (le_max_left _ _) (max_lt hread.bounded.start_lt_after hstop))
  obtain rfl : range = other := Option.some.inj (hrange.symm.trans hother)
  rcases hbehind with hlt | ⟨hopen, _⟩
  · exact (le_max_right tag.start range.stop).not_gt hlt
  · rw [List.append_nil, List.mem_reverse] at hopen
    obtain ⟨start, hfound, _⟩ := ScopeTree.Nested.range_open hdeclared.nested id hopen
    obtain rfl : range = _ := Option.some.inj (hrange.symm.trans hfound)
    exact hread.within.not_gt hstop

/-- The scopes in which a reference is looked up: those around its tag, and the one of a loop for its
    filter. -/
theorem ReadAt.chain_cases {reference : Reference} (hread : ReadAt source earlier tag later)
    (hevaluated : reference ∈ evaluated (read source earlier) (Statement.ofTag tag))
    (hid : id ∈ (ofSource source).scopes.chainIds reference.scope) :
    id = ScopeTree.root ∨ id ∈ (read source earlier).openScopes ∨
      id = (read source earlier).scopes.nextId ∧
        reference.toName ∈ (Statement.ofTag tag).filter.references := by
  have hat := hread.evaluatedAt hevaluated
  have hcurrent : id ∈ (ofSource source).scopes.chainIds (read source earlier).currentScope →
      id = ScopeTree.root ∨ id ∈ (read source earlier).openScopes := by
    intro hmem
    rw [hat.chainIds, State.currentScope_eq, ScopeTree.Nested.chain hread.declared.nested] at hmem
    exact (List.mem_append.mp hmem).symm.imp_left List.mem_singleton.mp
  rcases scope_evaluated hevaluated with hscope | ⟨hscope, hfilter⟩
  · exact (hcurrent (hscope ▸ hid)).imp_right .inl
  · rw [hscope, ScopeTree.chainIds_of_parent (hat.parent?_filter hfilter)
      hread.declared.currentScope_lt] at hid
    rcases List.mem_cons.mp hid with rfl | hmem
    · exact .inr (.inr ⟨rfl, hfilter⟩)
    · exact (hcurrent hmem).imp_right .inl

/-- What a tag binds behind it takes effect there. -/
theorem ReadAt.after_le_visibleFrom (hread : ReadAt source earlier tag later)
    (hmem : binding ∈ (ofSource source).scopes.bindingsOf id) (himplicit : binding.implicit = false)
    (hbinds : (Statement.ofTag tag).bindsBehind = true)
    (hname : binding.range ∈ (Statement.ofTag tag).declaring.map Token.range) :
    tag.after ≤ binding.visibleFrom := by
  rcases hread.extended.bindingsOf id binding hmem with happlied | hlater
  · rcases adds_apply _ tag _ id binding happlied with hearlier | hnew
    · obtain ⟨name, hname, hrange⟩ := List.mem_map.mp hname
      have hbefore : binding.range.start < tag.start := start_lt_of_mem_ranges hread <|
        Multiset.mem_of_le (Multiset.le_add_right _ _) (ScopeTree.range_mem_ranges hearlier himplicit)
      have hbehind : tag.start < binding.range.start := hrange ▸
        (hread.bounded.of_mem (Statement.mem_body_of_declaring hname)).1
      exact absurd hbefore hbehind.not_gt
    · cases hstatement : Statement.ofTag tag with
      | assign | beginWith | importTemplate | importNames =>
        rw [hstatement] at hnew
        obtain ⟨_, _, rfl⟩ := List.mem_map.mp (mem_scoped.mp hnew).2
        exact le_refl _
      | _ =>
        rw [hstatement] at hbinds
        cases hbinds
  · exact hlater

/-- What a block of text declares takes effect behind the tag that ends the block. -/
theorem ReadAt.exists_blockEnd (hread : ReadAt source earlier tag later) {names : List Token}
    {mentions : Mentions} {name : Token} (hstatement : Statement.ofTag tag = .beginSet names mentions)
    (hname : name ∈ names) (hmem : binding ∈ (ofSource source).scopes.bindingsOf id)
    (himplicit : binding.implicit = false) (hrange : name.range = binding.range)
    (hbefore : binding.visibleFrom < source.endPosition) :
    ∃ closing kind, blockEnd? (read source earlier).blocks.length (read source (earlier ++ [tag]))
      later = some closing ∧ Statement.ofTag closing = .endBlock kind ∧
      closing.after ≤ binding.visibleFrom := by
  let pending := names.map fun target =>
    ((read source earlier).currentScope, bind .setVariable {} target)
  have hopened : (read source (earlier ++ [tag])).blocks =
      [] ++ { kind := .setBlock, pending } :: (read source earlier).blocks := by
    rw [read_concat, hread.step_eq, hstatement]
    rfl
  -- As long as the block is open its names wait, and what waits is in no scope.
  have hwaits : ∀ {tags rest inner}, Tag.ofTokens source.endPosition (tokenize source.chars) =
      tags ++ rest → (read source tags).blocks =
        inner ++ { kind := .setBlock, pending } :: (read source earlier).blocks →
      binding ∉ (read source tags).scopes.bindingsOf id := by
    intro tags rest inner htags hblocks
    have hblock : ({ kind := .setBlock, pending } : OpenBlock) ∈ (read source tags).blocks :=
      hblocks ▸ List.mem_append_right inner List.mem_cons_self
    exact not_mem_bindingsOf_of_pending htags hblock (List.mem_map_of_mem hname) rfl himplicit hrange
  have htags : Tag.ofTokens source.endPosition (tokenize source.chars) =
      (earlier ++ [tag]) ++ later := by
    rw [hread.split, List.append_assoc, List.singleton_append]
  rcases blockEnd?_cases (by simp) hopened later with
    ⟨inner, hopen⟩ | ⟨between, closing, after, rfl, hend, ⟨inner, hopen⟩, hraw, kind, hclosing⟩
  · rw [read, ← List.foldl_append, ← htags] at hopen
    rcases mem_bindingsOf_ofSource hmem with hdeclared | ⟨_, _, pair, _, rfl⟩
    · exact absurd hdeclared (hwaits (List.append_nil _).symm hopen)
    · exact absurd hbefore (lt_irrefl _)
  · rw [← List.append_assoc] at htags
    rw [read, ← List.foldl_append] at hopen hraw
    have hreadClosing : ReadAt source ((earlier ++ [tag]) ++ between) closing after := ⟨htags, hraw⟩
    refine ⟨closing, kind, hend, hclosing, ?_⟩
    rcases hreadClosing.extended.bindingsOf id binding hmem with happlied | hlate
    · rcases adds_apply _ closing _ id binding happlied with hdeclared | hnew
      · exact absurd hdeclared (hwaits htags hopen)
      · rw [hclosing] at hnew
        obtain ⟨_, _, hpair⟩ := List.mem_flatMap.mp hnew
        obtain ⟨_, _, hsame⟩ := List.mem_map.mp hpair
        cases hsame
        exact le_refl _
    · exact hlate

end ReadAt

/-- No reference begins where a name is declared. -/
theorem start_ne_of_reference {source : Source} {reference : Reference} {id : ScopeId}
    {binding : Binding} (hreference : reference ∈ (ofSource source).references)
    (hwide : reference.range.start < reference.range.stop)
    (hmem : binding ∈ (ofSource source).scopes.bindingsOf id) (himplicit : binding.implicit = false) :
    binding.range.start ≠ reference.range.start := by
  intro hsame
  obtain ⟨_, tag, _, hread, hnames⟩ := exists_declaring_of_mem hmem himplicit
  obtain ⟨name, hname, hrange⟩ := List.mem_map.mp hnames
  have hnonempty : binding.range.start < binding.range.stop := hrange ▸
    hread.bounded.start_lt_stop (Statement.mem_body_of_declaring hname)
  have happart := reference_apart hreference (ScopeTree.range_mem_ranges hmem himplicit)
  have hcontained := happart reference.range.start (by simp [Range.contains, hwide])
  rw [← hsame] at hcontained
  simp [Range.contains, hnonempty] at hcontained

/-- How a reference stands to the declaration that it refers to, in the scope of the declaration. -/
structure StandsBehind (source : Source) (reference : Reference) (id : ScopeId) (binding : Binding) :
    Prop where
  /-- No reference stands before the name that is declared. -/
  start_le : binding.range.start ≤ reference.range.start
  /-- A reference does not stand at the name itself either. Names that a macro binds without naming them
      have no place of their own. -/
  start_lt : binding.implicit = false → binding.range.start < reference.range.start
  /-- The reference lies in the scope of the declaration, or in the filter of the loop to which the scope
      belongs. -/
  inside : id = ScopeTree.root ∨
    (∃ range, (ofSource source).scopes.range? id = some range ∧
      range.start ≤ reference.range.start ∧ reference.range.stop ≤ range.stop) ∨
    ∃ earlier tag later, ReadAt source earlier tag later ∧
      id = (read source earlier).scopes.nextId ∧
      reference.toName ∈ (Statement.ofTag tag).filter.references
  /-- Some statement of the template has declared the name. -/
  declared : binding.implicit = false → ∃ earlier tag later, ReadAt source earlier tag later ∧
    binding.range ∈ (Statement.ofTag tag).declaring.map Token.range
  /-- If the statement assigns the name, imports it or gives it to a block, the reference stands behind
      the tag of the statement. -/
  behind_tag : binding.implicit = false → ∀ earlier tag later, ReadAt source earlier tag later →
    binding.range ∈ (Statement.ofTag tag).declaring.map Token.range →
    (Statement.ofTag tag).bindsBehind = true → tag.after ≤ reference.range.start
  /-- If the statement assigns a block of text to the name, the reference stands behind the tag that ends
      the block. -/
  behind_block : binding.implicit = false → ∀ earlier tag later, ReadAt source earlier tag later →
    binding.range ∈ (Statement.ofTag tag).declaring.map Token.range →
    ∀ names mentions, Statement.ofTag tag = .beginSet names mentions →
    ∃ closing kind, blockEnd? (read source earlier).blocks.length (read source (earlier ++ [tag]))
      later = some closing ∧ Statement.ofTag closing = .endBlock kind ∧
      closing.after ≤ reference.range.start

/-- No variable is used before its declaration, whatever the template looks like. -/
theorem resolve_standsBehind {source : Source} {reference : Reference} {id : ScopeId}
    {binding : Binding} (hreference : reference ∈ (ofSource source).references)
    (hresolve : (ofSource source).scopes.resolve reference.scope reference.text
      reference.range.start = some (id, binding)) :
    StandsBehind source reference id binding := by
  obtain ⟨hid, hmem, hvisible⟩ := ScopeTree.mem_of_resolve hresolve
  obtain ⟨earlier, tag, later, hread, hevaluated⟩ := exists_readAt hreference
  obtain ⟨hstart, hwide, hstop⟩ := hread.placed.1.wordNames.2 reference.toName
    ((Statement.ofTag_sublist tag).subset (toName_mem_mentions hevaluated))
  have hle : binding.range.start ≤ reference.range.start :=
    (start_le_visibleFrom hmem).trans hvisible
  have hbefore : binding.visibleFrom < source.endPosition :=
    (hvisible.trans_lt hwide).trans_le (hstop.trans hread.within)
  refine ⟨hle, fun himplicit => lt_of_le_of_ne hle fun hsame => ?_, ?_,
    exists_declaring_of_mem hmem, ?_, ?_⟩
  · exact start_ne_of_reference hreference hwide hmem himplicit hsame
  · rcases hread.chain_cases hevaluated hid with hroot | hopen | ⟨hnext, hfilter⟩
    · exact .inl hroot
    · obtain ⟨range, hrange, hfirst, hlast⟩ := hread.inside (closes_evaluated hevaluated) hopen
      exact .inr (.inl ⟨range, hrange, hfirst.trans hstart, hstop.trans hlast⟩)
    · exact .inr (.inr ⟨earlier, tag, later, hread, hnext, hfilter⟩)
  · intro himplicit before declaring behind hdeclaring hname hbinds
    exact (hdeclaring.after_le_visibleFrom hmem himplicit hbinds hname).trans hvisible
  · intro himplicit before declaring behind hdeclaring hname names mentions hstatement
    obtain ⟨name, hname, hrange⟩ := List.mem_map.mp hname
    rw [hstatement] at hname
    obtain ⟨closing, kind, hend, hclosing, hafter⟩ :=
      hdeclaring.exists_blockEnd hstatement hname hmem himplicit hrange hbefore
    exact ⟨closing, kind, hend, hclosing, hafter.trans hvisible⟩

/-- A reference behind the block that declares its variable. -/
theorem resolve_standsBehind_block :
    let source : Source := { name := "page.html"
                             text := "\x7b% set x %\x7d\x7b% endset %\x7d\x7b\x7b x \x7d\x7d" }
    let reference : Reference :=
      { text := "x", range := ⟨⟨0, 26⟩, ⟨0, 27⟩⟩, scope := ScopeTree.root }
    let binding : Binding :=
      { name := "x", kind := .setVariable, range := ⟨⟨0, 7⟩, ⟨0, 8⟩⟩, visibleFrom := ⟨0, 23⟩ }
    reference ∈ (ofSource source).references ∧
      (ofSource source).scopes.resolve reference.scope reference.text reference.range.start =
        some (ScopeTree.root, binding) ∧
      StandsBehind source reference ScopeTree.root binding := by
  intro source reference binding
  have hreference : reference ∈ (ofSource source).references := by decide +kernel
  have hresolve : (ofSource source).scopes.resolve reference.scope reference.text
      reference.range.start = some (ScopeTree.root, binding) := by decide +kernel
  exact ⟨hreference, hresolve, resolve_standsBehind hreference hresolve⟩

end Outline

end TemplateAnalysis.Template
