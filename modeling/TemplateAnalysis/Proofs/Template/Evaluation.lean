import TemplateAnalysis.Proofs.Scope.Visible
import TemplateAnalysis.Proofs.Template.Growth
import TemplateAnalysis.Proofs.Template.Layout
import TemplateAnalysis.Proofs.Template.References
import TemplateAnalysis.Proofs.Template.Usage

namespace TemplateAnalysis.Template

/-- What a statement evaluates in the scope that it opens: the filter of a loop. -/
def Statement.filter : Statement → Mentions
  | .beginFor _ _ _ filter => filter
  | _ => {}

/-- The filter of a loop uses a name, and a target of the loop has this name. -/
def Tag.FiltersTarget (tag : Tag) (name : Name) : Prop :=
  name ∈ (Statement.ofTag tag).filter.references ∧
    ∃ target ∈ (Statement.ofTag tag).declaredNames, target.text = name.text

instance (tag : Tag) (name : Name) : Decidable (tag.FiltersTarget name) :=
  inferInstanceAs (Decidable (_ ∧ _))

namespace Outline

variable {state : State} {statement : Statement} {reference : Reference}

theorem toName_mem_mentions (hmem : reference ∈ evaluated state statement) :
    reference.toName ∈ statement.mentions.references :=
  toName_evaluated state statement ▸ List.mem_map_of_mem hmem

/-- A reference is evaluated in the current scope, or in the filter of a loop. -/
theorem scope_evaluated (hmem : reference ∈ evaluated state statement) :
    reference.scope = state.currentScope ∨
      reference.scope = state.scopes.nextId ∧ reference.toName ∈ statement.filter.references := by
  have hcurrent : ∀ names : List Name,
      reference ∈ names.map (fun name => { name with scope := state.currentScope : Reference }) →
      reference.scope = state.currentScope := by
    intro names hmem
    obtain ⟨_, _, rfl⟩ := List.mem_map.mp hmem
    rfl
  cases statement with
  | beginFor word targets sequence filter =>
    rcases List.mem_append.mp hmem with hmem | hmem
    · exact .inl (hcurrent _ hmem)
    · obtain ⟨name, hname, rfl⟩ := List.mem_map.mp hmem
      exact .inr ⟨rfl, hname⟩
  | _ => exact .inl (hcurrent _ hmem)

theorem closes_evaluated (hmem : reference ∈ evaluated state statement) :
    statement.closes = false := by
  cases statement with
  | otherwise | endBlock => cases hmem
  | _ => rfl

/-- A declaration of a tag outside of the scope that it opens takes effect before what the tag
    evaluates or behind the tag. -/
theorem declarations_apart {tag : Tag} {id : ScopeId} {binding : Binding} {name : Name}
    (hbody : Token.Between tag.after tag.start tag.body)
    (hmem : (id, binding) ∈ declarations state tag (Statement.ofTag tag))
    (hid : id < state.scopes.nextId) (hname : name ∈ (Statement.ofTag tag).mentions.references) :
    binding.visibleFrom ≤ name.range.start ∨ tag.after ≤ binding.visibleFrom := by
  have hinner : ∀ bindings : List Binding,
      (id, binding) ∉ bindings.map (state.scopes.nextId, ·) :=
    fun bindings hmem => hid.ne (mem_scoped.mp hmem).1.symm
  have houter : ∀ (kind : IdentifierKind) (names : List Token),
      (id, binding) ∈ (names.map (bind kind tag.after)).map (state.currentScope, ·) →
      tag.after ≤ binding.visibleFrom := by
    intro kind names hmem
    obtain ⟨_, _, rfl⟩ := List.mem_map.mp (mem_scoped.mp hmem).2
    exact le_refl _
  have htitle := hbody.wordNames.1.sublist (Statement.ofTag_title_sublist tag)
  generalize Statement.ofTag tag = statement at hmem hname htitle
  cases statement with
  | other | endRaw | evaluate | beginIf | otherwise | beginSet | beginFilter | beginRaw => cases hmem
  | beginBlock | endBlock => cases hname
  | beginFor | beginWith | beginCall => exact absurd hmem (hinner _)
  | assign targets value => exact .inr (houter _ targets hmem)
  | importTemplate mentions alias? => exact .inr (houter _ alias?.toList hmem)
  | importNames mentions names => exact .inr (houter _ names hmem)
  | beginMacro word title parameters defaults =>
    rcases List.mem_append.mp hmem with hmem | hmem
    · obtain ⟨token, htoken, hpair⟩ := List.mem_map.mp hmem
      cases hpair
      have hstop : token.stop.position ≤ name.range.start :=
        (List.pairwise_append.mp htitle).2.2 token.name (List.mem_map_of_mem htoken) name hname
      exact .inl (token.start_le_stop.trans hstop)
    · exact absurd hmem (hinner _)

/-- The state after some of the tags of a template. -/
def read (source : Source) (tags : List Tag) : State :=
  tags.foldl step { scopes := .ofEnd source.endPosition }

theorem read_concat (source : Source) (tags : List Tag) (tag : Tag) :
    read source (tags ++ [tag]) = step (read source tags) tag :=
  List.foldl_concat step _ tag tags

/-- Reading can stop between any two tags of a template. -/
theorem declared_read {source : Source} {earlier later : List Tag}
    (htags : Tag.ofTokens source.endPosition (tokenize source.chars) = earlier ++ later) :
    ∃ now, Declared source.endPosition now (read source earlier) ∧
      Tag.Between source.endPosition now later ∧ ∀ tag ∈ later, tag.Bounded := by
  have hbetween := tags_between source
  have hbounded := tags_bounded source
  rw [htags] at hbetween hbounded
  obtain ⟨now, hearlier, hlater⟩ := hbetween.split
  obtain ⟨hboundedEarlier, hboundedLater⟩ := List.forall_mem_append.mp hbounded
  exact ⟨now, declared_foldl (declared_initial _) hearlier hlater.le hboundedEarlier, hlater,
    hboundedLater⟩

/-- What is read later leaves the scopes as they are up to there. -/
theorem extends_read {source : Source} {earlier later : List Tag} {now : Position}
    (htags : Tag.ofTokens source.endPosition (tokenize source.chars) = earlier ++ later)
    (hdeclared : Declared source.endPosition now (read source earlier))
    (hlater : Tag.Between source.endPosition now later) (hbounded : ∀ tag ∈ later, tag.Bounded) :
    (read source earlier).scopes.Extends now (ofSource source).scopes := by
  have hall := declared_foldl hdeclared hlater (le_refl _) hbounded
  have hgrown := (extends_foldl hdeclared hlater (le_refl _) hbounded (le_refl now)).trans
    (extends_finish hall.nested hlater.le)
  have hread : later.foldl step (read source earlier) = read source (earlier ++ later) :=
    List.foldl_append.symm
  rw [hread, ← htags] at hgrown
  exact hgrown

/-- A tag of a template that is read outside of raw parts, with the tags before it and behind it. -/
structure ReadAt (source : Source) (earlier : List Tag) (tag : Tag) (later : List Tag) : Prop where
  split : Tag.ofTokens source.endPosition (tokenize source.chars) = earlier ++ tag :: later
  raw : (read source earlier).raw = false

namespace ReadAt

variable {source : Source} {earlier later : List Tag} {tag : Tag}

theorem mem (hread : ReadAt source earlier tag later) :
    tag ∈ Tag.ofTokens source.endPosition (tokenize source.chars) :=
  hread.split ▸ List.mem_append_right earlier List.mem_cons_self

theorem bounded (hread : ReadAt source earlier tag later) : tag.Bounded :=
  tags_bounded source tag hread.mem

theorem declared (hread : ReadAt source earlier tag later) :
    Declared source.endPosition tag.start (read source earlier) := by
  obtain ⟨now, hdeclared, ⟨hstart, hbody, hlater⟩, _⟩ := declared_read hread.split
  exact hdeclared.mono hstart (hbody.le.trans hlater.le)

/-- The tokens of the tag stand in it, and the later tags stand behind it. -/
theorem placed (hread : ReadAt source earlier tag later) :
    Token.Between tag.after tag.start tag.body ∧ Tag.Between source.endPosition tag.after later := by
  obtain ⟨now, _, ⟨_, hbody, hlater⟩, _⟩ := declared_read hread.split
  exact ⟨hbody, hlater⟩

theorem within (hread : ReadAt source earlier tag later) : tag.after ≤ source.endPosition :=
  hread.placed.2.le

theorem step_eq (hread : ReadAt source earlier tag later) : step (read source earlier) tag =
    apply (read source earlier) tag (Statement.ofTag tag) := by
  rw [step, hread.raw]
  rfl

/-- What is read behind the tag takes effect behind it. -/
theorem extended (hread : ReadAt source earlier tag later) :
    (apply (read source earlier) tag (Statement.ofTag tag)).scopes.Extends tag.after
      (ofSource source).scopes := by
  obtain ⟨hbody, hlater⟩ := hread.placed
  have hbounded : ∀ other ∈ later, other.Bounded := fun other hother =>
    tags_bounded source other (hread.split ▸ List.mem_append_right _ (List.mem_cons_of_mem _ hother))
  have hstep := declared_step hread.declared (le_refl _) hread.bounded hbody hread.within
  have htags : Tag.ofTokens source.endPosition (tokenize source.chars) = earlier ++ [tag] ++ later := by
    rw [hread.split, List.append_assoc, List.singleton_append]
  rw [← read_concat] at hstep
  rw [← hread.step_eq, ← read_concat]
  exact extends_read htags hstep hlater hbounded

end ReadAt

/-- What comes to hold while a template is read comes to hold at one of the tags. The beginning and the
    end of a raw part do not count. -/
theorem exists_readAt_of {source : Source} {P : State → Prop}
    (hraw : ∀ state raw, P { state with raw } → P state)
    (hinitial : ¬ P { scopes := .ofEnd source.endPosition }) {tags later : List Tag}
    (htags : Tag.ofTokens source.endPosition (tokenize source.chars) = tags ++ later)
    (hlater : P (read source tags)) :
    ∃ earlier tag between, tags = earlier ++ tag :: between ∧
      ReadAt source earlier tag (between ++ later) ∧ ¬ P (read source earlier) ∧
      P (apply (read source earlier) tag (Statement.ofTag tag)) := by
  induction tags using List.reverseRecOn generalizing later with
  | nil => exact absurd hlater hinitial
  | append_singleton init tag ih =>
    rw [List.append_assoc, List.singleton_append] at htags
    by_cases hinit : P (read source init)
    · obtain ⟨earlier, other, between, rfl, hread, hbefore, hbehind⟩ := ih htags hinit
      refine ⟨earlier, other, between ++ [tag], ?_, ?_, hbefore, hbehind⟩
      · rw [List.append_assoc, List.cons_append]
      · rwa [List.append_assoc, List.singleton_append]
    · rw [read_concat, step] at hlater
      split at hlater
      · split at hlater
        · exact absurd (hraw _ _ hlater) hinit
        · exact absurd hlater hinit
      next hoff => exact ⟨init, tag, [], rfl, ⟨htags, Bool.eq_false_of_not_eq_true hoff⟩, hinit, hlater⟩

/-- A reference is evaluated by a tag that is read outside of raw parts. -/
theorem exists_readAt {source : Source} (hmem : reference ∈ (ofSource source).references) :
    ∃ earlier tag later, ReadAt source earlier tag later ∧
      reference ∈ evaluated (read source earlier) (Statement.ofTag tag) := by
  let tags := Tag.ofTokens source.endPosition (tokenize source.chars)
  have hreferences : (ofSource source).references = (read source tags).references :=
    State.references_closeAtEnd { read source tags with blocks := [] } _ source.endPosition
  rw [hreferences] at hmem
  obtain ⟨earlier, tag, between, _, hread, hbefore, hbehind⟩ := exists_readAt_of
    (P := (reference ∈ ·.references)) (fun _ _ => id) List.not_mem_nil (List.append_nil tags).symm hmem
  rw [references_apply] at hbehind
  exact ⟨earlier, tag, _, hread, (List.mem_append.mp hbehind).resolve_left hbefore⟩

/-- A reference of a template with the tag that evaluates it and the state of the reading before this
    tag. -/
structure EvaluatedAt (source : Source) (reference : Reference) (state : State) (tag : Tag) :
    Prop where
  mem : tag ∈ Tag.ofTokens source.endPosition (tokenize source.chars)
  evaluated : reference ∈ evaluated state (Statement.ofTag tag)
  declared : Declared source.endPosition tag.start state
  body : Token.Between tag.after tag.start tag.body
  within : tag.after ≤ source.endPosition
  extended : (apply state tag (Statement.ofTag tag)).scopes.Extends tag.after (ofSource source).scopes

theorem ReadAt.evaluatedAt {source : Source} {earlier later : List Tag} {tag : Tag}
    (hread : ReadAt source earlier tag later)
    (hevaluated : reference ∈ evaluated (read source earlier) (Statement.ofTag tag)) :
    EvaluatedAt source reference (read source earlier) tag :=
  ⟨hread.mem, hevaluated, hread.declared, hread.placed.1, hread.within, hread.extended⟩

theorem exists_evaluatedAt {source : Source} (hmem : reference ∈ (ofSource source).references) :
    ∃ state tag, EvaluatedAt source reference state tag := by
  obtain ⟨earlier, tag, later, hread, hevaluated⟩ := exists_readAt hmem
  exact ⟨_, tag, hread.evaluatedAt hevaluated⟩

namespace EvaluatedAt

variable {source : Source} {tag : Tag} {position : Position} {id : ScopeId} {binding : Binding}

theorem lt_after (hread : EvaluatedAt source reference state tag) :
    tag.start ≤ reference.range.start ∧ reference.range.start < tag.after := by
  have hmentioned := (Statement.ofTag_sublist tag).subset (toName_mem_mentions hread.evaluated)
  obtain ⟨hstart, hlt, hle⟩ := hread.body.wordNames.2 _ hmentioned
  exact ⟨hstart, hlt.trans_le hle⟩

/-- Within the tag the scopes cover what they cover before it. -/
theorem covers (hread : EvaluatedAt source reference state tag) (id : ScopeId)
    (hlt : position < tag.after) :
    (ofSource source).scopes.covers id position = state.scopes.covers id position :=
  (hread.extended.covers id position hlt).trans
    (covers_apply (closes_evaluated hread.evaluated) hlt)

/-- The scope in which a tag is read is the innermost one all over the tag. -/
theorem innermostAt (hread : EvaluatedAt source reference state tag) (hstart : tag.start ≤ position)
    (hlt : position < tag.after) :
    (ofSource source).scopes.innermostAt position = state.currentScope := by
  rw [State.currentScope_eq]
  refine ScopeTree.Nested.innermostAt_eq hread.declared.nested fun id hroot => ?_
  rw [hread.covers id hlt]
  exact ScopeTree.Nested.covers_iff_mem hread.declared.nested hstart (hlt.trans_le hread.within) hroot

theorem parent? (hread : EvaluatedAt source reference state tag) (hid : id < state.scopes.nextId) :
    (ofSource source).scopes.parent? id = state.scopes.parent? id := by
  have hcloses := closes_evaluated hread.evaluated
  rw [hread.extended.parent? id (hid.trans_le (nextId_apply hcloses)), parent?_apply hcloses hid]

theorem chainIds (hread : EvaluatedAt source reference state tag) :
    (ofSource source).scopes.chainIds state.currentScope =
      state.scopes.chainIds state.currentScope :=
  ScopeTree.chainIds_congr hread.declared.nested.chained hread.declared.currentScope_lt
    ((nextId_apply (closes_evaluated hread.evaluated)).trans hread.extended.nextId)
    fun _ hid => hread.parent? hid

/-- In the scopes around the tag no declaration takes effect between the reference and the end of the
    tag. -/
theorem visibleFrom_le_iff (hread : EvaluatedAt source reference state tag)
    (hid : id ∈ (ofSource source).scopes.chainIds state.currentScope)
    (hbinding : binding ∈ (ofSource source).scopes.bindingsOf id)
    (hstart : reference.range.start ≤ position) (hlt : position < tag.after) :
    binding.visibleFrom ≤ reference.range.start ↔ binding.visibleFrom ≤ position := by
  have happart : binding.visibleFrom ≤ reference.range.start ∨ tag.after ≤ binding.visibleFrom := by
    have hmentioned := toName_mem_mentions hread.evaluated
    have hcurrent := hread.declared.currentScope_lt
    rw [hread.chainIds] at hid
    have hle := hread.declared.nested.chained.le_of_mem_chainIds hcurrent hid
    rcases hread.extended.bindingsOf id binding hbinding with hbinding | hlater
    · rcases adds_apply state tag _ id binding hbinding with hearlier | hnew
      · exact .inl ((hread.declared.earlier id binding hearlier).trans hread.lt_after.1)
      · exact declarations_apart hread.body hnew (hle.trans_lt hcurrent) hmentioned
    · exact .inr hlater
  constructor
  · exact fun hle => hle.trans hstart
  · intro hle
    exact happart.resolve_right fun hafter => (hle.trans_lt hlt).not_ge hafter

theorem resolve_currentScope (hread : EvaluatedAt source reference state tag) (name : String)
    (hstart : reference.range.start ≤ position) (hlt : position < tag.after) :
    (ofSource source).scopes.resolve state.currentScope name reference.range.start =
      (ofSource source).scopes.resolve state.currentScope name position :=
  ScopeTree.resolve_congr name fun _ hid _ hbinding =>
    hread.visibleFrom_le_iff hid hbinding hstart hlt

/-- In the scope of a loop only its targets can be declared before the end of the tag. -/
theorem mem_targets (hread : EvaluatedAt source reference state tag) {word : Token}
    {targets : List Token} {sequence filter : Mentions}
    (hstatement : Statement.ofTag tag = .beginFor word targets sequence filter)
    (hbinding : binding ∈ (ofSource source).scopes.bindingsOf state.scopes.nextId) :
    (∃ target ∈ targets, target.text = binding.name) ∨ tag.after ≤ binding.visibleFrom := by
  rcases hread.extended.bindingsOf _ binding hbinding with hbinding | hlater
  · rcases adds_apply state tag _ _ binding hbinding with hearlier | hnew
    · rw [ScopeTree.bindingsOf_of_nextId_le (le_refl _)] at hearlier
      cases hearlier
    · rw [hstatement] at hnew
      rcases List.mem_append.mp (mem_scoped.mp hnew).2 with hdeclared | hloop
      · obtain ⟨_, target, htarget, rfl⟩ := mem_loopTargets hdeclared
        exact .inl ⟨target, htarget, rfl⟩
      · rw [List.mem_singleton.mp hloop]
        exact .inr (le_refl _)
  · exact .inr hlater

/-- The scope of a loop, in which its filter is evaluated, lies in the one in which the tag is read. -/
theorem parent?_filter (hread : EvaluatedAt source reference state tag) {name : Name}
    (hfilter : name ∈ (Statement.ofTag tag).filter.references) :
    (ofSource source).scopes.parent? state.scopes.nextId = some state.currentScope := by
  have hgrown := hread.extended
  cases hstatement : Statement.ofTag tag with
  | beginFor word targets sequence filter =>
    rw [hstatement] at hgrown
    have hnext : state.scopes.nextId <
        (apply state tag (.beginFor word targets sequence filter)).scopes.nextId := by
      simp [apply]
    have hparent : (apply state tag (.beginFor word targets sequence filter)).scopes.parent?
        state.scopes.nextId = some state.currentScope := by
      simp [apply, ScopeTree.parent?_insert]
    exact (hgrown.parent? _ hnext).trans hparent
  | _ => rw [hstatement] at hfilter; cases hfilter

/-- A filter that uses no target of its loop means what it means outside of the loop. -/
theorem resolve_scope (hread : EvaluatedAt source reference state tag)
    (hfilter : ¬ tag.FiltersTarget reference.toName) :
    (ofSource source).scopes.resolve reference.scope reference.text reference.range.start =
      (ofSource source).scopes.resolve state.currentScope reference.text reference.range.start := by
  rcases scope_evaluated hread.evaluated with hscope | ⟨hscope, hmem⟩
  · rw [hscope]
  · rw [hscope]
    refine ScopeTree.resolve_of_parent (hread.parent?_filter hmem) hread.declared.currentScope_lt
      fun binding hbinding hname => ?_
    cases hstatement : Statement.ofTag tag with
    | beginFor word targets sequence filter =>
      rw [Tag.FiltersTarget, hstatement] at hfilter
      rw [hstatement] at hmem
      rcases hread.mem_targets hstatement hbinding with ⟨target, htarget, htext⟩ | hlater
      · exact absurd ⟨hmem, target, htarget, htext.trans hname⟩ hfilter
      · exact hread.lt_after.2.trans_le hlater
    | _ => rw [hstatement] at hmem; cases hmem

/-- A name means at any position of its tag behind the reference what the reference means. -/
theorem resolve_innermostAt (hread : EvaluatedAt source reference state tag)
    (hfilter : ¬ tag.FiltersTarget reference.toName) (hstart : reference.range.start ≤ position)
    (hlt : position < tag.after) :
    (ofSource source).scopes.resolve ((ofSource source).scopes.innermostAt position) reference.text
        position =
      (ofSource source).scopes.resolve reference.scope reference.text reference.range.start := by
  rw [hread.resolve_scope hfilter, hread.innermostAt (hread.lt_after.1.trans hstart) hlt,
    hread.resolve_currentScope reference.text hstart hlt]

/-- The token of a reference, with the one before it: this one neither selects an attribute or a filter
    nor opens a statement. The tag goes on behind the token, unless the next tag or the end of the file
    is there. -/
theorem exists_word (hread : EvaluatedAt source reference state tag) :
    ∃ before previous word after, tokenize source.chars = before ++ previous :: word :: after ∧
      word.kind.isName = true ∧ word.name = reference.toName ∧ previous.kind.selects = false ∧
      previous.kind ≠ .tagBegin .statement ∧
      ∀ position ≤ word.stop.position, (∀ token ∈ tokenize source.chars,
        token.kind.isTagBegin = true ∨ token.kind = .endOfFile → token.start.position ≠ position) →
        position < tag.after := by
  obtain ⟨earlier, opening, later, hstands⟩ := Tag.exists_standsIn hread.mem
  -- In a statement a name is never the first word, so what would stand before it does not matter.
  let outside : TokenKind := if tag.form = .expression then opening.kind else .symbol .dot
  have houtside : tag.form = .expression → outside.selects = false := by
    intro hform
    simp only [outside, if_pos hform, hstands.opens]
    rfl
  obtain ⟨front, word, behind, hbody, hname, hsame, hselects⟩ :=
    Statement.ofTag_free (toName_mem_mentions hread.evaluated) houtside
  have hword : word ∈ tag.body := by simp [hbody]
  have htokens := hstands.split
  have hafter : ∀ position ≤ word.stop.position, (∀ token ∈ tokenize source.chars,
      token.kind.isTagBegin = true ∨ token.kind = .endOfFile → token.start.position ≠ position) →
      position < tag.after := by
    intro position hle hnext
    obtain ⟨others, hlast, _⟩ := (tokenize_layout source.chars).last
    exact hstands.lt_after (tokens_between source) ⟨others, _, hlast, rfl⟩ hword hle hnext
  rw [hbody] at htokens
  rcases List.eq_nil_or_concat front with rfl | ⟨init, last, rfl⟩
  · have hform : tag.form = .expression := by
      cases hform : tag.form with
      | expression => rfl
      | statement =>
        simp only [lastKind_nil, outside, hform] at hselects
        cases hselects
    refine ⟨earlier, opening, word, behind ++ later, by simpa using htokens, hname, hsame, ?_, ?_, hafter⟩
    · rw [hstands.opens, hform]
      rfl
    · rw [hstands.opens, hform]
      simp
  · refine ⟨earlier ++ opening :: init, last, word, behind ++ later, by simpa using htokens, hname,
      hsame, by simpa [lastKind] using hselects, fun hkind => ?_, hafter⟩
    have hinside := hstands.inside last (by simp [hbody])
    rw [hkind] at hinside
    cases hinside

end EvaluatedAt

end Outline

end TemplateAnalysis.Template
