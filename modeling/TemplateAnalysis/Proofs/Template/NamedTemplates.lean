import TemplateAnalysis.Proofs.Template.BlockFrames
import TemplateAnalysis.Proofs.Template.Declarations
import TemplateAnalysis.Proofs.Template.Origin
import TemplateAnalysis.Proofs.Template.RawPart
import TemplateAnalysis.Proofs.Template.Strings

namespace TemplateAnalysis.Template

/-- The words that end the expression in which a statement names templates, given the word at its
    head. Other statements name none. -/
def templateStops? : TokenKind → Option (List String)
  | .keyword .extendsKw | .keyword .includeKw => some ["ignore", "with", "without"]
  | .keyword .importKw => some ["as"]
  | .keyword .fromKw => some ["import"]
  | _ => none

/-- Whether the word at the head of a tag says that its strings name templates. -/
def Tag.NamesTemplates (tag : Tag) : Prop :=
  ∃ word ∈ tag.body.head?, (templateStops? word.kind).isSome = true

namespace Mentions

variable {stops : List String} {left : Left} {front back : List Token} {string : Token} {name : Name}

@[simp] theorem templates_append (first second : Mentions) :
    (first ++ second).templates = first.templates ++ second.templates := rfl

/-- An expression goes on through tokens if it ends before none of them: outside of brackets there
    is neither a word that ends it nor a bracket that closes something around it. -/
def GoesThrough (stops : List String) (left : Left) : List Token → Prop
  | [] => True
  | token :: rest => endsAt stops left token = false ∧ GoesThrough stops (left.push token.kind) rest

theorem endsAt_string (left : Left) (hstring : string.kind = .string)
    (hplain : stops.contains string.text = false) : endsAt stops left string = false := by
  rw [endsAt, hplain, hstring]
  exact Bool.and_false _

theorem templates_ofWord (left : Left) (token : Token) (rest : List Token) :
    (ofWord left token rest).templates = [] := by
  unfold ofWord
  split_ifs <;> rfl

theorem mem_templates_ofToken {token : Token} {rest : List Token}
    (hmem : name ∈ (ofToken .template left token rest).templates) : name = token.content := by
  unfold ofToken at hmem
  split at hmem
  case h_1 => exact List.mem_singleton.mp hmem
  case h_2 | h_3 =>
    rw [templates_ofWord] at hmem
    cases hmem
  case h_4 => cases hmem

/-- A string to which the expression goes on is the name of a template. -/
theorem mem_templates_of_goesThrough (hthrough : GoesThrough stops left front)
    (hstring : string.kind = .string) (hplain : stops.contains string.text = false) :
    string.content ∈ (scan stops .template left (front ++ string :: back)).1.templates := by
  induction front generalizing left with
  | nil =>
    rw [List.nil_append, scan, endsAt_string left hstring hplain, if_neg Bool.false_ne_true]
    simp [ofToken, hstring, ofString]
  | cons token rest ih =>
    obtain ⟨hgoes, hrest⟩ := hthrough
    rw [List.cons_append, scan, hgoes, if_neg Bool.false_ne_true]
    exact List.mem_append_right _ (ih hrest)

/-- Where an expression ends, the names of templates end. -/
theorem exists_of_mem_templates (hends : ¬ GoesThrough stops left front)
    (hmem : name ∈ (scan stops .template left (front ++ back)).1.templates) :
    ∃ token ∈ front, name = token.content := by
  induction front generalizing left with
  | nil => exact absurd trivial hends
  | cons token rest ih =>
    rw [List.cons_append, scan] at hmem
    split at hmem
    · cases hmem
    next hgoes =>
      rcases List.mem_append.mp hmem with hfirst | hlater
      · exact ⟨token, List.mem_cons_self, mem_templates_ofToken hfirst⟩
      · have hrest : ¬ GoesThrough stops (left.push token.kind) rest := fun hrest =>
          hends ⟨Bool.eq_false_of_not_eq_true hgoes, hrest⟩
        obtain ⟨other, hother, hname⟩ := ih hrest hlater
        exact ⟨other, List.mem_cons_of_mem _ hother, hname⟩

/-- Where strings are plain values, nothing is the name of a template. -/
theorem templates_ofToken_value (left : Left) (token : Token) (rest : List Token) :
    (ofToken .value left token rest).templates = [] := by
  unfold ofToken ofString
  split
  case h_1 =>
    simp only
    split <;> rfl
  case h_2 | h_3 => exact templates_ofWord left token rest
  case h_4 => rfl

@[simp] theorem templates_expression (stops : List String) (tokens : List Token) :
    (expression stops tokens).1.templates = [] := by
  have hscan : ∀ left, (scan stops .value left tokens).1.templates = [] := by
    induction tokens with
    | nil => exact fun _ => rfl
    | cons token rest ih =>
      intro left
      rw [scan]
      split
      · rfl
      · simp only [templates_append, ih, List.append_nil, templates_ofToken_value]
  exact hscan {}

end Mentions

namespace Statement

open Mentions (templates_expression)

theorem templates_forHead (word : Token) (tokens : List Token) :
    (forHead word tokens).mentions.templates = [] := by
  simp [forHead, mentions, apply_ite Prod.fst, apply_ite Mentions.templates]

theorem templates_setTargets (tokens : List Token) : (setTargets tokens).2.1.templates = [] := by
  have hlater : ∀ {afterTarget : List Token} {targets mentions after},
      (if startsWith (.symbol .comma) afterTarget then setTargets afterTarget.tail
        else ([], {}, afterTarget)) = (targets, mentions, after) →
      (setTargets afterTarget.tail).2.1.templates = [] → mentions.templates = [] := by
    intro afterTarget targets mentions after hsame ih
    split at hsame
    · rwa [hsame] at ih
    · cases hsame
      rfl
  fun_induction setTargets tokens with
  | case1 | case4 => rfl
  | case2 _ _ _ _ _ _ _ _ hsame _ ih =>
    rw [Mentions.templates_append]
    exact hlater (by simpa using hsame) ih
  | case3 _ _ _ _ _ _ _ _ hsame _ ih => exact hlater (by simpa using hsame) ih

theorem templates_setHead (tokens : List Token) : (setHead tokens).mentions.templates = [] := by
  simp only [setHead]
  split <;> simp [mentions, templates_setTargets]

theorem templates_withVariables (tokens : List Token) : (withVariables tokens).2.templates = [] := by
  fun_induction withVariables tokens with
  | case1 _ _ rest _ value _ names later hrest ih =>
    rw [hrest] at ih
    simp only [Mentions.templates_append, value, templates_expression, List.nil_append]
    exact ih
  | case2 _ _ rest _ value => exact templates_expression _ rest
  | case3 | case4 => rfl

theorem templates_parameters (tokens : List Token) : (parameters tokens).2.1.templates = [] := by
  fun_induction parameters tokens with
  | case1 | case3 => rfl
  | case2 token rest _ default names later after hrest ih =>
    rw [hrest] at ih
    have hdefault : default.1.templates = [] := by
      simp only [default]
      split <;> simp
    simp only [Mentions.templates_append, hdefault, List.nil_append]
    exact ih
  | case4 _ _ _ _ ih => exact ih

theorem templates_parameterList (tokens : List Token) :
    (parameterList tokens).2.1.templates = [] := by
  unfold parameterList
  split
  · exact templates_parameters _
  · rfl

/-- What statements name as templates are the strings of one expression, if the word at their head
    says so. -/
theorem templates_ofBody (token : Token) (rest : List Token) :
    (ofBody (token :: rest)).mentions.templates =
      (templateStops? token.kind).elim [] fun stops => (Mentions.templateNames stops rest).1.templates := by
  cases hkind : token.kind with
  | keyword word =>
    cases word <;> simp only [ofBody, hkind, templateStops?, Option.elim_none, Option.elim_some]
    case forKw => exact templates_forHead token rest
    case setKw => exact templates_setHead rest
    case withKw => exact templates_withVariables rest
    case macroKw => exact templates_parameterList _
    case callKw => simp [callHead, mentions, templates_parameterList]
    case filterKw => simp [filterHead, mentions]
    case ifKw | elifKw => exact templates_expression [] rest
    all_goals rfl
  | identifier =>
    simp only [ofBody, hkind, templateStops?, Option.elim_none]
    split
    · exact templates_expression [] rest
    · rfl
  | _ => simp [ofBody, hkind, templateStops?, mentions]

end Statement

namespace Outline

section RawParts

theorem State.raw_defineAll (state : State) (scope : ScopeId) (bindings : List Binding) :
    (state.defineAll scope bindings).raw = state.raw :=
  congrArg Frame.raw (state.frame_defineAll scope bindings)

theorem State.raw_closeAll (state : State) (blocks : List OpenBlock) (stop after : Position) :
    (blocks.foldl (·.close · stop after) state).raw = state.raw := by
  induction blocks generalizing state with
  | nil => rfl
  | cons block rest ih =>
    exact (ih _).trans (congrArg Frame.raw (state.frame_close block stop after))

/-- Only its opening begins a raw part. -/
theorem raw_apply (state : State) (tag : Tag) (statement : Statement) :
    (apply state tag statement).raw = true ↔ statement = .beginRaw ∨ state.raw = true := by
  have hkept : ∀ {later : State}, later.raw = state.raw → statement ≠ .beginRaw →
      (later.raw = true ↔ statement = .beginRaw ∨ state.raw = true) := by
    intro later hraw hother
    rw [hraw, or_iff_right hother]
  cases statement with
  | beginRaw => simp [apply]
  | otherwise =>
    refine hkept ?_ (by simp)
    rw [apply, endLoopBody]
    split <;> rfl
  | endBlock kind =>
    refine hkept ?_ (by simp)
    rcases endBlock_cases tag kind state with hsame | ⟨closed, outer, _, hclosed⟩
    · rw [apply, hsame]
    · rw [apply, hclosed, State.raw_closeAll]
  | _ =>
    refine hkept ?_ (by simp)
    simp [apply, State.raw_defineAll, State.record, State.define, State.addScope, State.startBody, State.push]

/-- Tags end within a raw part if one of them begins it and none behind that one ends it. -/
def EndsInRawPart (tags : List Tag) : Prop :=
  ∃ earlier opening inside, tags = earlier ++ opening :: inside ∧
    Statement.ofTag opening = .beginRaw ∧ ∀ tag ∈ inside, Statement.ofTag tag ≠ .endRaw

theorem raw_step (state : State) (tag : Tag) : (step state tag).raw = true ↔
    Statement.ofTag tag = .beginRaw ∨ state.raw = true ∧ Statement.ofTag tag ≠ .endRaw := by
  cases hraw : state.raw with
  | false =>
    rw [step, hraw, if_neg Bool.false_ne_true, raw_apply, hraw]
    simp
  | true =>
    rw [step, hraw, if_pos rfl]
    by_cases hend : Statement.ofTag tag = .endRaw
    · simp [hend]
    · simp [hend, hraw]

/-- What is read within a raw part stands behind its opening. -/
theorem raw_read_iff (source : Source) (tags : List Tag) :
    (read source tags).raw = true ↔ EndsInRawPart tags := by
  induction tags using List.reverseRecOn with
  | nil =>
    refine iff_of_false Bool.false_ne_true ?_
    rintro ⟨earlier, opening, inside, hsplit, _⟩
    simp at hsplit
  | append_singleton init tag ih =>
    rw [read_concat, raw_step, ih]
    constructor
    · rintro (hbegin | ⟨⟨earlier, opening, inside, rfl, hbegin, hinside⟩, hgoes⟩)
      · exact ⟨init, tag, [], rfl, hbegin, fun _ hmem => nomatch hmem⟩
      · refine ⟨earlier, opening, inside ++ [tag], by simp, hbegin, ?_⟩
        exact List.forall_mem_append.mpr ⟨hinside, List.forall_mem_singleton.mpr hgoes⟩
    · rintro ⟨earlier, opening, inside, hsplit, hbegin, hinside⟩
      rcases inside.eq_nil_or_concat with rfl | ⟨inner, last, rfl⟩
      · rw [(List.append_singleton_inj.mp hsplit).2]
        exact .inl hbegin
      · rw [List.concat_eq_append, ← List.cons_append, ← List.append_assoc] at hsplit
        obtain ⟨rfl, rfl⟩ := List.append_singleton_inj.mp hsplit
        rw [List.concat_eq_append] at hinside
        obtain ⟨hinner, hlast⟩ := List.forall_mem_append.mp hinside
        exact .inr ⟨⟨earlier, opening, inner, rfl, hbegin, hinner⟩, hlast tag List.mem_cons_self⟩

end RawParts

variable {source : Source} {name : Name}

/-- Whether a string is recorded as the name of a template. -/
def Records (outline : Outline) (string : Token) : Prop :=
  ({ range := string.content.range, name := string.content.text, kind := .templateRef } : Identifier) ∈
    outline.templates

instance (outline : Outline) (string : Token) : Decidable (outline.Records string) :=
  inferInstanceAs (Decidable (_ ∈ outline.templates))

theorem mem_mentions_foldl (state : State) (tags : List Tag) (hmem : name ∈ state.mentions.templates) :
    name ∈ (tags.foldl step state).mentions.templates := by
  obtain ⟨_, mentions, _, _, _, hmentions, _⟩ := exists_recorded state tags
  rw [hmentions]
  exact List.mem_append_left _ hmem

/-- A template mentions what its tags mention outside of raw parts. -/
theorem mem_mentions_templates_iff : name ∈ (ofSource source).mentions.templates ↔
    ∃ earlier tag later, ReadAt source earlier tag later ∧
      name ∈ (Statement.ofTag tag).mentions.templates := by
  have hread : (ofSource source).mentions =
      (read source (Tag.ofTokens source.endPosition (tokenize source.chars))).mentions :=
    mentions_ofTokens source.endPosition _
  rw [hread]
  constructor
  · intro hmem
    obtain ⟨earlier, tag, later, _, hread, hbefore, hbehind⟩ :=
      exists_readAt_of (P := fun state => name ∈ state.mentions.templates) (fun _ _ => id)
        List.not_mem_nil (List.append_nil _).symm hmem
    rw [mentions_apply, Mentions.templates_append, List.mem_append] at hbehind
    exact ⟨earlier, tag, _, hread, hbehind.resolve_left hbefore⟩
  · rintro ⟨earlier, tag, later, hread, hmem⟩
    rw [hread.split, List.append_cons, read, List.foldl_append]
    refine mem_mentions_foldl _ later ?_
    have hstep := read_concat source earlier tag
    rw [read] at hstep
    rw [hstep, hread.step_eq, mentions_apply]
    exact List.mem_append_right _ hmem

theorem records_iff {string : Token} :
    (ofSource source).Records string ↔ string.content ∈ (ofSource source).mentions.templates := by
  constructor
  · exact fun hmem => List.mem_map_of_mem (f := nameOf) hmem
  · intro hmem
    obtain ⟨identifier, hidentifier, hname⟩ := List.mem_map.mp hmem
    obtain ⟨hkind, herror⟩ := (declares_finish source).templates identifier hidentifier
    obtain ⟨range, text, kind, error⟩ := identifier
    cases hkind
    cases herror
    rw [Records, ← hname]
    exact hidentifier

end Outline

section Placement

/-- Of two elements of a list, one is the other one, or it stands before it or behind it. -/
theorem append_cons_cases {α : Type} {before after earlier later : List α} {element other : α}
    (hsplit : before ++ element :: after = earlier ++ other :: later) :
    earlier = before ∧ other = element ∨ other ∈ before ∨ other ∈ after := by
  rcases List.append_eq_append_iff.mp hsplit with ⟨middle, rfl, hrest⟩ | ⟨middle, rfl, hrest⟩
  · cases middle with
    | nil => exact .inl ⟨List.append_nil _, (List.cons.inj hrest).1.symm⟩
    | cons first middle =>
      rw [(List.cons.inj hrest).2]
      exact .inr (.inr (List.mem_append_right _ List.mem_cons_self))
  · cases middle with
    | nil => exact .inl ⟨(List.append_nil _).symm, (List.cons.inj hrest).1⟩
    | cons first middle =>
      rw [(List.cons.inj hrest).1]
      exact .inr (.inl (List.mem_append_right _ List.mem_cons_self))

/-- Tokens that stand behind one another have different contents. -/
theorem Token.content_ne {first second : Token} (hle : first.stop.position ≤ second.start.position)
    (hwide : second.start.position < second.stop.position) : first.content ≠ second.content := by
  intro hsame
  have hlt : first.content.range.stop < second.content.range.stop :=
    calc first.content.range.stop ≤ first.stop.position := first.content_within.2
      _ ≤ second.start.position := hle
      _ < second.content.range.stop := second.start_lt_content_stop hwide
  rw [hsame] at hlt
  exact lt_irrefl _ hlt

/-- A tag that is read behind others holds a token behind others. -/
structure Tag.HoldsAt (source : Source) (before : List Tag) (tag : Tag) (front : List Token)
    (token : Token) : Prop where
  tags : ∃ after, Tag.ofTokens source.endPosition (tokenize source.chars) = before ++ tag :: after
  body : ∃ back, tag.body = front ++ token :: back

/-- Whether the tokens before a string of a statement tag make it the name of a template: the word at the
    head says so, and its expression goes on up to the string. -/
def LeadsToTemplate (front : List Token) : Prop :=
  ∃ word rest stops, front = word :: rest ∧ templateStops? word.kind = some stops ∧
    Mentions.GoesThrough stops {} rest

variable {source : Source} {before : List Tag} {tag : Tag} {front : List Token} {string : Token}

/-- Every literal stands in a tag. -/
theorem exists_holdsAt (hmem : string ∈ tokenize source.chars) (hstring : string.kind = .string) :
    ∃ before front, ∃ tag : Tag, tag.HoldsAt source before front string := by
  obtain ⟨earlier, later, htokens⟩ := List.append_of_mem hmem
  obtain ⟨next, _, _, _, _, _, _, hskipped, hfits⟩ := (htokens ▸ tokenize_layout source.chars).cut
  rw [hstring] at hfits
  obtain ⟨form, rfl⟩ := Option.isSome_iff_exists.mp (hfits (by simp))
  have hopen : openTag earlier = some form := by
    rcases hskipped.next_cases with hsame | hnone
    · exact hsame.symm
    · cases hnone
  obtain ⟨front, opening, inside, rfl, hopening, hinside⟩ := exists_opening hopen
  have hbody : (inside ++ string :: later).takeWhile (·.kind.isInsideTag) =
      inside ++ string :: later.takeWhile (·.kind.isInsideTag) := by
    rw [List.takeWhile_append_of_pos fun token hmem => (hinside token hmem).1,
      List.takeWhile_cons_of_pos (by rw [hstring]; rfl)]
  obtain ⟨tag, after, htags, htag⟩ : ∃ (tag : Tag) (after : List Tag),
      Tag.ofTokens source.endPosition (opening :: (inside ++ string :: later)) = tag :: after ∧
        tag.body = (inside ++ string :: later).takeWhile (·.kind.isInsideTag) := by
    rw [Tag.ofTokens, hopening]
    exact ⟨_, _, rfl, rfl⟩
  refine ⟨Tag.ofTokens opening.start.position front, inside, tag, ⟨after, ?_⟩, _, htag.trans hbody⟩
  rw [htokens, List.append_assoc, List.cons_append, Tag.ofTokens_append_begin hopening, htags]

namespace Tag.HoldsAt

theorem mem_tags (hholds : tag.HoldsAt source before front string) :
    tag ∈ Tag.ofTokens source.endPosition (tokenize source.chars) := by
  obtain ⟨after, htags⟩ := hholds.tags
  rw [htags]
  exact List.mem_append_right before List.mem_cons_self

theorem mem_body (hholds : tag.HoldsAt source before front string) : string ∈ tag.body := by
  obtain ⟨back, hbody⟩ := hholds.body
  rw [hbody]
  exact List.mem_append_right front List.mem_cons_self

theorem mem (hholds : tag.HoldsAt source before front string) : string ∈ tokenize source.chars := by
  obtain ⟨earlier, opening, later, hstands⟩ := Tag.exists_standsIn hholds.mem_tags
  rw [hstands.split]
  simp [hholds.mem_body]

theorem bounded (hholds : tag.HoldsAt source before front string) : tag.Bounded :=
  tags_bounded source tag hholds.mem_tags

/-- The word at the head of a tag is the first of the tokens that lead to the name of a template. -/
theorem namesTemplates (hholds : tag.HoldsAt source before front string) (hleads : LeadsToTemplate front) :
    tag.NamesTemplates := by
  obtain ⟨back, hbody⟩ := hholds.body
  obtain ⟨word, rest, stops, rfl, hstops, _⟩ := hleads
  refine ⟨word, ?_, by rw [hstops]; rfl⟩
  rw [hbody]
  rfl

/-- What the content of a literal is recorded for stands in the tag of the literal. -/
theorem eq_of_content (hholds : tag.HoldsAt source before front string) {earlier later : List Tag} {other : Tag}
    (htags : Tag.ofTokens source.endPosition (tokenize source.chars) = earlier ++ other :: later) {token : Token}
    (hmem : token ∈ other.body) (hcontent : token.content = string.content) :
    earlier = before ∧ other = tag := by
  obtain ⟨after, hsplit⟩ := hholds.tags
  have hbounded := tags_bounded source other (htags ▸ List.mem_append_right _ List.mem_cons_self)
  have hbetween := tags_between source
  rw [hsplit] at hbetween
  obtain ⟨now, hbefore, hstart, _, hafter⟩ := hbetween.split
  rcases append_cons_cases (hsplit.symm.trans htags) with hsame | hother | hother
  · exact hsame
  · refine absurd hcontent (Token.content_ne ?_ (hholds.bounded.start_lt_stop hholds.mem_body))
    calc token.stop.position ≤ other.after := (hbounded.of_mem hmem).2
      _ ≤ now := (hbefore.le_of_mem hother).2
      _ ≤ tag.start := hstart
      _ ≤ string.start.position := (hholds.bounded.of_mem hholds.mem_body).1.le
  · refine absurd hcontent.symm (Token.content_ne ?_ (hbounded.start_lt_stop hmem))
    calc string.stop.position ≤ tag.after := (hholds.bounded.of_mem hholds.mem_body).2
      _ ≤ other.start := (hafter.le_of_mem hother).1
      _ ≤ token.start.position := (hbounded.of_mem hmem).1.le

/-- No word that ends an expression is a literal. -/
theorem not_stops (hholds : tag.HoldsAt source before front string) (hstring : string.kind = .string)
    {kind : TokenKind} {stops : List String} (hstops : templateStops? kind = some stops) :
    stops.contains string.text = false := by
  obtain ⟨quote, body, htext, hquote⟩ := Lexer.exists_quote hholds.mem hstring
  have hplain : ∀ stop ∈ stops, stop.toList.head? ≠ some '"' ∧ stop.toList.head? ≠ some '\'' := by
    unfold templateStops? at hstops
    split at hstops <;> cases hstops <;> decide
  rw [← Bool.not_eq_true, List.contains_iff_mem]
  intro hmem
  have hhead := hplain string.text hmem
  rw [htext, List.head?_cons] at hhead
  rcases hquote with rfl | rfl
  · exact hhead.1 rfl
  · exact hhead.2 rfl

theorem mem_templates_iff (hholds : tag.HoldsAt source before front string) (hstring : string.kind = .string) :
    string.content ∈ (Statement.ofTag tag).mentions.templates ↔
      tag.form = .statement ∧ LeadsToTemplate front := by
  obtain ⟨back, hbody⟩ := hholds.body
  rw [Statement.ofTag, hbody]
  cases htag : tag.form with
  | expression => simp [Statement.mentions]
  | statement =>
    simp only [true_and]
    cases front with
    | nil =>
      rw [List.nil_append, Statement.templates_ofBody, hstring]
      simp [templateStops?, LeadsToTemplate]
    | cons word rest =>
      rw [List.cons_append, Statement.templates_ofBody]
      cases hstops : templateStops? word.kind with
      | none => simp [LeadsToTemplate, hstops]
      | some stops =>
        rw [Option.elim_some]
        constructor
        · intro hmem
          by_contra hends
          have hnot : ¬ Mentions.GoesThrough stops {} rest := fun hthrough =>
            hends ⟨word, rest, stops, rfl, hstops, hthrough⟩
          obtain ⟨token, htoken, hcontent⟩ := Mentions.exists_of_mem_templates hnot hmem
          -- No other token of the tag has the content of this one, because tokens do not overlap.
          have hordered := hholds.bounded.pairwise
          rw [hbody] at hordered
          have hle := (List.pairwise_append.mp hordered).2.2 token (List.mem_cons_of_mem _ htoken) string
            List.mem_cons_self
          exact Token.content_ne hle.1 (hholds.bounded.start_lt_stop hholds.mem_body) hcontent.symm
        · rintro ⟨first, others, ends, hfront, hfirst, hthrough⟩
          cases hfront
          cases hstops.symm.trans hfirst
          exact Mentions.mem_templates_of_goesThrough hthrough hstring (hholds.not_stops hstring hstops)

/-- A literal is recorded as the name of a template if it stands in a statement tag that names one there,
    outside of raw parts. -/
theorem records_iff (hholds : tag.HoldsAt source before front string) (hstring : string.kind = .string) :
    (Outline.ofSource source).Records string ↔
      tag.form = .statement ∧ ¬ Outline.EndsInRawPart before ∧ LeadsToTemplate front := by
  rw [Outline.records_iff, Outline.mem_mentions_templates_iff, and_comm (a := ¬ _), ← and_assoc,
    ← hholds.mem_templates_iff hstring, ← Outline.raw_read_iff source, Bool.not_eq_true]
  constructor
  · rintro ⟨earlier, other, later, hread, hmem⟩
    obtain ⟨after, passed, uses, hbody, huses, hrecorded⟩ := Statement.ofTag_consumes other
    rw [hrecorded.templates] at hmem
    obtain ⟨token, htoken, hcontent⟩ := List.mem_map.mp hmem
    have hpassed := huses.subset (List.mem_map_of_mem (Use.mem_among.mp htoken))
    obtain ⟨rfl, rfl⟩ := hholds.eq_of_content hread.split
      (hbody ▸ List.mem_append_left after hpassed) hcontent
    rw [hrecorded.templates]
    exact ⟨hmem, hread.raw⟩
  · rintro ⟨hmem, hraw⟩
    obtain ⟨after, htags⟩ := hholds.tags
    exact ⟨before, tag, after, ⟨htags, hraw⟩, hmem⟩

end Tag.HoldsAt

end Placement

end TemplateAnalysis.Template
