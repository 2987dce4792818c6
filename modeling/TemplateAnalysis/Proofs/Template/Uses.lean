import TemplateAnalysis.Proofs.Template.Naming

namespace TemplateAnalysis.Template

/-- What a token of a tag can be recorded as. -/
inductive Use
  | reference
  | filter
  | template
  | link
  | declaration
  deriving DecidableEq

/-- The tokens that are recorded in one way. -/
def Use.among (use : Use) (uses : List (Token × Use)) : List Token :=
  (uses.filter (·.2 == use)).map (·.1)

theorem Use.mem_among {use : Use} {uses : List (Token × Use)} {token : Token} :
    token ∈ use.among uses ↔ (token, use) ∈ uses := by
  simp [among]

theorem Use.among_append (use : Use) (first second : List (Token × Use)) :
    use.among (first ++ second) = use.among first ++ use.among second := by
  simp [among]

/-- The uses of tokens are what code mentions and what it declares, each in the order of the text. -/
structure Recorded (uses : List (Token × Use)) (mentions : Mentions) (declared : List Token) :
    Prop where
  references : mentions.references = (Use.reference.among uses).map Token.name
  filters : mentions.filters = (Use.filter.among uses).map Token.name
  templates : mentions.templates = (Use.template.among uses).map Token.content
  links : mentions.links = (Use.link.among uses).map Token.content
  declared : declared = Use.declaration.among uses

theorem Recorded.append {first second : List (Token × Use)} {mentions later : Mentions}
    {declared names : List Token} (hfirst : Recorded first mentions declared)
    (hsecond : Recorded second later names) :
    Recorded (first ++ second) (mentions ++ later) (declared ++ names) where
  references := by
    rw [Use.among_append, List.map_append, ← hfirst.references, ← hsecond.references]
    rfl
  filters := by
    rw [Use.among_append, List.map_append, ← hfirst.filters, ← hsecond.filters]
    rfl
  templates := by
    rw [Use.among_append, List.map_append, ← hfirst.templates, ← hsecond.templates]
    rfl
  links := by
    rw [Use.among_append, List.map_append, ← hfirst.links, ← hsecond.links]
    rfl
  declared := by rw [Use.among_append, ← hfirst.declared, ← hsecond.declared]

/-- Reading goes forward over the tokens, up to those that come after. What it records are tokens that
    it passes, each of them once at most and in one way. -/
def Consumes (tokens : List Token) (mentions : Mentions) (declared after : List Token) : Prop :=
  ∃ passed uses, tokens = passed ++ after ∧ (uses.map (·.1)).Sublist passed ∧
    Recorded uses mentions declared

namespace Consumes

variable {tokens middle after declared names : List Token} {mentions later : Mentions}

theorem refl (tokens : List Token) : Consumes tokens {} [] tokens :=
  ⟨[], [], rfl, List.nil_sublist _, ⟨rfl, rfl, rfl, rfl, rfl⟩⟩

theorem trans (hfirst : Consumes tokens mentions declared middle)
    (hsecond : Consumes middle later names after) :
    Consumes tokens (mentions ++ later) (declared ++ names) after := by
  obtain ⟨passed, uses, rfl, huses, hrecorded⟩ := hfirst
  obtain ⟨passed', uses', rfl, huses', hrecorded'⟩ := hsecond
  refine ⟨passed ++ passed', uses ++ uses', (List.append_assoc ..).symm, ?_,
    hrecorded.append hrecorded'⟩
  rw [List.map_append]
  exact huses.append huses'

/-- An expression behind what was read declares nothing. -/
theorem evaluate (hfirst : Consumes tokens mentions declared middle)
    (hsecond : Consumes middle later [] after) : Consumes tokens (mentions ++ later) declared after :=
  List.append_nil declared ▸ hfirst.trans hsecond

/-- Tokens can be passed over. -/
theorem skip (hsuffix : after <:+ tokens) : Consumes tokens {} [] after := by
  obtain ⟨skipped, rfl⟩ := hsuffix
  exact ⟨skipped, [], rfl, List.nil_sublist _, ⟨rfl, rfl, rfl, rfl, rfl⟩⟩

theorem of_suffix (hconsumes : Consumes tokens mentions declared middle)
    (hsuffix : after <:+ middle) : Consumes tokens mentions declared after := by
  simpa using hconsumes.trans (skip hsuffix)

theorem of_suffix_left (hconsumes : Consumes middle mentions declared after)
    (hsuffix : middle <:+ tokens) : Consumes tokens mentions declared after := by
  simpa using (skip hsuffix).trans hconsumes

theorem reference (token : Token) (rest : List Token) :
    Consumes (token :: rest) { references := [token.name] } [] rest :=
  ⟨[token], [(token, .reference)], rfl, List.Sublist.refl _, ⟨rfl, rfl, rfl, rfl, rfl⟩⟩

theorem filter (token : Token) (rest : List Token) :
    Consumes (token :: rest) { filters := [token.name] } [] rest :=
  ⟨[token], [(token, .filter)], rfl, List.Sublist.refl _, ⟨rfl, rfl, rfl, rfl, rfl⟩⟩

theorem template (token : Token) (rest : List Token) :
    Consumes (token :: rest) { templates := [token.content] } [] rest :=
  ⟨[token], [(token, .template)], rfl, List.Sublist.refl _, ⟨rfl, rfl, rfl, rfl, rfl⟩⟩

theorem link (token : Token) (rest : List Token) :
    Consumes (token :: rest) { links := [token.content] } [] rest :=
  ⟨[token], [(token, .link)], rfl, List.Sublist.refl _, ⟨rfl, rfl, rfl, rfl, rfl⟩⟩

theorem declaration (token : Token) (rest : List Token) :
    Consumes (token :: rest) {} [token] rest :=
  ⟨[token], [(token, .declaration)], rfl, List.Sublist.refl _, ⟨rfl, rfl, rfl, rfl, rfl⟩⟩

/-- A token that declares a name, and what is read behind it. -/
theorem declare {token : Token} {rest : List Token}
    (hrest : Consumes rest mentions declared after) :
    Consumes (token :: rest) mentions (token :: declared) after := by
  simpa using (declaration token rest).trans hrest

end Consumes

namespace Mentions

/-- A token of an expression is recorded in one way at most. -/
theorem ofToken_consumes (meaning : StringMeaning) (left : Left) (token : Token)
    (rest : List Token) : Consumes (token :: rest) (ofToken meaning left token rest) [] rest := by
  have hnothing : Consumes (token :: rest) {} [] rest := .skip (List.suffix_cons token rest)
  have hword : Consumes (token :: rest) (ofWord left token rest) [] rest := by
    unfold ofWord
    repeat' split
    all_goals first
      | exact hnothing
      | exact .filter token rest
      | exact .reference token rest
  unfold ofToken
  split
  next =>
    cases meaning with
    | template => exact .template token rest
    | value =>
      simp only [ofString]
      split
      · exact .link token rest
      · exact hnothing
  next => exact hword
  next => exact hword
  next => exact hnothing

theorem scan_consumes (stops : List String) (meaning : StringMeaning) (left : Left)
    (tokens : List Token) :
    Consumes tokens (scan stops meaning left tokens).1 [] (scan stops meaning left tokens).2 := by
  induction tokens generalizing left with
  | nil => exact .refl []
  | cons token rest ih =>
    rw [scan]
    split
    · exact .refl _
    · exact (ofToken_consumes meaning left token rest).trans (ih _)

theorem expression_consumes (stops : List String) (tokens : List Token) :
    Consumes tokens (expression stops tokens).1 [] (expression stops tokens).2 :=
  scan_consumes stops .value {} tokens

theorem templateNames_consumes (stops : List String) (tokens : List Token) :
    Consumes tokens (templateNames stops tokens).1 [] (templateNames stops tokens).2 :=
  scan_consumes stops .template {} tokens

end Mentions

namespace Statement

/-- The tokens from which a statement takes its declarations. The variable that every loop has belongs
    to the word that opens the loop. -/
def declaring : Statement → List Token
  | .beginFor word names _ _ => word :: names
  | statement => statement.declaredNames

theorem declaring_setHead (tokens : List Token) :
    (setHead tokens).declaring = (setHead tokens).declaredNames := by
  simp only [setHead]
  split <;> rfl

theorem names_consumes (tokens : List Token) :
    Consumes tokens {} (names tokens).1 (names tokens).2 := by
  fun_induction names tokens with
  | case1 => exact .refl []
  | case2 token => exact .declaration token []
  | case3 => exact .refl _
  | case4 token next rest _ _ later after hrest ih =>
    rw [hrest] at ih
    exact (ih.of_suffix_left (List.suffix_cons next rest)).declare
  | case5 token next rest => exact .declaration token _
  | case6 => exact .refl _

theorem name?_consumes (tokens : List Token) :
    Consumes tokens {} (name? tokens).toList (skipName tokens) := by
  cases tokens with
  | nil => exact .refl []
  | cons token rest =>
    cases hname : token.kind.isName with
    | false => simpa [skipName, name?, Option.filter, hname] using Consumes.refl (token :: rest)
    | true => simpa [skipName, name?, Option.filter, hname] using Consumes.declaration token rest

theorem forHead_consumes (word : Token) (tokens : List Token) : ∃ after,
    Consumes tokens (forHead word tokens).mentions (forHead word tokens).declaredNames after := by
  have hnames := (names_consumes (skip (.symbol .leftParen) tokens)).of_suffix_left (skip_suffix _ _)
  have htargets : Consumes tokens {} (names (skip (.symbol .leftParen) tokens)).1
      (if startsWith (.symbol .leftParen) tokens then
        skip (.symbol .rightParen) (names (skip (.symbol .leftParen) tokens)).2
        else (names (skip (.symbol .leftParen) tokens)).2) := by
    split
    · exact hnames.of_suffix (skip_suffix _ _)
    · exact hnames
  simp only [forHead, mentions, declaredNames]
  generalize (if startsWith (.symbol .leftParen) tokens then
      skip (.symbol .rightParen) (names (skip (.symbol .leftParen) tokens)).2
      else (names (skip (.symbol .leftParen) tokens)).2) = afterTargets at htargets
  have hsequence : ∃ sequence afterSequence, (if startsWith (.keyword .inKw) afterTargets then
      Mentions.expression ["if", "recursive"] afterTargets.tail else ({}, afterTargets)) =
        (sequence, afterSequence) ∧ Consumes afterTargets sequence [] afterSequence := by
    split
    · exact ⟨_, _, rfl, (Mentions.expression_consumes _ _).of_suffix_left (List.tail_suffix _)⟩
    · exact ⟨_, _, rfl, .refl _⟩
  obtain ⟨sequence, afterSequence, hsame, hsequence⟩ := hsequence
  rw [hsame]
  have hread := htargets.evaluate hsequence
  rw [Mentions.empty_append] at hread
  simp only
  split
  · exact ⟨_, hread.evaluate
      ((Mentions.expression_consumes _ _).of_suffix_left (List.tail_suffix _))⟩
  · rw [Mentions.append_empty]
    exact ⟨_, hread⟩

theorem setTargets_consumes (tokens : List Token) :
    Consumes tokens (setTargets tokens).2.1 (setTargets tokens).1 (setTargets tokens).2.2 := by
  have hlater : ∀ {afterTarget : List Token} {targets mentions after},
      (if startsWith (.symbol .comma) afterTarget then setTargets afterTarget.tail
        else ([], {}, afterTarget)) = (targets, mentions, after) →
      Consumes afterTarget.tail (setTargets afterTarget.tail).2.1 (setTargets afterTarget.tail).1
        (setTargets afterTarget.tail).2.2 →
      Consumes afterTarget mentions targets after := by
    intro afterTarget targets mentions after hsame ih
    split at hsame
    · rw [hsame] at ih
      exact ih.of_suffix_left (List.tail_suffix _)
    · cases hsame
      exact .refl _
  fun_induction setTargets tokens with
  | case1 => exact .refl _
  | case2 token rest hname isAttribute afterTarget targets mentions after hsame hattribute ih =>
    have hsuffix : afterTarget <:+ rest := by
      simp only [afterTarget, dif_pos hattribute]
      exact (skipName_suffix _).trans (List.tail_suffix _)
    exact ((Consumes.reference token rest).of_suffix hsuffix).trans (hlater (by simpa using hsame) ih)
  | case3 token rest hname isAttribute afterTarget targets mentions after hsame hattribute ih =>
    have hrest : afterTarget = rest := by simp only [afterTarget, dif_neg hattribute]
    exact (hrest ▸ hlater (by simpa using hsame) ih).declare
  | case4 => exact .refl _

theorem setHead_consumes (tokens : List Token) : ∃ after,
    Consumes tokens (setHead tokens).mentions (setHead tokens).declaredNames after := by
  simp only [setHead]
  split
  · exact ⟨_, (setTargets_consumes tokens).evaluate
      ((Mentions.expression_consumes _ _).of_suffix_left (List.tail_suffix _))⟩
  · exact ⟨_, (setTargets_consumes tokens).evaluate (Mentions.expression_consumes _ _)⟩

theorem withVariables_consumes (tokens : List Token) :
    ∃ after, Consumes tokens (withVariables tokens).2 (withVariables tokens).1 after := by
  fun_induction withVariables tokens with
  | case1 token sign rest hsign value hcomma names later hrest ih =>
    rw [hrest] at ih
    obtain ⟨after, ih⟩ := ih
    have hvalue := (Mentions.expression_consumes [","] rest).of_suffix_left (List.suffix_cons sign rest)
    exact ⟨after, (hvalue.trans (ih.of_suffix_left (List.tail_suffix _))).declare⟩
  | case2 token sign rest hsign value hcomma =>
    have hvalue := (Mentions.expression_consumes [","] rest).of_suffix_left (List.suffix_cons sign rest)
    exact ⟨_, hvalue.declare⟩
  | case3 => exact ⟨_, .refl _⟩
  | case4 => exact ⟨_, .refl _⟩

theorem parameters_consumes (tokens : List Token) :
    Consumes tokens (parameters tokens).2.1 (parameters tokens).1 (parameters tokens).2.2 := by
  fun_induction parameters tokens with
  | case1 => exact .refl _
  | case2 token rest hname default names later after hrest ih =>
    rw [hrest] at ih
    have hdefault : Consumes rest default.1 [] default.2 := by
      simp only [default]
      split
      · exact (Mentions.expression_consumes _ _).of_suffix_left (List.tail_suffix _)
      · exact .refl _
    exact (hdefault.trans ih).declare
  | case3 => exact .skip (List.suffix_cons _ _)
  | case4 token rest _ _ ih => exact ih.of_suffix_left (List.suffix_cons _ _)

theorem parameterList_consumes (tokens : List Token) : Consumes tokens (parameterList tokens).2.1
    (parameterList tokens).1 (parameterList tokens).2.2 := by
  unfold parameterList
  split
  · exact (parameters_consumes _).of_suffix_left (List.tail_suffix _)
  · exact .refl _

/-- An imported name is declared by itself, or by the name behind it that it is given. -/
theorem renamed_consumes (token : Token) {rest after : List Token} {localName : Token}
    (hrenamed : localName = token ∧ after = rest ∨
      localName = (name? rest.tail).getD token ∧ after = skipName rest.tail) :
    Consumes (token :: rest) {} [localName] after := by
  rcases hrenamed with ⟨rfl, rfl⟩ | ⟨rfl, rfl⟩
  · exact .declaration localName after
  · cases hname : name? rest.tail with
    | none =>
      exact (Consumes.declaration token rest).of_suffix
        ((skipName_suffix _).trans (List.tail_suffix rest))
    | some other =>
      have hother := name?_consumes rest.tail
      rw [hname] at hother
      exact hother.of_suffix_left ((List.tail_suffix rest).trans (List.suffix_cons token rest))

theorem importedNames_consumes (tokens : List Token) :
    ∃ after, Consumes tokens {} (importedNames tokens) after := by
  fun_induction importedNames tokens with
  | case1 => exact ⟨_, .refl _⟩
  | case2 token rest hname renamed localName after ih =>
    have hlocal : Consumes (token :: rest) {} [localName] after := by
      apply renamed_consumes
      by_cases hrenamed : renamed = true
      · exact .inr ⟨dif_pos hrenamed, dif_pos hrenamed⟩
      · exact .inl ⟨dif_neg hrenamed, dif_neg hrenamed⟩
    split
    · obtain ⟨later, ih⟩ := ih
      exact ⟨later, hlocal.trans (ih.of_suffix_left (List.tail_suffix _))⟩
    · exact ⟨_, hlocal⟩
  | case3 => exact ⟨_, .refl _⟩

theorem macroHead_consumes (word : Token) (tokens : List Token) : ∃ after,
    Consumes tokens (macroHead word tokens).mentions (macroHead word tokens).declaredNames after := by
  have hmacro := (name?_consumes tokens).trans (parameterList_consumes (skipName tokens))
  rw [Mentions.empty_append] at hmacro
  exact ⟨_, hmacro⟩

theorem filterHead_consumes (tokens : List Token) : ∃ after,
    Consumes tokens (filterHead tokens).mentions [] after := by
  have hfilters : Consumes tokens { filters := (name? tokens).toList.map Token.name } []
      (skipName tokens) := by
    cases tokens with
    | nil => exact .refl []
    | cons token rest =>
      cases hname : token.kind.isName with
      | false => simpa [skipName, name?, Option.filter, hname] using Consumes.refl (token :: rest)
      | true => simpa [skipName, name?, Option.filter, hname] using Consumes.filter token rest
  exact ⟨_, hfilters.evaluate (Mentions.expression_consumes _ _)⟩

theorem importHead_consumes (tokens : List Token) : ∃ after,
    Consumes tokens (importHead tokens).mentions (importHead tokens).declaredNames after := by
  have htemplate := Mentions.templateNames_consumes ["as"] tokens
  simp only [importHead, mentions, declaredNames]
  split
  · have halias := htemplate.trans ((name?_consumes _).of_suffix_left (List.tail_suffix _))
    rw [Mentions.append_empty] at halias
    exact ⟨_, halias⟩
  · exact ⟨_, htemplate⟩

theorem fromHead_consumes (tokens : List Token) : ∃ after,
    Consumes tokens (fromHead tokens).mentions (fromHead tokens).declaredNames after := by
  have htemplate := Mentions.templateNames_consumes ["import"] tokens
  simp only [fromHead, mentions, declaredNames]
  split
  · obtain ⟨after, himported⟩ :=
      importedNames_consumes (Mentions.templateNames ["import"] tokens).2.tail
    have hnames := htemplate.trans (himported.of_suffix_left (List.tail_suffix _))
    rw [Mentions.append_empty] at hnames
    exact ⟨after, hnames⟩
  · exact ⟨_, htemplate⟩

/-- Every statement is read by going forward over the tokens of its tag. -/
theorem ofBody_consumes (tokens : List Token) : ∃ after,
    Consumes tokens (ofBody tokens).mentions (ofBody tokens).declaring after := by
  cases tokens with
  | nil => exact ⟨_, .refl _⟩
  | cons token rest =>
    have hbody : ∀ {mentions : Mentions} {declared : List Token},
        (∃ after, Consumes rest mentions declared after) →
        ∃ after, Consumes (token :: rest) mentions declared after := fun ⟨after, hconsumes⟩ =>
      ⟨after, hconsumes.of_suffix_left (List.suffix_cons _ _)⟩
    rw [ofBody]
    split
    case h_1 =>
      obtain ⟨after, hfor⟩ := forHead_consumes token rest
      exact ⟨after, hfor.declare⟩
    all_goals apply hbody
    case h_5 => exact declaring_setHead rest ▸ setHead_consumes rest
    case h_6 => exact withVariables_consumes rest
    case h_7 => exact macroHead_consumes token rest
    case h_8 =>
      exact ⟨_, (parameterList_consumes rest).evaluate (Mentions.expression_consumes [] _)⟩
    case h_9 => exact ⟨_, name?_consumes rest⟩
    case h_10 => exact filterHead_consumes rest
    case h_14 => exact importHead_consumes rest
    case h_15 => exact fromHead_consumes rest
    case h_2 | h_3 => exact ⟨_, Mentions.expression_consumes _ _⟩
    case h_12 | h_13 => exact ⟨_, Mentions.templateNames_consumes _ _⟩
    case h_25 =>
      split
      · exact ⟨_, Mentions.expression_consumes _ _⟩
      · exact ⟨_, .refl _⟩
    all_goals exact ⟨_, .refl _⟩

theorem ofTag_consumes (tag : Tag) : ∃ after,
    Consumes tag.body (ofTag tag).mentions (ofTag tag).declaring after := by
  rw [ofTag]
  split
  · exact ⟨_, Mentions.expression_consumes _ _⟩
  · exact ofBody_consumes tag.body

end Statement

end TemplateAnalysis.Template
