import TemplateAnalysis.Proofs.Template.Order
import TemplateAnalysis.Proofs.Template.Reading

namespace TemplateAnalysis.Template

/-- Whether a token gives the word behind it a meaning of its own: a point makes it an attribute, and a
    bar makes it a filter. -/
def TokenKind.selects : TokenKind → Bool
  | .symbol .dot | .symbol .pipe => true
  | _ => false

theorem TokenKind.selects_of_isName {kind : TokenKind} (hname : kind.isName = true) :
    kind.selects = false := by
  cases kind <;> simp_all [isName, isWord, selects]

/-- The kind of the token right before the rest of some tokens, given the kind of the one before all of
    them. -/
def lastKind (previous : TokenKind) (tokens : List Token) : TokenKind :=
  (tokens.getLast?.map (·.kind)).getD previous

@[simp] theorem lastKind_nil (previous : TokenKind) : lastKind previous [] = previous := rfl

@[simp] theorem lastKind_append (previous : TokenKind) (first second : List Token) :
    lastKind previous (first ++ second) = lastKind (lastKind previous first) second := by
  cases hsecond : second.getLast? with
  | none =>
    rw [List.getLast?_eq_none_iff] at hsecond
    simp [hsecond]
  | some last => simp [lastKind, List.getLast?_append, hsecond]

@[simp] theorem lastKind_cons (previous : TokenKind) (token : Token) (rest : List Token) :
    lastKind previous (token :: rest) = lastKind token.kind rest := by
  rw [← List.singleton_append, lastKind_append]
  rfl

/-- A name is one of those among some tokens, and the token before it leaves it its meaning as a
    variable. -/
def Free (previous : TokenKind) (tokens : List Token) (name : Name) : Prop :=
  ∃ before token after, tokens = before ++ token :: after ∧ token.kind.isName = true ∧
    token.name = name ∧ (lastKind previous before).selects = false

/-- What stands before some tokens leaves the first one its meaning as a variable, if it is a name. -/
def Leaves (previous : TokenKind) (tokens : List Token) : Prop :=
  previous.selects = true → ∀ first ∈ tokens.head?, first.kind.isName = false

theorem Leaves.of_selects {previous : TokenKind} (hprevious : previous.selects = false)
    (tokens : List Token) : Leaves previous tokens := by
  intro hselects
  rw [hprevious] at hselects
  cases hselects

namespace Free

variable {previous : TokenKind} {tokens rest : List Token} {token : Token} {name : Name}

theorem append {skipped : List Token} (hfree : Free (lastKind previous skipped) rest name) :
    Free previous (skipped ++ rest) name := by
  obtain ⟨before, token, after, rfl, hname, hsame, hselects⟩ := hfree
  exact ⟨skipped ++ before, token, after, by simp, hname, hsame, by rwa [lastKind_append]⟩

theorem cons (hfree : Free token.kind rest name) : Free previous (token :: rest) name := by
  have hlast : Free (lastKind previous [token]) rest name := by rwa [lastKind_cons, lastKind_nil]
  exact hlast.append

/-- Behind a token it does not matter what stands before it. -/
theorem of_suffix (hfree : Free token.kind rest name) (hsuffix : token :: rest <:+ tokens) :
    Free previous tokens name := by
  obtain ⟨skipped, rfl⟩ := hsuffix
  exact append hfree.cons

end Free

theorem Statement.exists_of_startsWith {kind : TokenKind} {tokens : List Token}
    (hstarts : startsWith kind tokens = true) :
    ∃ token, tokens = token :: tokens.tail ∧ token.kind = kind := by
  cases tokens with
  | nil => cases hstarts
  | cons token rest => exact ⟨token, rfl, by simpa [startsWith] using hstarts⟩

namespace Mentions

variable {previous : TokenKind} {tokens : List Token} {name : Name}

theorem mem_ofToken {meaning : StringMeaning} {left : Left} {token : Token} {rest : List Token}
    (hmem : name ∈ (ofToken meaning left token rest).references) :
    token.kind.isWord = true ∧ name ∈ (ofWord left token rest).references := by
  unfold ofToken at hmem
  split at hmem
  next =>
    unfold ofString at hmem
    repeat' split at hmem
    all_goals cases hmem
  next hkind => exact ⟨by rw [hkind]; rfl, hmem⟩
  next hkind => exact ⟨by rw [hkind]; rfl, hmem⟩
  next => cases hmem

theorem mem_ofWord {left : Left} {token : Token} {rest : List Token}
    (hmem : name ∈ (ofWord left token rest).references) :
    token.name = name ∧ token.kind.isOperatorKeyword = false ∧
      ∀ kind, left.last = some kind → kind.selects = false := by
  unfold ofWord at hmem
  split_ifs at hmem with hdot hpipe _ hoperator _
  all_goals first
    | cases hmem; done
    | skip
  refine ⟨(List.mem_singleton.mp hmem).symm, Bool.eq_false_of_not_eq_true hoperator, fun kind hlast => ?_⟩
  unfold TokenKind.selects
  split
  next => exact absurd hlast hdot
  next => exact absurd hlast hpipe
  next => rfl

/-- What an expression takes for a variable is a name that neither a point nor a bar claims. -/
theorem scan_free {stops : List String} {meaning : StringMeaning} {left : Left}
    (hfirst : left.last = none → Leaves previous tokens)
    (hmem : name ∈ (scan stops meaning left tokens).1.references) :
    Free (left.last.getD previous) tokens name := by
  induction tokens generalizing left with
  | nil => cases hmem
  | cons token rest ih =>
    rw [scan] at hmem
    split at hmem
    next => cases hmem
    next =>
      rcases List.mem_append.mp hmem with hhere | hlater
      · obtain ⟨hword, hhere⟩ := mem_ofToken hhere
        obtain ⟨hname, hoperator, hselects⟩ := mem_ofWord hhere
        have hisName : token.kind.isName = true := by
          rw [TokenKind.isName, hword, hoperator]
          rfl
        refine ⟨[], token, rest, rfl, hisName, hname, ?_⟩
        rw [lastKind_nil]
        cases hlast : left.last with
        | none =>
          by_contra hprevious
          have hnot := hfirst hlast (Bool.eq_true_of_not_eq_false hprevious) token rfl
          rw [hisName] at hnot
          cases hnot
        | some kind => exact hselects kind hlast
      · have hfree : Free ((left.push token.kind).last.getD previous) rest name :=
          ih (fun hnone => absurd hnone (Option.some_ne_none _)) hlater
        exact hfree.cons

theorem expression_free {stops : List String} (hprevious : Leaves previous tokens)
    (hmem : name ∈ (expression stops tokens).1.references) : Free previous tokens name :=
  scan_free (fun _ => hprevious) hmem

theorem templateNames_free {stops : List String} (hprevious : Leaves previous tokens)
    (hmem : name ∈ (templateNames stops tokens).1.references) : Free previous tokens name :=
  scan_free (fun _ => hprevious) hmem

theorem expression_suffix (stops : List String) (tokens : List Token) :
    (expression stops tokens).2 <:+ tokens := by
  obtain ⟨passed, hpassed, _⟩ := expression_reads stops tokens
  exact ⟨passed, hpassed.symm⟩

end Mentions

namespace Statement

variable {previous : TokenKind} {tokens : List Token} {name : Name}

/-- An expression behind a sign or a word of the statement is free of what stands before that. -/
theorem expression_free {kind : TokenKind} {stops : List String} {rest : List Token}
    (hstarts : startsWith kind rest = true) (hkind : kind.selects = false)
    (hmem : name ∈ (Mentions.expression stops rest.tail).1.references) (hsuffix : rest <:+ tokens) :
    Free previous tokens name := by
  obtain ⟨sign, hrest, hsign⟩ := exists_of_startsWith hstarts
  have hfree := Mentions.expression_free (.of_selects (hsign ▸ hkind) _) hmem
  exact hfree.of_suffix (hrest ▸ hsuffix)

theorem forHead_free {word : Token} (hmem : name ∈ (forHead word tokens).mentions.references) :
    Free previous tokens name := by
  have hnames : (names (skip (.symbol .leftParen) tokens)).2 <:+ tokens :=
    (names_suffix _).trans (skip_suffix _ _)
  have htargets : (if startsWith (.symbol .leftParen) tokens then
      skip (.symbol .rightParen) (names (skip (.symbol .leftParen) tokens)).2
      else (names (skip (.symbol .leftParen) tokens)).2) <:+ tokens := by
    split
    · exact (skip_suffix _ _).trans hnames
    · exact hnames
  simp only [forHead, mentions] at hmem
  generalize (if startsWith (.symbol .leftParen) tokens then
      skip (.symbol .rightParen) (names (skip (.symbol .leftParen) tokens)).2
      else (names (skip (.symbol .leftParen) tokens)).2) = afterTargets at htargets hmem
  have hsequence : ∃ sequence afterSequence, (if startsWith (.keyword .inKw) afterTargets then
      Mentions.expression ["if", "recursive"] afterTargets.tail else ({}, afterTargets)) =
        (sequence, afterSequence) ∧ afterSequence <:+ tokens ∧
          (name ∈ sequence.references → Free previous tokens name) := by
    split
    next hin =>
      exact ⟨_, _, rfl, (Mentions.expression_suffix _ _).trans
        ((List.tail_suffix _).trans htargets), fun hmem => expression_free hin rfl hmem htargets⟩
    next => exact ⟨_, _, rfl, htargets, fun hmem => absurd hmem List.not_mem_nil⟩
  obtain ⟨sequence, afterSequence, hsame, hafter, hfree⟩ := hsequence
  rw [hsame] at hmem
  rcases List.mem_append.mp hmem with hmem | hmem
  · exact hfree hmem
  · simp only at hmem
    split at hmem
    next hif => exact expression_free hif rfl hmem hafter
    next => cases hmem

/-- The tokens of a target without its attribute. What is left behind a point is no name. -/
theorem skipName_leaves (previous : TokenKind) (tokens : List Token) :
    ∃ skipped, tokens = skipped ++ skipName tokens ∧
      Leaves (lastKind previous skipped) (skipName tokens) := by
  unfold skipName
  split
  next hname =>
    cases tokens with
    | nil => cases hname
    | cons token rest =>
      refine ⟨[token], rfl, .of_selects (TokenKind.selects_of_isName ?_) _⟩
      simpa [name?, Option.isSome_filter] using hname
  next hname =>
    refine ⟨[], rfl, fun _ first hfirst => ?_⟩
    rw [Option.mem_def] at hfirst
    simpa [name?, hfirst, Option.isSome_filter] using hname

/-- The rest of an assignment behind a target. An attribute belongs to the target. -/
def behindTarget (rest : List Token) : List Token :=
  if startsWith (.symbol .dot) rest then skipName rest.tail else rest

/-- How the targets of an assignment are read: the names that they declare, the variables that they
    mention, and what comes after them. -/
inductive ReadsTargets : List Token → List Token → List Name → List Token → Prop
  | stop {tokens : List Token} : ReadsTargets tokens [] [] tokens
  | last {token : Token} {rest declared : List Token} {mentioned : List Name}
      (hname : token.kind.isName = true) (hdeclared : declared.Sublist [token])
      (hmentioned : ∀ name ∈ mentioned, name = token.name) :
      ReadsTargets (token :: rest) declared mentioned (behindTarget rest)
  | next {token comma : Token} {rest later after declared names : List Token}
      {mentioned others : List Name} (hname : token.kind.isName = true)
      (hdeclared : declared.Sublist [token]) (hmentioned : ∀ name ∈ mentioned, name = token.name)
      (hcomma : comma.kind = .symbol .comma) (hrest : behindTarget rest = comma :: later)
      (hlater : ReadsTargets later names others after) :
      ReadsTargets (token :: rest) (declared ++ names) (mentioned ++ others) after

theorem setTargets_readsTargets (tokens : List Token) : ReadsTargets tokens (setTargets tokens).1
    (setTargets tokens).2.1.references (setTargets tokens).2.2 := by
  have hlater : ∀ {token : Token} {rest afterTarget targets after declared : List Token}
      {mentions : Mentions} {mentioned : List Name}, token.kind.isName = true →
      declared.Sublist [token] → (∀ name ∈ mentioned, name = token.name) →
      behindTarget rest = afterTarget →
      ReadsTargets afterTarget.tail (setTargets afterTarget.tail).1
        (setTargets afterTarget.tail).2.1.references (setTargets afterTarget.tail).2.2 →
      (if startsWith (.symbol .comma) afterTarget then setTargets afterTarget.tail
        else ([], {}, afterTarget)) = (targets, mentions, after) →
      ReadsTargets (token :: rest) (declared ++ targets) (mentioned ++ mentions.references) after := by
    intro token rest afterTarget targets after declared mentions mentioned hname hdeclared hmentioned
      hrest ih hsame
    split at hsame
    next hcomma =>
      obtain ⟨comma, hcons, hkind⟩ := exists_of_startsWith hcomma
      rw [hsame] at ih
      exact .next hname hdeclared hmentioned hkind (hrest.trans hcons) ih
    next =>
      cases hsame
      rw [List.append_nil, List.append_nil, ← hrest]
      exact .last hname hdeclared hmentioned
  fun_induction setTargets tokens with
  | case1 => exact .stop
  | case2 token rest hname isAttribute afterTarget targets mentions after hsame _ ih =>
    have hrest : behindTarget rest = afterTarget := (dite_eq_ite ..).symm
    have hmentioned : ∀ name ∈ [token.name], name = token.name := fun name => List.mem_singleton.mp
    exact hlater hname (List.nil_sublist _) hmentioned hrest ih (by simpa using hsame)
  | case3 token rest hname isAttribute afterTarget targets mentions after hsame _ ih =>
    have hrest : behindTarget rest = afterTarget := (dite_eq_ite ..).symm
    have hmentioned : ∀ name ∈ ([] : List Name), name = token.name :=
      fun _ hmem => absurd hmem List.not_mem_nil
    exact hlater hname (List.Sublist.refl [token]) hmentioned hrest ih (by simpa using hsame)
  | case4 token rest hname => exact .stop

namespace ReadsTargets

variable {mentioned : List Name} {declared after : List Token}

theorem behindTarget_leaves {token : Token} (rest : List Token) (hname : token.kind.isName = true) :
    ∃ skipped, rest = skipped ++ behindTarget rest ∧
      Leaves (lastKind token.kind skipped) (behindTarget rest) := by
  unfold behindTarget
  split
  next hdot =>
    obtain ⟨dot, hrest, _⟩ := exists_of_startsWith hdot
    obtain ⟨skipped, htail, hleaves⟩ := skipName_leaves dot.kind rest.tail
    refine ⟨dot :: skipped, ?_, by rwa [lastKind_cons]⟩
    rw [List.cons_append, ← htail, ← hrest]
  next => exact ⟨[], rfl, .of_selects (TokenKind.selects_of_isName hname) _⟩

/-- Targets are read up to a token that keeps its meaning. -/
theorem leaves (hreads : ReadsTargets tokens declared mentioned after)
    (hprevious : previous.selects = false) :
    ∃ skipped, tokens = skipped ++ after ∧ Leaves (lastKind previous skipped) after := by
  induction hreads generalizing previous with
  | stop => exact ⟨[], rfl, .of_selects hprevious _⟩
  | @last token rest _ _ hname =>
    obtain ⟨skipped, hrest, hleaves⟩ := behindTarget_leaves rest hname
    exact ⟨token :: skipped, by rw [List.cons_append, ← hrest], by rwa [lastKind_cons]⟩
  | @next token comma rest later after _ _ _ _ hname _ _ hcomma hrest _ ih =>
    obtain ⟨first, hfirst, _⟩ := behindTarget_leaves rest hname
    obtain ⟨skipped, hlater, hleaves⟩ := ih (show (TokenKind.symbol .comma).selects = false from rfl)
    refine ⟨token :: first ++ comma :: skipped, ?_, by simpa [hcomma] using hleaves⟩
    rw [hrest, hlater] at hfirst
    rw [hfirst]
    simp

/-- The variables that targets mention are free. -/
theorem free (hreads : ReadsTargets tokens declared mentioned after)
    (hprevious : previous.selects = false) (hmem : name ∈ mentioned) : Free previous tokens name := by
  induction hreads generalizing previous with
  | stop => cases hmem
  | last hname _ hmentioned =>
    exact ⟨[], _, _, rfl, hname, (hmentioned name hmem).symm, hprevious⟩
  | @next token comma rest later _ _ _ _ _ hname _ hmentioned hcomma hrest _ ih =>
    rcases List.mem_append.mp hmem with hmem | hmem
    · exact ⟨[], _, _, rfl, hname, (hmentioned name hmem).symm, hprevious⟩
    · obtain ⟨skipped, hskipped, _⟩ := behindTarget_leaves rest hname
      have hfree : Free comma.kind later name := ih (by rw [hcomma]; rfl) hmem
      refine hfree.of_suffix ⟨token :: skipped, ?_⟩
      rw [List.cons_append, ← hrest, ← hskipped]

/-- The names that targets declare stand among their tokens, in this order. -/
theorem sublist (hreads : ReadsTargets tokens declared mentioned after) :
    declared.Sublist tokens := by
  induction hreads with
  | stop => exact List.nil_sublist _
  | last _ hdeclared _ =>
    exact hdeclared.trans ((List.nil_sublist _).cons_cons _)
  | @next token comma rest later _ _ _ _ _ hname hdeclared _ _ hrest _ ih =>
    obtain ⟨skipped, hskipped, _⟩ := behindTarget_leaves rest hname
    have hlater : later.Sublist rest := by
      rw [hskipped, hrest]
      exact (List.sublist_cons_self comma later).trans (List.sublist_append_right _ _)
    exact hdeclared.append (ih.trans hlater)

end ReadsTargets

theorem setHead_free (hprevious : previous.selects = false)
    (hmem : name ∈ (setHead tokens).mentions.references) : Free previous tokens name := by
  have hreads := setTargets_readsTargets tokens
  obtain ⟨skipped, htokens, hleaves⟩ := hreads.leaves hprevious
  simp only [setHead] at hmem
  split at hmem
  next hassign =>
    rcases List.mem_append.mp hmem with hmem | hmem
    · exact hreads.free hprevious hmem
    · exact expression_free hassign rfl hmem ⟨skipped, htokens.symm⟩
  next =>
    rcases List.mem_append.mp hmem with hmem | hmem
    · exact hreads.free hprevious hmem
    · rw [htokens]
      exact (Mentions.expression_free hleaves hmem).append

theorem withVariables_free (hmem : name ∈ (withVariables tokens).2.references)
    (previous : TokenKind) : Free previous tokens name := by
  revert previous
  fun_induction withVariables tokens with
  | case1 token sign rest hsign value hcomma names later hrest ih =>
    intro previous
    rw [hrest] at ih
    rcases List.mem_append.mp hmem with hmem | hmem
    · have hfree : Free sign.kind rest name :=
        Mentions.expression_free (.of_selects (by rw [hsign.2]; rfl) _) hmem
      exact hfree.of_suffix (List.suffix_cons token _)
    · obtain ⟨comma, hvalue, _⟩ := exists_of_startsWith hcomma
      have hfree : Free comma.kind value.2.tail name := ih hmem comma.kind
      refine hfree.of_suffix ?_
      rw [← hvalue]
      exact (Mentions.expression_suffix _ _).trans
        ((List.suffix_cons sign rest).trans (List.suffix_cons token _))
  | case2 token sign rest hsign value hcomma =>
    intro previous
    have hfree : Free sign.kind rest name :=
      Mentions.expression_free (.of_selects (by rw [hsign.2]; rfl) _) hmem
    exact hfree.of_suffix (List.suffix_cons token _)
  | case3 => cases hmem
  | case4 => cases hmem

/-- The default values of parameters stand behind equals signs. -/
theorem parameters_free (hmem : name ∈ (parameters tokens).2.1.references)
    (previous : TokenKind) : Free previous tokens name := by
  revert previous
  fun_induction parameters tokens with
  | case1 => cases hmem
  | case2 token rest hname default names later after hrest ih =>
    intro previous
    rw [hrest] at ih
    rcases List.mem_append.mp hmem with hmem | hmem
    · simp only [default] at hmem
      split at hmem
      next hassign => exact expression_free hassign rfl hmem (List.suffix_cons token rest)
      next => cases hmem
    · have hdefault : default.2 <:+ rest := by
        simp only [default]
        split
        · exact (Mentions.expression_suffix _ _).trans (List.tail_suffix _)
        · exact List.suffix_refl _
      obtain ⟨skipped, hskipped⟩ := hdefault
      rw [← hskipped, ← List.cons_append]
      exact (ih hmem _).append
  | case3 => cases hmem
  | case4 token rest _ _ ih => exact fun previous => (ih hmem token.kind).cons

/-- Parameters are read up to the bracket that closes them, or to the end. -/
theorem parameters_after (tokens : List Token) : (parameters tokens).2.2 = [] ∨
    ∃ bracket, bracket.kind = .symbol .rightParen ∧ bracket :: (parameters tokens).2.2 <:+ tokens := by
  fun_induction parameters tokens with
  | case1 => exact .inl rfl
  | case2 token rest hname default names later after hrest ih =>
    rw [hrest] at ih
    have hdefault : default.2 <:+ rest := by
      simp only [default]
      split
      · exact (Mentions.expression_suffix _ _).trans (List.tail_suffix _)
      · exact List.suffix_refl _
    rcases ih with hnil | ⟨bracket, hkind, hsuffix⟩
    · exact .inl hnil
    · exact .inr ⟨bracket, hkind, hsuffix.trans (hdefault.trans (List.suffix_cons token rest))⟩
  | case3 token rest _ hkind => exact .inr ⟨token, hkind, List.suffix_refl _⟩
  | case4 token rest _ _ ih =>
    rcases ih with hnil | ⟨bracket, hkind, hsuffix⟩
    · exact .inl hnil
    · exact .inr ⟨bracket, hkind, hsuffix.trans (List.suffix_cons token rest)⟩

theorem parameterList_free (hmem : name ∈ (parameterList tokens).2.1.references) :
    Free previous tokens name := by
  unfold parameterList at hmem
  split at hmem
  next hparen =>
    obtain ⟨bracket, hcons, _⟩ := exists_of_startsWith hparen
    rw [hcons]
    exact (parameters_free hmem _).cons
  next => cases hmem

theorem callHead_free {word : Token} (hprevious : previous.selects = false)
    (hmem : name ∈ (callHead word tokens).mentions.references) : Free previous tokens name := by
  rcases List.mem_append.mp hmem with hmem | hmem
  · exact parameterList_free hmem
  · have hmem : name ∈ (Mentions.expression [] (parameterList tokens).2.2).1.references := hmem
    unfold parameterList at hmem
    split at hmem
    next =>
      rcases parameters_after tokens.tail with hempty | ⟨bracket, hkind, hsuffix⟩
      · rw [hempty] at hmem
        cases hmem
      · have hfree : Free bracket.kind (parameters tokens.tail).2.2 name :=
          Mentions.expression_free (.of_selects (by rw [hkind]; rfl) _) hmem
        exact hfree.of_suffix (hsuffix.trans (List.tail_suffix _))
    next => exact Mentions.expression_free (.of_selects hprevious _) hmem

/-- Whatever a statement takes for a variable is a word of its body that keeps its meaning, and it is
    not the first word. -/
theorem ofBody_free (hmem : name ∈ (ofBody tokens).mentions.references) :
    Free previous tokens name := by
  cases tokens with
  | nil => cases hmem
  | cons token rest =>
    rw [ofBody] at hmem
    have hbody : token.kind.selects = false → Free token.kind rest name →
        Free previous (token :: rest) name := fun _ hfree => hfree.cons
    split at hmem
    case h_1 hkind => exact (forHead_free hmem).cons
    case h_5 hkind => exact (setHead_free (by rw [hkind]; rfl) hmem).cons
    case h_6 hkind => exact (withVariables_free hmem _).cons
    case h_7 hkind =>
      obtain ⟨skipped, hrest, _⟩ := skipName_leaves token.kind rest
      rw [hrest]
      exact (parameterList_free hmem).append.cons
    case h_8 hkind => exact (callHead_free (by rw [hkind]; rfl) hmem).cons
    case h_10 hkind =>
      obtain ⟨skipped, hrest, hleaves⟩ := skipName_leaves token.kind rest
      rw [hrest]
      exact (Mentions.expression_free hleaves hmem).append.cons
    case h_2 hkind | h_3 hkind =>
      exact (Mentions.expression_free (.of_selects (by rw [hkind]; rfl) _) hmem).cons
    case h_12 hkind | h_13 hkind | h_14 hkind | h_15 hkind =>
      exact (Mentions.templateNames_free (.of_selects (by rw [hkind]; rfl) _) hmem).cons
    case h_25 hkind =>
      split at hmem
      · exact (Mentions.expression_free (.of_selects (by rw [hkind]; rfl) _) hmem).cons
      · cases hmem
    all_goals cases hmem

/-- Whatever a tag takes for a variable is a name of its body that keeps its meaning. In a statement
    some other word stands before it. -/
theorem ofTag_free {tag : Tag} (hmem : name ∈ (ofTag tag).mentions.references)
    (hprevious : tag.form = .expression → previous.selects = false) : Free previous tag.body name := by
  rw [ofTag] at hmem
  split at hmem
  next hform => exact Mentions.expression_free (.of_selects (hprevious hform) _) hmem
  next => exact ofBody_free hmem

end Statement

end TemplateAnalysis.Template
