import Mathlib.Data.List.Basic
import TemplateAnalysis.Template.Statement

namespace TemplateAnalysis.Template

@[simp] theorem Mentions.references_append (first second : Mentions) :
    (first ++ second).references = first.references ++ second.references := rfl

@[simp] theorem Mentions.append_empty (mentions : Mentions) : mentions ++ {} = mentions := by
  obtain ⟨references, filters, templates, links⟩ := mentions
  simp only [HAppend.hAppend, Append.append]
  simp

@[simp] theorem Mentions.empty_append (mentions : Mentions) : {} ++ mentions = mentions := by
  obtain ⟨references, filters, templates, links⟩ := mentions
  simp only [HAppend.hAppend, Append.append]
  simp

theorem Mentions.append_assoc (first second third : Mentions) :
    first ++ second ++ third = first ++ (second ++ third) := by
  simp only [HAppend.hAppend, Append.append]
  simp

/-- The names that words among the tokens have. -/
def wordNames (tokens : List Token) : List Name :=
  (tokens.filter (·.kind.isWord)).map Token.name

theorem wordNames_append (first second : List Token) :
    wordNames (first ++ second) = wordNames first ++ wordNames second := by
  simp [wordNames]

/-- Reading goes forward over the tokens, up to those that come after. What it takes for variables
    are words that it passes, each of them at most once and in the order of the text. -/
def Reads (tokens : List Token) (mentions : Mentions) (after : List Token) : Prop :=
  ∃ passed, tokens = passed ++ after ∧ mentions.references.Sublist (wordNames passed)

namespace Reads

variable {tokens middle after : List Token} {mentions later : Mentions}

theorem refl (tokens : List Token) : Reads tokens {} tokens :=
  ⟨[], rfl, List.nil_sublist _⟩

theorem trans (hfirst : Reads tokens mentions middle) (hsecond : Reads middle later after) :
    Reads tokens (mentions ++ later) after := by
  obtain ⟨passed, rfl, hmentions⟩ := hfirst
  obtain ⟨passed', rfl, hlater⟩ := hsecond
  refine ⟨passed ++ passed', (List.append_assoc ..).symm, ?_⟩
  rw [wordNames_append]
  exact hmentions.append hlater

/-- Tokens can be passed over after reading. -/
theorem of_suffix (hreads : Reads tokens mentions middle) (hsuffix : after <:+ middle) :
    Reads tokens mentions after := by
  obtain ⟨passed, rfl, hmentions⟩ := hreads
  obtain ⟨skipped, rfl⟩ := hsuffix
  refine ⟨passed ++ skipped, (List.append_assoc ..).symm, ?_⟩
  rw [wordNames_append]
  exact hmentions.trans (List.sublist_append_left _ _)

/-- Tokens can be passed over before reading. -/
theorem of_suffix_left (hreads : Reads middle mentions after) (hsuffix : middle <:+ tokens) :
    Reads tokens mentions after := by
  obtain ⟨passed, rfl, hmentions⟩ := hreads
  obtain ⟨skipped, rfl⟩ := hsuffix
  refine ⟨skipped ++ passed, (List.append_assoc ..).symm, ?_⟩
  rw [wordNames_append]
  exact hmentions.trans (List.sublist_append_right _ _)

theorem sublist (hreads : Reads tokens mentions after) :
    mentions.references.Sublist (wordNames tokens) := by
  obtain ⟨passed, rfl, hmentions⟩ := hreads
  rw [wordNames_append]
  exact hmentions.trans (List.sublist_append_left _ _)

/-- A word is a variable as a whole. -/
theorem word {token : Token} (hword : token.kind.isWord = true) (rest : List Token) :
    Reads (token :: rest) { references := [token.name] } rest :=
  ⟨[token], rfl, by simp [wordNames, hword]⟩

end Reads

namespace Mentions

/-- A token is taken for one variable at most, and then it is a word. -/
theorem ofToken_reads (meaning : StringMeaning) (left : Left) (token : Token) (rest : List Token) :
    Reads (token :: rest) (ofToken meaning left token rest) rest := by
  refine ⟨[token], rfl, ?_⟩
  have hnothing : ∀ {mentions : Mentions}, mentions.references = [] →
      mentions.references.Sublist (wordNames [token]) := fun hnil => hnil ▸ List.nil_sublist _
  have hword : token.kind.isWord = true →
      (ofWord left token rest).references.Sublist (wordNames [token]) := by
    intro hword
    have hself : wordNames [token] = [token.name] := by simp [wordNames, hword]
    unfold ofWord
    repeat' split
    all_goals first
      | exact hself ▸ List.Sublist.refl _
      | exact hnothing rfl
  unfold ofToken
  split
  next hkind =>
    unfold ofString
    repeat' split
    all_goals exact hnothing rfl
  next hkind => exact hword (by rw [hkind]; rfl)
  next hkind => exact hword (by rw [hkind]; rfl)
  next => exact hnothing rfl

theorem scan_reads (stops : List String) (meaning : StringMeaning) (left : Left)
    (tokens : List Token) :
    Reads tokens (scan stops meaning left tokens).1 (scan stops meaning left tokens).2 := by
  induction tokens generalizing left with
  | nil => exact .refl []
  | cons token rest ih =>
    rw [scan]
    split
    · exact .refl _
    · exact (ofToken_reads meaning left token rest).trans (ih _)

theorem expression_reads (stops : List String) (tokens : List Token) :
    Reads tokens (expression stops tokens).1 (expression stops tokens).2 :=
  scan_reads stops .value {} tokens

theorem templateNames_reads (stops : List String) (tokens : List Token) :
    Reads tokens (templateNames stops tokens).1 (templateNames stops tokens).2 :=
  scan_reads stops .template {} tokens

end Mentions

namespace Statement

theorem skip_suffix (kind : TokenKind) (tokens : List Token) : skip kind tokens <:+ tokens := by
  unfold skip
  split
  · exact List.tail_suffix _
  · exact List.suffix_refl _

theorem skipName_suffix (tokens : List Token) : skipName tokens <:+ tokens := by
  unfold skipName
  split
  · exact List.tail_suffix _
  · exact List.suffix_refl _

theorem names_suffix (tokens : List Token) : (names tokens).2 <:+ tokens := by
  fun_induction names tokens with
  | case1 => exact List.suffix_refl _
  | case2 => exact List.nil_suffix
  | case3 => exact List.suffix_refl _
  | case4 token next rest hname hcomma later after hrest ih =>
    rw [hrest] at ih
    exact ih.trans ((List.suffix_cons _ _).trans (List.suffix_cons _ _))
  | case5 => exact List.suffix_cons _ _
  | case6 => exact List.suffix_refl _

/-- Everything that a statement evaluates, in the order of the text. -/
def mentions : Statement → Mentions
  | .evaluate mentions | .beginIf mentions | .assign _ mentions | .beginSet _ mentions
  | .beginWith _ _ mentions | .beginMacro _ _ _ mentions | .beginCall _ _ mentions
  | .beginFilter mentions | .importTemplate mentions _ | .importNames mentions _ => mentions
  | .beginFor _ _ sequence filter => sequence ++ filter
  | .other | .otherwise | .beginBlock .. | .beginRaw | .endRaw | .endBlock _ => {}

theorem forHead_reads (word : Token) (tokens : List Token) :
    ∃ after, Reads tokens (forHead word tokens).mentions after := by
  have hnames : (names (skip (.symbol .leftParen) tokens)).2 <:+ tokens :=
    (names_suffix _).trans (skip_suffix _ _)
  have htargets : (if startsWith (.symbol .leftParen) tokens then
      skip (.symbol .rightParen) (names (skip (.symbol .leftParen) tokens)).2
      else (names (skip (.symbol .leftParen) tokens)).2) <:+ tokens := by
    split
    · exact (skip_suffix _ _).trans hnames
    · exact hnames
  simp only [forHead, mentions]
  generalize (if startsWith (.symbol .leftParen) tokens then
      skip (.symbol .rightParen) (names (skip (.symbol .leftParen) tokens)).2
      else (names (skip (.symbol .leftParen) tokens)).2) = afterTargets at htargets
  have hsequence : ∃ sequence afterSequence, (if startsWith (.keyword .inKw) afterTargets then
      Mentions.expression ["if", "recursive"] afterTargets.tail else ({}, afterTargets)) =
        (sequence, afterSequence) ∧ Reads tokens sequence afterSequence := by
    split
    · exact ⟨_, _, rfl, (Mentions.expression_reads _ _).of_suffix_left
        ((List.tail_suffix _).trans htargets)⟩
    · exact ⟨_, _, rfl, (Reads.refl _).of_suffix_left htargets⟩
  obtain ⟨sequence, afterSequence, hsame, hreads⟩ := hsequence
  rw [hsame]
  split
  · exact ⟨_, hreads.trans ((Mentions.expression_reads _ _).of_suffix_left (List.tail_suffix _))⟩
  · exact ⟨_, hreads.trans (.refl _)⟩

theorem setTargets_reads (tokens : List Token) :
    Reads tokens (setTargets tokens).2.1 (setTargets tokens).2.2 := by
  have hlater : ∀ {afterTarget : List Token} {targets mentions after},
      (if startsWith (.symbol .comma) afterTarget then setTargets afterTarget.tail
        else ([], {}, afterTarget)) = (targets, mentions, after) →
      Reads afterTarget.tail (setTargets afterTarget.tail).2.1 (setTargets afterTarget.tail).2.2 →
      Reads afterTarget mentions after := by
    intro afterTarget targets mentions after hsame ih
    split at hsame
    · rw [hsame] at ih
      exact ih.of_suffix_left (List.tail_suffix _)
    · cases hsame
      exact .refl _
  fun_induction setTargets tokens with
  | case1 => exact .refl _
  | case2 token rest hname isAttribute afterTarget targets mentions after hsame hattribute ih =>
    have hsuffix : afterTarget <:+ rest := by
      simp only [afterTarget, dif_pos hattribute]
      exact (skipName_suffix _).trans (List.tail_suffix _)
    have hword : token.kind.isWord = true := by
      rw [TokenKind.isName, Bool.and_eq_true] at hname
      exact hname.1
    exact ((Reads.word hword rest).of_suffix hsuffix).trans (hlater (by simpa using hsame) ih)
  | case3 token rest hname isAttribute afterTarget targets mentions after hsame hattribute ih =>
    have hsuffix : afterTarget <:+ token :: rest := by
      simp only [afterTarget, dif_neg hattribute]
      exact List.suffix_cons _ _
    exact (hlater (by simpa using hsame) ih).of_suffix_left hsuffix
  | case4 => exact .refl _

theorem setHead_reads (tokens : List Token) : ∃ after, Reads tokens (setHead tokens).mentions after := by
  simp only [setHead]
  split
  · exact ⟨_, (setTargets_reads tokens).trans
      ((Mentions.expression_reads _ _).of_suffix_left (List.tail_suffix _))⟩
  · exact ⟨_, (setTargets_reads tokens).trans (Mentions.expression_reads _ _)⟩

theorem withVariables_reads (tokens : List Token) :
    ∃ after, Reads tokens (withVariables tokens).2 after := by
  fun_induction withVariables tokens with
  | case1 token sign rest hsign value hcomma names later hrest ih =>
    rw [hrest] at ih
    obtain ⟨after, ih⟩ := ih
    refine ⟨after, ?_⟩
    have hvalue := (Mentions.expression_reads [","] rest).of_suffix_left
      ((List.suffix_cons sign rest).trans (List.suffix_cons token _))
    exact hvalue.trans (ih.of_suffix_left (List.tail_suffix _))
  | case2 token sign rest hsign value hcomma =>
    exact ⟨_, (Mentions.expression_reads [","] rest).of_suffix_left
      ((List.suffix_cons sign rest).trans (List.suffix_cons token _))⟩
  | case3 => exact ⟨_, .refl _⟩
  | case4 => exact ⟨_, .refl _⟩

theorem parameters_reads (tokens : List Token) :
    Reads tokens (parameters tokens).2.1 (parameters tokens).2.2 := by
  fun_induction parameters tokens with
  | case1 => exact .refl _
  | case2 token rest hname default names later after hrest ih =>
    rw [hrest] at ih
    have hdefault : Reads rest default.1 default.2 := by
      simp only [default]
      split
      · exact (Mentions.expression_reads _ _).of_suffix_left (List.tail_suffix _)
      · exact .refl _
    exact (hdefault.trans ih).of_suffix_left (List.suffix_cons _ _)
  | case3 => exact (Reads.refl _).of_suffix (List.suffix_cons _ _)
  | case4 token rest _ _ ih => exact ih.of_suffix_left (List.suffix_cons _ _)

theorem parameterList_reads (tokens : List Token) :
    Reads tokens (parameterList tokens).2.1 (parameterList tokens).2.2 := by
  unfold parameterList
  split
  · exact (parameters_reads _).of_suffix_left (List.tail_suffix _)
  · exact .refl _

/-- Whatever a statement evaluates are words of its body, each of them once and in order. -/
theorem ofBody_reads (tokens : List Token) : ∃ after, Reads tokens (ofBody tokens).mentions after := by
  cases tokens with
  | nil => exact ⟨_, .refl _⟩
  | cons token rest =>
    have hbody : ∀ {mentions : Mentions}, (∃ after, Reads rest mentions after) →
        ∃ after, Reads (token :: rest) mentions after := fun ⟨after, hreads⟩ =>
      ⟨after, hreads.of_suffix_left (List.suffix_cons _ _)⟩
    apply hbody
    rw [ofBody]
    split
    case h_1 => exact forHead_reads token rest
    case h_5 => exact setHead_reads rest
    case h_6 => exact withVariables_reads rest
    case h_7 => exact ⟨_, (parameterList_reads _).of_suffix_left (skipName_suffix _)⟩
    case h_8 => exact ⟨_, (parameterList_reads rest).trans (Mentions.expression_reads _ _)⟩
    case h_10 =>
      have hchain : Reads rest (Mentions.expression [] (skipName rest)).1 _ :=
        (Mentions.expression_reads [] (skipName rest)).of_suffix_left (skipName_suffix rest)
      exact ⟨_, hchain⟩
    case h_2 | h_3 => exact ⟨_, Mentions.expression_reads _ _⟩
    case h_12 | h_13 | h_14 | h_15 => exact ⟨_, Mentions.templateNames_reads _ _⟩
    case h_25 =>
      split
      · exact ⟨_, Mentions.expression_reads _ _⟩
      · exact ⟨_, .refl _⟩
    all_goals exact ⟨_, .refl _⟩

theorem ofTag_sublist (tag : Tag) :
    (ofTag tag).mentions.references.Sublist (wordNames tag.body) := by
  rw [ofTag]
  split
  · exact (Mentions.expression_reads _ _).sublist
  · obtain ⟨_, hreads⟩ := ofBody_reads tag.body
    exact hreads.sublist

end Statement

end TemplateAnalysis.Template
