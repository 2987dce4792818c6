import Mathlib.Data.List.Chain
import TemplateAnalysis.Proofs.Template.Layout
import TemplateAnalysis.Proofs.Template.Moved

namespace TemplateAnalysis.Template

/-- The same tokens with text behind them. A tag that a comment has ended before it was finished takes
    in the text up to the next tag. -/
inductive Token.Trailed : List Token → List Token → Prop
  | text {texts : List Token} (htexts : ∀ token ∈ texts, token.kind = .text) : Trailed [] texts
  | cons (token : Token) {tokens longer : List Token} (hrest : Trailed tokens longer) :
      Trailed (token :: tokens) (token :: longer)

open Token (Trailed)

variable {tokens longer texts : List Token}

theorem Token.Trailed.tail (htrailed : Trailed tokens longer) : Trailed tokens.tail longer.tail := by
  cases htrailed with
  | text htexts => exact .text fun token hmem => htexts token (List.mem_of_mem_tail hmem)
  | cons token hrest => exact hrest

namespace Statement

theorem startsWith_text (htexts : ∀ token ∈ texts, token.kind = .text) {kind : TokenKind}
    (hkind : kind ≠ .text) : startsWith kind texts = false := by
  cases texts with
  | nil => rfl
  | cons token rest =>
    have htext := htexts token List.mem_cons_self
    simpa [startsWith, htext] using hkind.symm

theorem name?_text (htexts : ∀ token ∈ texts, token.kind = .text) : name? texts = none := by
  cases texts with
  | nil => rfl
  | cons token rest =>
    have htext := htexts token List.mem_cons_self
    simp [name?, htext, TokenKind.isName, TokenKind.isWord]

theorem startsWith_trailed (htrailed : Trailed tokens longer) (kind : TokenKind)
    (hkind : kind ≠ .text) : startsWith kind longer = startsWith kind tokens := by
  cases htrailed with
  | text htexts => exact startsWith_text htexts hkind
  | cons token hrest => rfl

theorem name?_trailed (htrailed : Trailed tokens longer) : name? longer = name? tokens := by
  cases htrailed with
  | text htexts => exact name?_text htexts
  | cons token hrest => rfl

theorem skip_trailed (htrailed : Trailed tokens longer) (kind : TokenKind) (hkind : kind ≠ .text) :
    Trailed (skip kind tokens) (skip kind longer) := by
  rw [skip, skip, startsWith_trailed htrailed kind hkind]
  split
  · exact htrailed.tail
  · exact htrailed

theorem skipName_trailed (htrailed : Trailed tokens longer) :
    Trailed (skipName tokens) (skipName longer) := by
  rw [skipName, skipName, name?_trailed htrailed]
  split
  · exact htrailed.tail
  · exact htrailed

end Statement

namespace Mentions

open Statement (startsWith)

theorem ofToken_trailed (htrailed : Trailed tokens longer) (meaning : StringMeaning) (left : Left)
    (token : Token) : ofToken meaning left token longer = ofToken meaning left token tokens := by
  have hassign : longer.head?.map (·.kind) = some (.symbol .assign) ↔
      tokens.head?.map (·.kind) = some (.symbol .assign) := by
    cases htrailed with
    | text htexts =>
      cases longer with
      | nil => rfl
      | cons first rest => simp [htexts first List.mem_cons_self]
    | cons first hrest => rfl
  simp only [ofToken, ofWord, hassign]

theorem scan_text (htexts : ∀ token ∈ texts, token.kind = .text) (stops : List String)
    (meaning : StringMeaning) (left : Left) :
    (scan stops meaning left texts).1 = {} ∧
      ∀ token ∈ (scan stops meaning left texts).2, token.kind = .text := by
  induction texts generalizing left with
  | nil => exact ⟨rfl, nofun⟩
  | cons token rest ih =>
    obtain ⟨hkind, hrest⟩ := List.forall_mem_cons.mp htexts
    rw [scan]
    split
    · exact ⟨rfl, htexts⟩
    · obtain ⟨hmentions, hafter⟩ := ih hrest (left.push token.kind)
      refine ⟨?_, hafter⟩
      rw [ofToken, hkind]
      simp only [hkind] at hmentions
      exact hmentions

/-- Text behind an expression mentions nothing. -/
theorem scan_trailed (htrailed : Trailed tokens longer) (stops : List String) (meaning : StringMeaning)
    (left : Left) : (scan stops meaning left longer).1 = (scan stops meaning left tokens).1 ∧
      Trailed (scan stops meaning left tokens).2 (scan stops meaning left longer).2 := by
  induction htrailed generalizing left with
  | text htexts =>
    obtain ⟨hmentions, hafter⟩ := scan_text htexts stops meaning left
    exact ⟨hmentions, .text hafter⟩
  | cons token hrest ih =>
    rw [scan, scan]
    split
    · exact ⟨rfl, .cons token hrest⟩
    · obtain ⟨hmentions, hafter⟩ := ih (left.push token.kind)
      refine ⟨?_, hafter⟩
      simp only [hmentions, ofToken_trailed hrest]

theorem expression_trailed (htrailed : Trailed tokens longer) (stops : List String) :
    (expression stops longer).1 = (expression stops tokens).1 ∧
      Trailed (expression stops tokens).2 (expression stops longer).2 :=
  scan_trailed htrailed stops .value {}

theorem templateNames_trailed (htrailed : Trailed tokens longer) (stops : List String) :
    (templateNames stops longer).1 = (templateNames stops tokens).1 ∧
      Trailed (templateNames stops tokens).2 (templateNames stops longer).2 :=
  scan_trailed htrailed stops .template {}

/-- An expression that only stands behind a token of some kind. -/
theorem guarded_trailed (htrailed : Trailed tokens longer) (kind : TokenKind) (hkind : kind ≠ .text)
    (stops : List String) :
    (if startsWith kind longer then expression stops longer.tail else ({}, longer)).1 =
        (if startsWith kind tokens then expression stops tokens.tail else ({}, tokens)).1 ∧
      Trailed (if startsWith kind tokens then expression stops tokens.tail else ({}, tokens)).2
        (if startsWith kind longer then expression stops longer.tail else ({}, longer)).2 := by
  rw [Statement.startsWith_trailed htrailed kind hkind]
  split
  · exact expression_trailed htrailed.tail stops
  · exact ⟨rfl, htrailed⟩

end Mentions

namespace Statement

theorem names_text (htexts : ∀ token ∈ texts, token.kind = .text) : names texts = ([], texts) := by
  match texts with
  | [] => rfl
  | [token] =>
    simp [names, htexts token List.mem_cons_self, TokenKind.isName, TokenKind.isWord]
  | token :: next :: rest =>
    simp [names, htexts token List.mem_cons_self, TokenKind.isName, TokenKind.isWord]

/-- A name alone is read whatever does not go on after it. -/
theorem names_cons {token : Token} (hname : token.kind.isName = true)
    (hcomma : startsWith (.symbol .comma) tokens = false) :
    names (token :: tokens) = ([token], tokens) := by
  cases tokens with
  | nil => rw [names, if_pos hname]
  | cons next rest =>
    rw [names, if_pos hname, if_neg]
    simpa [startsWith] using hcomma

theorem names_cons_of_not {token : Token} (hname : ¬ token.kind.isName = true) :
    names (token :: tokens) = ([], token :: tokens) := by
  cases tokens with
  | nil => rw [names, if_neg hname]
  | cons next rest => rw [names, if_neg hname]

theorem names_trailed (htrailed : Trailed tokens longer) :
    (names longer).1 = (names tokens).1 ∧ Trailed (names tokens).2 (names longer).2 := by
  fun_induction names tokens generalizing longer with
  | case1 =>
    cases htrailed with
    | text htexts =>
      rw [names_text htexts]
      exact ⟨rfl, .text htexts⟩
  | case2 token hname =>
    cases htrailed with
    | cons _ hrest =>
      rw [names_cons hname (startsWith_trailed hrest (.symbol .comma) (by decide))]
      exact ⟨rfl, hrest⟩
  | case3 token hname =>
    cases htrailed with
    | cons _ hrest =>
      rw [names_cons_of_not hname]
      exact ⟨rfl, .cons token hrest⟩
  | case4 token next rest hname hcomma later after hlater ih =>
    cases htrailed with
    | cons _ hrest =>
      cases hrest with
      | cons _ hrest =>
        obtain ⟨hnames, hafter⟩ := ih hrest
        rw [names, if_pos hname, if_pos hcomma]
        rw [hlater] at hnames hafter
        exact ⟨congrArg (token :: ·) hnames, hafter⟩
  | case5 token next rest hname hcomma =>
    cases htrailed with
    | cons _ hrest =>
      have hother : startsWith (.symbol .comma) (next :: rest) = false := by
        simpa [startsWith] using hcomma
      rw [names_cons hname ((startsWith_trailed hrest (.symbol .comma) (by decide)).trans hother)]
      exact ⟨rfl, hrest⟩
  | case6 token next rest hname =>
    cases htrailed with
    | cons _ hrest =>
      rw [names_cons_of_not hname]
      exact ⟨rfl, .cons token hrest⟩

theorem forHead_trailed (word : Token) (htrailed : Trailed tokens longer) :
    forHead word longer = forHead word tokens := by
  obtain ⟨htargets, hnames⟩ := names_trailed (skip_trailed htrailed (.symbol .leftParen) (by decide))
  have hafter : Trailed
      (if startsWith (.symbol .leftParen) tokens then
        skip (.symbol .rightParen) (names (skip (.symbol .leftParen) tokens)).2
        else (names (skip (.symbol .leftParen) tokens)).2)
      (if startsWith (.symbol .leftParen) longer then
        skip (.symbol .rightParen) (names (skip (.symbol .leftParen) longer)).2
        else (names (skip (.symbol .leftParen) longer)).2) := by
    rw [startsWith_trailed htrailed (.symbol .leftParen) (by decide)]
    split
    · exact skip_trailed hnames (.symbol .rightParen) (by decide)
    · exact hnames
  obtain ⟨hsequence, hrest⟩ := Mentions.guarded_trailed hafter (.keyword .inKw) (by decide)
    ["if", "recursive"]
  simp only [forHead, htargets, hsequence, startsWith_trailed hrest (.keyword .ifKw) (by decide),
    (Mentions.expression_trailed hrest.tail ["recursive"]).1]

/-- What has been read with text behind it: the same names and mentions, and the text is left over. -/
structure ReadTrailed (read longer : List Token × Mentions × List Token) : Prop where
  names : longer.1 = read.1
  mentions : longer.2.1 = read.2.1
  after : Trailed read.2.2 longer.2.2

/-- What follows a name that only stands behind a token of some kind. -/
theorem guardedName_trailed (htrailed : Trailed tokens longer) (kind : TokenKind) (hkind : kind ≠ .text) :
    Trailed (if startsWith kind tokens then skipName tokens.tail else tokens)
      (if startsWith kind longer then skipName longer.tail else longer) := by
  rw [startsWith_trailed htrailed kind hkind]
  split
  · exact skipName_trailed htrailed.tail
  · exact htrailed

theorem setTargets_text (htexts : ∀ token ∈ texts, token.kind = .text) :
    setTargets texts = ([], {}, texts) := by
  cases texts with
  | nil => rw [setTargets]
  | cons token rest =>
    rw [setTargets, if_neg (by simp [htexts token List.mem_cons_self, TokenKind.isName, TokenKind.isWord])]

theorem setTargets_trailed (htrailed : Trailed tokens longer) :
    ReadTrailed (setTargets tokens) (setTargets longer) := by
  induction hlength : tokens.length using Nat.strong_induction_on generalizing tokens longer with
  | _ length ih =>
    subst hlength
    cases htrailed with
    | text htexts =>
      rw [setTargets_text htexts, setTargets]
      exact ⟨rfl, rfl, .text htexts⟩
    | @cons token rest rest' hrest =>
      by_cases hname : token.kind.isName = true
      · rw [setTargets_cons hname, setTargets_cons hname]
        have htarget := guardedName_trailed hrest (.symbol .dot) (by decide)
        have hshort := length_guardedName_le (.symbol .dot) rest
        simp only
        generalize (if startsWith (.symbol .dot) rest then skipName rest.tail else rest) = after
          at htarget hshort
        generalize (if startsWith (.symbol .dot) rest' then skipName rest'.tail else rest') = after'
          at htarget
        have hlater : ReadTrailed
            (if startsWith (.symbol .comma) after then setTargets after.tail else ([], {}, after))
            (if startsWith (.symbol .comma) after' then setTargets after'.tail
              else ([], {}, after')) := by
          rw [startsWith_trailed htarget (.symbol .comma) (by decide)]
          split
          · refine ih after.tail.length ?_ htarget.tail rfl
            rw [List.length_tail, List.length_cons]
            omega
          · exact ⟨rfl, rfl, htarget⟩
        rw [startsWith_trailed hrest (.symbol .dot) (by decide), hlater.names, hlater.mentions]
        split
        · exact ⟨rfl, rfl, hlater.after⟩
        · exact ⟨rfl, rfl, hlater.after⟩
      · rw [setTargets, if_neg hname, setTargets, if_neg hname]
        exact ⟨rfl, rfl, .cons token hrest⟩

theorem setHead_trailed (htrailed : Trailed tokens longer) : setHead longer = setHead tokens := by
  have htargets := setTargets_trailed htrailed
  simp only [setHead, startsWith_trailed htargets.after (.symbol .assign) (by decide), htargets.names,
    htargets.mentions, (Mentions.expression_trailed htargets.after []).1,
    (Mentions.expression_trailed htargets.after.tail []).1]

theorem withVariables_of_not {token : Token}
    (hsign : ¬ (token.kind.isWord = true ∧ startsWith (.symbol .assign) tokens = true)) :
    withVariables (token :: tokens) = ([], {}) := by
  cases tokens with
  | nil => simp [withVariables]
  | cons sign rest =>
    rw [withVariables, if_neg]
    simpa [startsWith] using hsign

theorem withVariables_text (htexts : ∀ token ∈ texts, token.kind = .text) :
    withVariables texts = ([], {}) := by
  cases texts with
  | nil => simp [withVariables]
  | cons token rest =>
    exact withVariables_of_not (by simp [htexts token List.mem_cons_self, TokenKind.isWord])

theorem withVariables_trailed (htrailed : Trailed tokens longer) :
    withVariables longer = withVariables tokens := by
  induction hlength : tokens.length using Nat.strong_induction_on generalizing tokens longer with
  | _ length ih =>
    subst hlength
    cases htrailed with
    | text htexts => rw [withVariables_text htexts, withVariables_text (List.forall_mem_nil _)]
    | @cons token rest rest' hrest =>
      have hassign := startsWith_trailed hrest (.symbol .assign) (by decide)
      by_cases hsign : token.kind.isWord = true ∧ startsWith (.symbol .assign) rest = true
      · cases hrest with
        | text => cases hsign.2
        | @cons sign rest rest' hrest =>
          have hboth : token.kind.isWord = true ∧ sign.kind = .symbol .assign := by
            simpa [startsWith] using hsign
          obtain ⟨hvalue, hafter⟩ := Mentions.expression_trailed hrest [","]
          have hshort := Mentions.length_scan_le [","] .value {} rest
          have hlater := ih (Mentions.expression [","] rest).2.tail.length
            (by simp only [Mentions.expression, List.length_tail, List.length_cons]; omega)
            hafter.tail rfl
          simp only [withVariables_cons hboth, hvalue, hlater,
            startsWith_trailed hafter (.symbol .comma) (by decide)]
      · rw [withVariables_of_not hsign, withVariables_of_not (by rwa [hassign])]

theorem parameters_text (htexts : ∀ token ∈ texts, token.kind = .text) :
    parameters texts = ([], {}, []) := by
  induction texts with
  | nil => rw [parameters]
  | cons token rest ih =>
    obtain ⟨hkind, hrest⟩ := List.forall_mem_cons.mp htexts
    rw [parameters_cons_of_not (by simp [hkind, TokenKind.isName, TokenKind.isWord]), if_neg (by simp [hkind]),
      ih hrest]

theorem parameters_trailed (htrailed : Trailed tokens longer) :
    ReadTrailed (parameters tokens) (parameters longer) := by
  induction hlength : tokens.length using Nat.strong_induction_on generalizing tokens longer with
  | _ length ih =>
    subst hlength
    cases htrailed with
    | text htexts =>
      rw [parameters_text htexts, parameters]
      exact ⟨rfl, rfl, .text (List.forall_mem_nil _)⟩
    | @cons token rest rest' hrest =>
      by_cases hname : token.kind.isName = true
      · obtain ⟨hdefault, hafter⟩ := Mentions.guarded_trailed hrest (.symbol .assign) (by decide) [","]
        have hshort : (if startsWith (.symbol .assign) rest then
            Mentions.expression [","] rest.tail else ({}, rest)).2.length ≤ rest.length := by
          have hscan := Mentions.length_scan_le [","] .value {} rest.tail
          rw [List.length_tail] at hscan
          split
          · exact hscan.trans (Nat.sub_le _ _)
          · exact le_refl _
        have hlater := ih _ (Nat.lt_succ_of_le hshort) hafter rfl
        rw [parameters_cons hname, parameters_cons hname]
        refine ⟨congrArg (token :: ·) hlater.names, ?_, hlater.after⟩
        simp only [hdefault, hlater.mentions]
      · rw [parameters_cons_of_not hname, parameters_cons_of_not hname]
        split
        · exact ⟨rfl, rfl, hrest⟩
        · exact ih rest.length (Nat.lt_succ_self _) hrest rfl

theorem parameterList_trailed (htrailed : Trailed tokens longer) :
    ReadTrailed (parameterList tokens) (parameterList longer) := by
  simp only [parameterList, startsWith_trailed htrailed (.symbol .leftParen) (by decide)]
  split
  · exact parameters_trailed htrailed.tail
  · exact ⟨rfl, rfl, htrailed⟩

theorem importedNames_text (htexts : ∀ token ∈ texts, token.kind = .text) : importedNames texts = [] := by
  cases texts with
  | nil => rw [importedNames]
  | cons token rest =>
    rw [importedNames, if_neg]
    simp [htexts token List.mem_cons_self, TokenKind.isName, TokenKind.isWord]

theorem importedNames_trailed (htrailed : Trailed tokens longer) :
    importedNames longer = importedNames tokens := by
  induction hlength : tokens.length using Nat.strong_induction_on generalizing tokens longer with
  | _ length ih =>
    subst hlength
    cases htrailed with
    | text htexts => rw [importedNames_text htexts, importedNames]
    | @cons token rest rest' hrest =>
      rw [importedNames, importedNames]
      split
      · have hafter := guardedName_trailed hrest (.keyword .asKw) (by decide)
        have hshort := length_guardedName_le (.keyword .asKw) rest
        simp only [name?_trailed hrest.tail]
        generalize (if startsWith (.keyword .asKw) rest then skipName rest.tail else rest) = after
          at hafter hshort ⊢
        generalize (if startsWith (.keyword .asKw) rest' then skipName rest'.tail else rest') = after'
          at hafter ⊢
        have hlater := ih after.tail.length
          (by rw [List.length_tail, List.length_cons]; omega) hafter.tail rfl
        rw [startsWith_trailed hrest (.keyword .asKw) (by decide),
          startsWith_trailed hafter (.symbol .comma) (by decide), hlater]
      · rfl

theorem macroHead_trailed (word : Token) (htrailed : Trailed tokens longer) :
    macroHead word longer = macroHead word tokens := by
  have hparameters := parameterList_trailed (skipName_trailed htrailed)
  simp only [macroHead, hparameters.names, hparameters.mentions, name?_trailed htrailed]

theorem callHead_trailed (word : Token) (htrailed : Trailed tokens longer) :
    callHead word longer = callHead word tokens := by
  have hparameters := parameterList_trailed htrailed
  simp only [callHead, hparameters.names, hparameters.mentions,
    (Mentions.expression_trailed hparameters.after []).1]

theorem filterHead_trailed (htrailed : Trailed tokens longer) :
    filterHead longer = filterHead tokens := by
  simp only [filterHead, name?_trailed htrailed,
    (Mentions.expression_trailed (skipName_trailed htrailed) []).1]

theorem importHead_trailed (htrailed : Trailed tokens longer) :
    importHead longer = importHead tokens := by
  obtain ⟨hmentions, hafter⟩ := Mentions.templateNames_trailed htrailed ["as"]
  simp only [importHead, hmentions, startsWith_trailed hafter (.keyword .asKw) (by decide),
    name?_trailed hafter.tail]

theorem fromHead_trailed (htrailed : Trailed tokens longer) : fromHead longer = fromHead tokens := by
  obtain ⟨hmentions, hafter⟩ := Mentions.templateNames_trailed htrailed ["import"]
  simp only [fromHead, hmentions, startsWith_trailed hafter (.keyword .importKw) (by decide),
    importedNames_trailed hafter.tail]

theorem ofBody_text (htexts : ∀ token ∈ texts, token.kind = .text) : ofBody texts = .other := by
  cases texts with
  | nil => rfl
  | cons token rest => simp [ofBody, htexts token List.mem_cons_self]

/-- Text behind a statement says nothing. -/
theorem ofBody_trailed (htrailed : Trailed tokens longer) : ofBody longer = ofBody tokens := by
  cases htrailed with
  | text htexts => exact ofBody_text htexts
  | cons token hrest =>
    simp only [ofBody, forHead_trailed token hrest, setHead_trailed hrest, withHead,
      withVariables_trailed hrest, macroHead_trailed token hrest, callHead_trailed token hrest,
      name?_trailed hrest, filterHead_trailed hrest, importHead_trailed hrest, fromHead_trailed hrest,
      (Mentions.expression_trailed hrest []).1, (Mentions.templateNames_trailed hrest _).1]

end Statement

/-- The tokens without text. -/
def withoutText (tokens : List Token) : List Token :=
  tokens.filter (·.kind != .text)

theorem withoutText_append (first second : List Token) :
    withoutText (first ++ second) = withoutText first ++ withoutText second :=
  List.filter_append ..

theorem withoutText_cons_of_ne {token : Token} (hkind : token.kind ≠ .text) (rest : List Token) :
    withoutText (token :: rest) = token :: withoutText rest :=
  List.filter_cons_of_pos (by simpa using hkind)

theorem withoutText_cons_text {token : Token} (hkind : token.kind = .text) (rest : List Token) :
    withoutText (token :: rest) = withoutText rest :=
  List.filter_cons_of_neg (by simp [hkind])

theorem withoutText_eq_nil (htexts : ∀ token ∈ texts, token.kind = .text) : withoutText texts = [] :=
  List.filter_eq_nil_iff.mpr fun token hmem => by simp [htexts token hmem]

/-- Within a tag, text is only followed by text. -/
def Token.TextLast (token next : Token) : Prop :=
  token.kind = .text → next.kind.isInsideTag = true → next.kind = .text

theorem Fits.eq_text {kind : TokenKind} {lexeme : List Char} (hfits : Fits none kind lexeme)
    (hinside : kind.isInsideTag = true) : kind = .text := by
  cases kind <;> simp_all [Fits, TokenKind.isInsideTag, TokenKind.isTagBegin]

theorem Layout.head_text {place : Place} {text : List Char} (hlayout : Layout none place text tokens) :
    ∀ token ∈ tokens.head?, token.kind.isInsideTag = true → token.kind = .text := by
  cases hlayout with
  | finish =>
    rintro token ⟨⟩ hinside
    cases hinside
  | token hstart hskipped hne hfits hlater =>
    rintro token ⟨⟩ hinside
    obtain rfl := hskipped.next_cases.elim id id
    exact hfits.eq_text hinside

theorem Layout.isChain {tag : Option TagForm} {place : Place} {text : List Char}
    (hlayout : Layout tag place text tokens) : tokens.IsChain Token.TextLast := by
  induction hlayout with
  | finish => exact .singleton _
  | @token _ _ _ _ _ token _ _ _ _ _ hlater ih =>
    refine List.isChain_cons.mpr ⟨fun next hnext hkind => ?_, ih⟩
    rw [tagAfter, hkind] at hlater
    exact hlater.head_text next hnext

theorem forall_text_of_isChain {token : Token} (hkind : token.kind = .text)
    (hchain : (token :: tokens).IsChain Token.TextLast)
    (hinside : ∀ other ∈ tokens, other.kind.isInsideTag = true) :
    ∀ other ∈ token :: tokens, other.kind = .text := by
  induction tokens generalizing token with
  | nil => exact List.forall_mem_singleton.mpr hkind
  | cons next rest ih =>
    obtain ⟨hnext, hrest⟩ := List.isChain_cons_cons.mp hchain
    obtain ⟨hfirst, hothers⟩ := List.forall_mem_cons.mp hinside
    exact List.forall_mem_cons.mpr ⟨hkind, ih (hnext hkind hfirst) hrest hothers⟩

theorem trailed_of_isChain (hchain : tokens.IsChain Token.TextLast)
    (hinside : ∀ token ∈ tokens, token.kind.isInsideTag = true) :
    Trailed (withoutText tokens) tokens := by
  induction tokens with
  | nil => exact .text nofun
  | cons token rest ih =>
    obtain ⟨_, hrest⟩ := List.forall_mem_cons.mp hinside
    by_cases hkind : token.kind = .text
    · have htexts := forall_text_of_isChain hkind hchain hrest
      rw [withoutText_eq_nil htexts]
      exact .text htexts
    · rw [withoutText_cons_of_ne hkind]
      exact .cons token (ih hchain.tail hrest)

namespace Tag

/-- The tag without text in it. -/
def withoutText (tag : Tag) : Tag :=
  { tag with body := Template.withoutText tag.body }

theorem isInsideTag_text {token : Token} (hkind : token.kind = .text) : token.kind.isInsideTag = true := by
  rw [hkind]
  rfl

theorem takeWhile_withoutText (tokens : List Token) :
    (Template.withoutText tokens).takeWhile (·.kind.isInsideTag) =
      Template.withoutText (tokens.takeWhile (·.kind.isInsideTag)) := by
  induction tokens with
  | nil => rfl
  | cons token rest ih =>
    by_cases hkind : token.kind = .text
    · rw [withoutText_cons_text hkind, List.takeWhile_cons, isInsideTag_text hkind, if_pos rfl,
        withoutText_cons_text hkind, ih]
    · rw [withoutText_cons_of_ne hkind, List.takeWhile_cons, List.takeWhile_cons]
      split
      · rw [withoutText_cons_of_ne hkind, ih]
      · rfl

theorem dropWhile_withoutText (tokens : List Token) :
    (Template.withoutText tokens).dropWhile (·.kind.isInsideTag) =
      Template.withoutText (tokens.dropWhile (·.kind.isInsideTag)) := by
  induction tokens with
  | nil => rfl
  | cons token rest ih =>
    by_cases hkind : token.kind = .text
    · rw [withoutText_cons_text hkind, List.dropWhile_cons, isInsideTag_text hkind, if_pos rfl, ih]
    · rw [withoutText_cons_of_ne hkind, List.dropWhile_cons, List.dropWhile_cons]
      split
      · exact ih
      · rw [withoutText_cons_of_ne hkind]

theorem stopBefore_withoutText (stop : Position) (tokens : List Token) :
    stopBefore stop (Template.withoutText (tokens.dropWhile (·.kind.isInsideTag))) =
      stopBefore stop (tokens.dropWhile (·.kind.isInsideTag)) := by
  rcases takeWhile_break tokens with hnil | ⟨token, rest, hcons, hinside⟩
  · rw [hnil]
    rfl
  · have hkind : token.kind ≠ .text := fun htext => absurd (isInsideTag_text htext) (by simp [hinside])
    rw [hcons, withoutText_cons_of_ne hkind]
    rfl

/-- Text lies outside of tags or at the end of one that is not finished. -/
theorem ofTokens_withoutText (stop : Position) (tokens : List Token) :
    ofTokens stop (Template.withoutText tokens) = (ofTokens stop tokens).map withoutText := by
  induction tokens using tokens_induction with
  | nil => simp [Template.withoutText, ofTokens]
  | outside token rest hbegin ih =>
    by_cases hkind : token.kind = .text
    · rw [withoutText_cons_text hkind, ofTokens_tail hbegin, ih]
    · rw [withoutText_cons_of_ne hkind, ofTokens_tail hbegin, ofTokens_tail hbegin, ih]
  | opening token rest form hform ih =>
    have hkind : token.kind ≠ .text := by simp [hform]
    rw [withoutText_cons_of_ne hkind, ofTokens, ofTokens, hform]
    simp only [takeWhile_withoutText, dropWhile_withoutText, stopBefore_withoutText, ih, List.map_cons]
    rfl

theorem body_trailed (stop : Position) (hchain : tokens.IsChain Token.TextLast) :
    ∀ tag ∈ ofTokens stop tokens, Trailed tag.withoutText.body tag.body := by
  induction tokens using tokens_induction with
  | nil =>
    rw [ofTokens]
    exact List.forall_mem_nil _
  | outside token rest hbegin ih =>
    rw [ofTokens_tail hbegin]
    exact ih hchain.tail
  | opening token rest form hform ih =>
    have hrest := hchain.tail
    rw [ofTokens, hform]
    refine List.forall_mem_cons.mpr ⟨?_, ih (hrest.suffix (List.dropWhile_suffix _))⟩
    have hbody := hrest.prefix (List.takeWhile_prefix (·.kind.isInsideTag))
    exact trailed_of_isChain hbody (List.all_eq_true.mp List.all_takeWhile)

end Tag

theorem Statement.ofTag_withoutText {tag : Tag} (htrailed : Trailed tag.withoutText.body tag.body) :
    ofTag tag.withoutText = ofTag tag := by
  rw [ofTag, ofTag]
  cases htag : tag.form with
  | expression =>
    simp only [Tag.withoutText, htag]
    exact congrArg Statement.evaluate (Mentions.expression_trailed htrailed []).1.symm
  | statement =>
    simp only [Tag.withoutText, htag]
    exact (ofBody_trailed htrailed).symm

end TemplateAnalysis.Template
