import Mathlib.Data.List.Forall2
import TemplateAnalysis.Proofs.Shift
import TemplateAnalysis.Proofs.Template.Order
import TemplateAnalysis.Proofs.Template.Reading

namespace TemplateAnalysis.Template

variable {move : Position → Position}

/-- The name where its text has moved to. -/
def Name.map (move : Position → Position) (name : Name) : Name :=
  { name with range := name.range.map move }

/-- The second token is the first one where its text has moved to. Moving takes the place between any
    two of its characters along. -/
structure Token.Moved (move : Position → Position) (token moved : Token) : Prop where
  kind : moved.kind = token.kind
  text : moved.text = token.text
  position : ∀ part, part <+: token.text.toList →
    (moved.start.past part).position = move (token.start.past part).position

/-- Tokens that have moved, one after the other. -/
abbrev Token.AllMoved (move : Position → Position) : List Token → List Token → Prop :=
  List.Forall₂ (Token.Moved move)

namespace Token.Moved

variable {token moved : Token}

theorem start (hmoved : Moved move token moved) :
    moved.start.position = move token.start.position :=
  hmoved.position [] List.nil_prefix

theorem stop (hmoved : Moved move token moved) :
    moved.stop.position = move token.stop.position := by
  rw [Token.stop, hmoved.text]
  exact hmoved.position _ (List.prefix_refl _)

theorem range (hmoved : Moved move token moved) : moved.range = token.range.map move := by
  have hstop := hmoved.stop
  rw [Token.stop] at hstop
  rw [Token.range, Place.rangeOf, hmoved.start, hstop]
  rfl

theorem name (hmoved : Moved move token moved) : moved.name = token.name.map move := by
  rw [Token.name, Name.map, hmoved.text, hmoved.range]
  rfl

/-- What stands between the quote marks of a literal follows the opening one. -/
theorem opening_append_unquote (text : List Char) :
    ((text.take 1).filter fun c => c = '"' || c = '\'') ++ unquote text <+: text := by
  have hbody : ∀ (body : List Char) (P : Char → Bool),
      (if body.getLast?.any P then body.dropLast else body) <+: body := by
    intro body P
    split
    · exact List.dropLast_prefix body
    · exact List.prefix_refl body
  cases text with
  | nil => exact List.prefix_refl _
  | cons c rest =>
    rw [List.take_succ_cons, List.take_zero, List.filter_cons, List.filter_nil]
    have hrest := hbody rest fun c => c = '"' || c = '\''
    have hwhole := hbody (c :: rest) fun c => c = '"' || c = '\''
    simp only [unquote]
    split_ifs at * <;> simp_all [List.prefix_cons_iff]

theorem content (hmoved : Moved move token moved) : moved.content = token.content.map move := by
  have hinner := hmoved.position _ (opening_append_unquote token.text.toList)
  have hopening := hmoved.position _
    ((List.prefix_append _ _).trans (opening_append_unquote token.text.toList))
  rw [Place.past_append, Place.past_append] at hinner
  simp only [Token.content, Name.map, Range.map, Place.rangeOf, hmoved.text, hinner, hopening]

end Token.Moved

namespace Mentions

/-- The mentions where the text that they stand in has moved to. -/
def map (move : Position → Position) (mentions : Mentions) : Mentions :=
  { references := mentions.references.map (Name.map move)
    filters := mentions.filters.map (Name.map move)
    templates := mentions.templates.map (Name.map move)
    links := mentions.links.map (Name.map move) }

@[simp] theorem map_empty : ({} : Mentions).map move = {} := rfl

@[simp] theorem map_append (first second : Mentions) :
    (first ++ second).map move = first.map move ++ second.map move := by
  show Mentions.mk _ _ _ _ = Mentions.mk _ _ _ _
  rw [Mentions.mk.injEq]
  exact ⟨List.map_append, List.map_append, List.map_append, List.map_append⟩

theorem ofString_moved {token moved : Token} (hmoved : token.Moved move moved)
    (meaning : StringMeaning) : ofString meaning moved = (ofString meaning token).map move := by
  have htext : moved.content.text = token.content.text := by rw [hmoved.content]; rfl
  cases meaning with
  | template => simp [ofString, map, hmoved.content]
  | value =>
    simp only [ofString, htext]
    split
    · simp [map, hmoved.content]
    · rfl

theorem head?_kind_moved {tokens moved : List Token} (hmoved : Token.AllMoved move tokens moved) :
    moved.head?.map (·.kind) = tokens.head?.map (·.kind) := by
  cases hmoved with
  | nil => rfl
  | cons hfirst hrest => exact congrArg some hfirst.kind

theorem ofWord_moved {token moved : Token} {rest movedRest : List Token}
    (hmoved : token.Moved move moved) (hrest : Token.AllMoved move rest movedRest) (left : Left) :
    ofWord left moved movedRest = (ofWord left token rest).map move := by
  simp only [ofWord, hmoved.kind, head?_kind_moved hrest, hmoved.name]
  split_ifs <;> rfl

theorem ofToken_moved {token moved : Token} {rest movedRest : List Token}
    (hmoved : token.Moved move moved) (hrest : Token.AllMoved move rest movedRest)
    (meaning : StringMeaning) (left : Left) :
    ofToken meaning left moved movedRest = (ofToken meaning left token rest).map move := by
  simp only [ofToken, hmoved.kind]
  split
  · exact ofString_moved hmoved meaning
  · exact ofWord_moved hmoved hrest left
  · exact ofWord_moved hmoved hrest left
  · rfl

/-- An expression mentions the same things wherever it stands, and it ends before the same token. -/
theorem scan_moved {tokens moved : List Token} (hmoved : Token.AllMoved move tokens moved)
    (stops : List String) (meaning : StringMeaning) (left : Left) :
    (scan stops meaning left moved).1 = (scan stops meaning left tokens).1.map move ∧
      Token.AllMoved move (scan stops meaning left tokens).2 (scan stops meaning left moved).2 := by
  induction hmoved generalizing left with
  | nil => exact ⟨rfl, .nil⟩
  | @cons token moved rest movedRest hfirst hrest ih =>
    have hends : endsAt stops left moved = endsAt stops left token := by
      rw [endsAt, endsAt, hfirst.text, hfirst.kind]
    rw [scan, scan, hends]
    split
    · exact ⟨rfl, .cons hfirst hrest⟩
    · obtain ⟨hmentions, hafter⟩ := ih (left.push token.kind)
      rw [hfirst.kind]
      refine ⟨?_, hafter⟩
      rw [map_append, ← hmentions, ← ofToken_moved hfirst hrest]

theorem expression_moved {tokens moved : List Token} (hmoved : Token.AllMoved move tokens moved)
    (stops : List String) : (expression stops moved).1 = (expression stops tokens).1.map move ∧
      Token.AllMoved move (expression stops tokens).2 (expression stops moved).2 :=
  scan_moved hmoved stops .value {}

theorem templateNames_moved {tokens moved : List Token} (hmoved : Token.AllMoved move tokens moved)
    (stops : List String) :
    (templateNames stops moved).1 = (templateNames stops tokens).1.map move ∧
      Token.AllMoved move (templateNames stops tokens).2 (templateNames stops moved).2 :=
  scan_moved hmoved stops .template {}

end Mentions

section Optional

variable {α β : Type} {R : α → β → Prop} {first : Option α} {second : Option β}

theorem isSome_of_rel (hrel : Option.Rel R first second) : second.isSome = first.isSome := by
  cases hrel <;> rfl

theorem getD_of_rel (hrel : Option.Rel R first second) {default : α} {default' : β}
    (hdefault : R default default') : R (first.getD default) (second.getD default') := by
  cases hrel with
  | none => exact hdefault
  | some hsome => exact hsome

theorem toList_of_rel (hrel : Option.Rel R first second) :
    List.Forall₂ R first.toList second.toList := by
  cases hrel with
  | none => exact .nil
  | some hsome => exact .cons hsome .nil

end Optional

namespace Statement

variable {tokens moved : List Token}

theorem allMoved_tail (hmoved : Token.AllMoved move tokens moved) :
    Token.AllMoved move tokens.tail moved.tail := by
  cases hmoved with
  | nil => exact .nil
  | cons hfirst hrest => exact hrest

theorem startsWith_moved (hmoved : Token.AllMoved move tokens moved) (kind : TokenKind) :
    startsWith kind moved = startsWith kind tokens := by
  cases hmoved with
  | nil => rfl
  | cons hfirst hrest => simp only [startsWith, List.head?_cons, Option.any_some, hfirst.kind]

theorem skip_moved (hmoved : Token.AllMoved move tokens moved) (kind : TokenKind) :
    Token.AllMoved move (skip kind tokens) (skip kind moved) := by
  rw [skip, skip, startsWith_moved hmoved]
  split
  · exact allMoved_tail hmoved
  · exact hmoved

theorem name?_moved (hmoved : Token.AllMoved move tokens moved) :
    Option.Rel (Token.Moved move) (name? tokens) (name? moved) := by
  cases hmoved with
  | nil => exact .none
  | cons hfirst hrest =>
    simp only [name?, List.head?_cons, Option.filter_some, hfirst.kind]
    split
    · exact .some hfirst
    · exact .none

theorem skipName_moved (hmoved : Token.AllMoved move tokens moved) :
    Token.AllMoved move (skipName tokens) (skipName moved) := by
  rw [skipName, skipName, isSome_of_rel (name?_moved hmoved)]
  split
  · exact allMoved_tail hmoved
  · exact hmoved

theorem names_moved (hmoved : Token.AllMoved move tokens moved) :
    Token.AllMoved move (names tokens).1 (names moved).1 ∧
      Token.AllMoved move (names tokens).2 (names moved).2 := by
  -- Both lists have the same kinds of tokens, so the parser takes the same branch for both.
  fun_induction names tokens generalizing moved with
  | case1 =>
    cases hmoved
    exact ⟨.nil, .nil⟩
  | case2 token hname =>
    cases hmoved with
    | cons hfirst hrest =>
      cases hrest
      rw [names, if_pos (hfirst.kind ▸ hname)]
      exact ⟨.cons hfirst .nil, .nil⟩
  | case3 token hname =>
    cases hmoved with
    | cons hfirst hrest =>
      cases hrest
      rw [names, if_neg (hfirst.kind ▸ hname)]
      exact ⟨.nil, .cons hfirst .nil⟩
  | case4 token next rest hname hcomma later after hlater ih =>
    cases hmoved with
    | cons hfirst hrest =>
      cases hrest with
      | cons hnext hrest =>
        obtain ⟨hnames, hafter⟩ := ih hrest
        rw [names, if_pos (hfirst.kind ▸ hname), if_pos (hnext.kind ▸ hcomma)]
        rw [hlater] at hnames hafter
        exact ⟨.cons hfirst hnames, hafter⟩
  | case5 token next rest hname hcomma =>
    cases hmoved with
    | cons hfirst hrest =>
      cases hrest with
      | cons hnext hrest =>
        rw [names, if_pos (hfirst.kind ▸ hname), if_neg (hnext.kind ▸ hcomma)]
        exact ⟨.cons hfirst .nil, .cons hnext hrest⟩
  | case6 token next rest hname =>
    cases hmoved with
    | cons hfirst hrest =>
      cases hrest with
      | cons hnext hrest =>
        rw [names, if_neg (hfirst.kind ▸ hname)]
        exact ⟨.nil, .cons hfirst (.cons hnext hrest)⟩

/-- What a statement says where its text has moved to. -/
inductive Moved (move : Position → Position) : Statement → Statement → Prop
  | other : Moved move .other .other
  | evaluate (mentions : Mentions) : Moved move (.evaluate mentions) (.evaluate (mentions.map move))
  | beginIf (condition : Mentions) : Moved move (.beginIf condition) (.beginIf (condition.map move))
  | beginFor {word word' : Token} {targets targets' : List Token} (hword : word.Moved move word')
      (htargets : Token.AllMoved move targets targets') (sequence filter : Mentions) :
      Moved move (.beginFor word targets sequence filter)
        (.beginFor word' targets' (sequence.map move) (filter.map move))
  | otherwise : Moved move .otherwise .otherwise
  | assign {targets targets' : List Token} (htargets : Token.AllMoved move targets targets')
      (value : Mentions) : Moved move (.assign targets value) (.assign targets' (value.map move))
  | beginSet {targets targets' : List Token} (htargets : Token.AllMoved move targets targets')
      (mentions : Mentions) :
      Moved move (.beginSet targets mentions) (.beginSet targets' (mentions.map move))
  | beginWith {word word' : Token} {names names' : List Token} (hword : word.Moved move word')
      (hnames : Token.AllMoved move names names') (values : Mentions) :
      Moved move (.beginWith word names values) (.beginWith word' names' (values.map move))
  | beginMacro {word word' : Token} {name name' : Option Token} {parameters parameters' : List Token}
      (hword : word.Moved move word') (hname : Option.Rel (Token.Moved move) name name')
      (hparameters : Token.AllMoved move parameters parameters') (defaults : Mentions) :
      Moved move (.beginMacro word name parameters defaults)
        (.beginMacro word' name' parameters' (defaults.map move))
  | beginCall {word word' : Token} {parameters parameters' : List Token}
      (hword : word.Moved move word') (hparameters : Token.AllMoved move parameters parameters')
      (mentions : Mentions) :
      Moved move (.beginCall word parameters mentions) (.beginCall word' parameters' (mentions.map move))
  | beginBlock {word word' : Token} {name name' : Option Token} (hword : word.Moved move word')
      (hname : Option.Rel (Token.Moved move) name name') :
      Moved move (.beginBlock word name) (.beginBlock word' name')
  | beginFilter (mentions : Mentions) :
      Moved move (.beginFilter mentions) (.beginFilter (mentions.map move))
  | beginRaw : Moved move .beginRaw .beginRaw
  | endRaw : Moved move .endRaw .endRaw
  | importTemplate {alias? alias?' : Option Token} (mentions : Mentions)
      (halias : Option.Rel (Token.Moved move) alias? alias?') :
      Moved move (.importTemplate mentions alias?) (.importTemplate (mentions.map move) alias?')
  | importNames {names names' : List Token} (mentions : Mentions)
      (hnames : Token.AllMoved move names names') :
      Moved move (.importNames mentions names) (.importNames (mentions.map move) names')
  | endBlock (kind : BlockKind) : Moved move (.endBlock kind) (.endBlock kind)

/-- An expression that only stands behind a token of some kind. -/
theorem guarded_moved (hmoved : Token.AllMoved move tokens moved) (kind : TokenKind)
    (stops : List String) :
    (if startsWith kind moved then Mentions.expression stops moved.tail else ({}, moved)).1 =
        (if startsWith kind tokens then Mentions.expression stops tokens.tail
          else ({}, tokens)).1.map move ∧
      Token.AllMoved move
        (if startsWith kind tokens then Mentions.expression stops tokens.tail else ({}, tokens)).2
        (if startsWith kind moved then Mentions.expression stops moved.tail else ({}, moved)).2 := by
  rw [startsWith_moved hmoved]
  split
  · exact Mentions.expression_moved (allMoved_tail hmoved) stops
  · exact ⟨rfl, hmoved⟩

theorem guardedMentions_moved (hmoved : Token.AllMoved move tokens moved) (kind : TokenKind)
    (stops : List String) :
    (if startsWith kind moved then (Mentions.expression stops moved.tail).1 else {}) =
      (if startsWith kind tokens then (Mentions.expression stops tokens.tail).1 else {}).map move := by
  rw [startsWith_moved hmoved]
  split
  · exact (Mentions.expression_moved (allMoved_tail hmoved) stops).1
  · rfl

theorem Moved.eq_endRaw_iff {statement moved : Statement} (hmoved : statement.Moved move moved) :
    moved = .endRaw ↔ statement = .endRaw := by
  cases hmoved <;> simp

theorem forHead_moved {word word' : Token} (hword : word.Moved move word')
    (hmoved : Token.AllMoved move tokens moved) :
    (forHead word tokens).Moved move (forHead word' moved) := by
  obtain ⟨htargets, hnames⟩ := names_moved (skip_moved hmoved (.symbol .leftParen))
  have hafter : Token.AllMoved move
      (if startsWith (.symbol .leftParen) tokens then
        skip (.symbol .rightParen) (names (skip (.symbol .leftParen) tokens)).2
        else (names (skip (.symbol .leftParen) tokens)).2)
      (if startsWith (.symbol .leftParen) moved then
        skip (.symbol .rightParen) (names (skip (.symbol .leftParen) moved)).2
        else (names (skip (.symbol .leftParen) moved)).2) := by
    rw [startsWith_moved hmoved]
    split
    · exact skip_moved hnames _
    · exact hnames
  obtain ⟨hsequence, hrest⟩ := guarded_moved hafter (.keyword .inKw) ["if", "recursive"]
  simp only [forHead]
  rw [hsequence, guardedMentions_moved hrest]
  exact .beginFor hword htargets _ _

/-- What has been read where the text has moved to: names, what is mentioned, and the tokens after
    both. -/
structure ReadMoved (move : Position → Position) (read moved : List Token × Mentions × List Token) :
    Prop where
  names : Token.AllMoved move read.1 moved.1
  mentions : moved.2.1 = read.2.1.map move
  after : Token.AllMoved move read.2.2 moved.2.2

/-- What follows a name that only stands behind a token of some kind. -/
theorem guardedName_moved (hmoved : Token.AllMoved move tokens moved) (kind : TokenKind) :
    Token.AllMoved move (if startsWith kind tokens then skipName tokens.tail else tokens)
      (if startsWith kind moved then skipName moved.tail else moved) := by
  rw [startsWith_moved hmoved]
  split
  · exact skipName_moved (allMoved_tail hmoved)
  · exact hmoved

theorem length_guardedName_le (kind : TokenKind) (tokens : List Token) :
    (if startsWith kind tokens then skipName tokens.tail else tokens).length ≤ tokens.length := by
  split
  · exact ((skipName_suffix _).trans (List.tail_suffix _)).length_le
  · exact le_refl _

theorem setTargets_cons {token : Token} (hname : token.kind.isName = true) (rest : List Token) :
    setTargets (token :: rest) =
      let afterTarget := if startsWith (.symbol .dot) rest then skipName rest.tail else rest
      let later :=
        if startsWith (.symbol .comma) afterTarget then setTargets afterTarget.tail
        else ([], {}, afterTarget)
      if startsWith (.symbol .dot) rest then
        (later.1, { references := [token.name] } ++ later.2.1, later.2.2)
      else (token :: later.1, later.2.1, later.2.2) := by
  rw [setTargets, if_pos hname]

theorem setTargets_moved (hmoved : Token.AllMoved move tokens moved) :
    ReadMoved move (setTargets tokens) (setTargets moved) := by
  induction hlength : tokens.length using Nat.strong_induction_on generalizing tokens moved with
  | _ length ih =>
    subst hlength
    cases hmoved with
    | nil =>
      rw [setTargets]
      exact ⟨.nil, rfl, .nil⟩
    | @cons token token' rest rest' hfirst hrest =>
      by_cases hname : token.kind.isName = true
      · rw [setTargets_cons hname, setTargets_cons (hfirst.kind ▸ hname)]
        have htarget := guardedName_moved hrest (.symbol .dot)
        have hshort := length_guardedName_le (.symbol .dot) rest
        simp only
        generalize (if startsWith (.symbol .dot) rest then skipName rest.tail else rest) = after
          at htarget hshort
        generalize (if startsWith (.symbol .dot) rest' then skipName rest'.tail else rest') = after'
          at htarget
        have hlater : ReadMoved move
            (if startsWith (.symbol .comma) after then setTargets after.tail else ([], {}, after))
            (if startsWith (.symbol .comma) after' then setTargets after'.tail
              else ([], {}, after')) := by
          rw [startsWith_moved htarget]
          split
          · refine ih after.tail.length ?_ (allMoved_tail htarget) rfl
            rw [List.length_tail, List.length_cons]
            omega
          · exact ⟨.nil, rfl, htarget⟩
        rw [startsWith_moved hrest]
        split
        · refine ⟨hlater.names, ?_, hlater.after⟩
          rw [Mentions.map_append, ← hlater.mentions, hfirst.name]
          rfl
        · exact ⟨.cons hfirst hlater.names, hlater.mentions, hlater.after⟩
      · rw [setTargets, if_neg hname, setTargets, if_neg (hfirst.kind ▸ hname)]
        exact ⟨.nil, rfl, .cons hfirst hrest⟩

theorem setHead_moved (hmoved : Token.AllMoved move tokens moved) :
    (setHead tokens).Moved move (setHead moved) := by
  have htargets := setTargets_moved hmoved
  simp only [setHead, startsWith_moved htargets.after, htargets.mentions]
  split
  · rw [(Mentions.expression_moved (allMoved_tail htargets.after) []).1, ← Mentions.map_append]
    exact .assign htargets.names _
  · rw [(Mentions.expression_moved htargets.after []).1, ← Mentions.map_append]
    exact .beginSet htargets.names _

theorem withVariables_cons {token sign : Token} {rest : List Token}
    (hsign : token.kind.isWord = true ∧ sign.kind = .symbol .assign) :
    withVariables (token :: sign :: rest) =
      let value := Mentions.expression [","] rest
      if startsWith (.symbol .comma) value.2 then
        (token :: (withVariables value.2.tail).1, value.1 ++ (withVariables value.2.tail).2)
      else ([token], value.1) := by
  rw [withVariables, if_pos hsign]

theorem withVariables_moved (hmoved : Token.AllMoved move tokens moved) :
    Token.AllMoved move (withVariables tokens).1 (withVariables moved).1 ∧
      (withVariables moved).2 = (withVariables tokens).2.map move := by
  induction hlength : tokens.length using Nat.strong_induction_on generalizing tokens moved with
  | _ length ih =>
    subst hlength
    cases hmoved with
    | nil => simp [withVariables]
    | @cons token token' _ _ hfirst hrest =>
      cases hrest with
      | nil => simp [withVariables]
      | @cons sign sign' rest rest' hsecond hrest =>
        obtain ⟨hvalue, hafter⟩ := Mentions.expression_moved hrest [","]
        by_cases hsign : token.kind.isWord = true ∧ sign.kind = .symbol .assign
        · rw [withVariables_cons hsign,
            withVariables_cons (by rwa [hfirst.kind, hsecond.kind])]
          simp only [startsWith_moved hafter]
          split
          · have hshort := Mentions.length_scan_le [","] .value {} rest
            obtain ⟨hnames, hmentions⟩ := ih (Mentions.expression [","] rest).2.tail.length
              (by simp only [Mentions.expression, List.length_tail, List.length_cons]; omega)
              (allMoved_tail hafter) rfl
            rw [Mentions.map_append, ← hvalue, ← hmentions]
            exact ⟨.cons hfirst hnames, rfl⟩
          · exact ⟨.cons hfirst .nil, hvalue⟩
        · rw [withVariables, if_neg hsign, withVariables,
            if_neg (by rwa [hfirst.kind, hsecond.kind])]
          exact ⟨.nil, rfl⟩

theorem parameters_cons {token : Token} (hname : token.kind.isName = true) (rest : List Token) :
    parameters (token :: rest) =
      let default :=
        if startsWith (.symbol .assign) rest then Mentions.expression [","] rest.tail
        else ({}, rest)
      let later := parameters default.2
      (token :: later.1, default.1 ++ later.2.1, later.2.2) := by
  rw [parameters, if_pos hname]

theorem parameters_cons_of_not {token : Token} (hname : ¬ token.kind.isName = true)
    (rest : List Token) : parameters (token :: rest) =
      if token.kind = .symbol .rightParen then ([], {}, rest) else parameters rest := by
  rw [parameters, if_neg hname]

theorem parameters_moved (hmoved : Token.AllMoved move tokens moved) :
    ReadMoved move (parameters tokens) (parameters moved) := by
  induction hlength : tokens.length using Nat.strong_induction_on generalizing tokens moved with
  | _ length ih =>
    subst hlength
    cases hmoved with
    | nil =>
      rw [parameters]
      exact ⟨.nil, rfl, .nil⟩
    | @cons token token' rest rest' hfirst hrest =>
      by_cases hname : token.kind.isName = true
      · obtain ⟨hdefault, hafter⟩ := guarded_moved hrest (.symbol .assign) [","]
        rw [parameters_cons hname, parameters_cons (hfirst.kind ▸ hname)]
        have hshort : (if startsWith (.symbol .assign) rest then
            Mentions.expression [","] rest.tail else ({}, rest)).2.length ≤ rest.length := by
          have hscan := Mentions.length_scan_le [","] .value {} rest.tail
          rw [List.length_tail] at hscan
          split
          · exact hscan.trans (Nat.sub_le _ _)
          · exact le_refl _
        have hlater := ih _ (Nat.lt_succ_of_le hshort) hafter rfl
        refine ⟨.cons hfirst hlater.names, ?_, hlater.after⟩
        rw [Mentions.map_append, ← hdefault, ← hlater.mentions]
      · rw [parameters_cons_of_not hname, parameters_cons_of_not (hfirst.kind ▸ hname), hfirst.kind]
        split
        · exact ⟨.nil, rfl, hrest⟩
        · exact ih rest.length (Nat.lt_succ_self _) hrest rfl

theorem parameterList_moved (hmoved : Token.AllMoved move tokens moved) :
    ReadMoved move (parameterList tokens) (parameterList moved) := by
  simp only [parameterList, startsWith_moved hmoved]
  split
  · exact parameters_moved (allMoved_tail hmoved)
  · exact ⟨.nil, rfl, hmoved⟩

theorem importedNames_moved (hmoved : Token.AllMoved move tokens moved) :
    Token.AllMoved move (importedNames tokens) (importedNames moved) := by
  induction hlength : tokens.length using Nat.strong_induction_on generalizing tokens moved with
  | _ length ih =>
    subst hlength
    cases hmoved with
    | nil =>
      rw [importedNames]
      exact .nil
    | @cons token token' rest rest' hfirst hrest =>
      rw [importedNames, importedNames, hfirst.kind, hfirst.text]
      split
      · have hafter := guardedName_moved hrest (.keyword .asKw)
        have hshort := length_guardedName_le (.keyword .asKw) rest
        simp only
        generalize (if startsWith (.keyword .asKw) rest then skipName rest.tail else rest) = after
          at hafter hshort
        generalize (if startsWith (.keyword .asKw) rest' then skipName rest'.tail else rest') = after'
          at hafter
        rw [startsWith_moved hrest, startsWith_moved hafter]
        refine .cons ?_ ?_
        · split
          · exact getD_of_rel (name?_moved (allMoved_tail hrest)) hfirst
          · exact hfirst
        · split
          · refine ih after.tail.length ?_ (allMoved_tail hafter) rfl
            rw [List.length_tail, List.length_cons]
            omega
          · exact .nil
      · exact .nil

theorem map_name_moved (hmoved : Token.AllMoved move tokens moved) :
    moved.map Token.name = (tokens.map Token.name).map (Name.map move) := by
  induction hmoved with
  | nil => rfl
  | cons hfirst hrest ih => rw [List.map_cons, ih, hfirst.name]; rfl

theorem withHead_moved {word word' : Token} (hword : word.Moved move word')
    (hmoved : Token.AllMoved move tokens moved) :
    (withHead word tokens).Moved move (withHead word' moved) := by
  obtain ⟨hnames, hvalues⟩ := withVariables_moved hmoved
  simp only [withHead, hvalues]
  exact .beginWith hword hnames _

theorem macroHead_moved {word word' : Token} (hword : word.Moved move word')
    (hmoved : Token.AllMoved move tokens moved) :
    (macroHead word tokens).Moved move (macroHead word' moved) := by
  have hparameters := parameterList_moved (skipName_moved hmoved)
  simp only [macroHead, hparameters.mentions]
  exact .beginMacro hword (name?_moved hmoved) hparameters.names _

theorem callHead_moved {word word' : Token} (hword : word.Moved move word')
    (hmoved : Token.AllMoved move tokens moved) :
    (callHead word tokens).Moved move (callHead word' moved) := by
  have hparameters := parameterList_moved hmoved
  simp only [callHead, hparameters.mentions]
  rw [(Mentions.expression_moved hparameters.after []).1, ← Mentions.map_append]
  exact .beginCall hword hparameters.names _

theorem filterHead_moved (hmoved : Token.AllMoved move tokens moved) :
    (filterHead tokens).Moved move (filterHead moved) := by
  have hmap : ∀ names (mentions : Mentions), ({ filters := names } ++ mentions : Mentions).map move =
      ({ filters := names.map (Name.map move) } : Mentions) ++ mentions.map move :=
    fun _ _ => Mentions.map_append _ _
  rw [filterHead, filterHead, (Mentions.expression_moved (skipName_moved hmoved) []).1,
    map_name_moved (toList_of_rel (name?_moved hmoved)), ← hmap]
  exact .beginFilter _

theorem importHead_moved (hmoved : Token.AllMoved move tokens moved) :
    (importHead tokens).Moved move (importHead moved) := by
  obtain ⟨hmentions, hafter⟩ := Mentions.templateNames_moved hmoved ["as"]
  simp only [importHead, hmentions, startsWith_moved hafter]
  refine .importTemplate _ ?_
  split
  · exact name?_moved (allMoved_tail hafter)
  · exact .none

theorem fromHead_moved (hmoved : Token.AllMoved move tokens moved) :
    (fromHead tokens).Moved move (fromHead moved) := by
  obtain ⟨hmentions, hafter⟩ := Mentions.templateNames_moved hmoved ["import"]
  simp only [fromHead, hmentions, startsWith_moved hafter]
  refine .importNames _ ?_
  split
  · exact importedNames_moved (allMoved_tail hafter)
  · exact .nil

/-- A statement says the same wherever its text stands. -/
theorem ofBody_moved (hmoved : Token.AllMoved move tokens moved) :
    (ofBody tokens).Moved move (ofBody moved) := by
  cases hmoved with
  | nil => exact .other
  | @cons token token' rest rest' hfirst hrest =>
    have hexpression : (Mentions.expression [] rest').1 = (Mentions.expression [] rest).1.map move :=
      (Mentions.expression_moved hrest []).1
    simp only [ofBody, hfirst.kind]
    split
    · exact forHead_moved hfirst hrest
    · exact hexpression ▸ .beginIf _
    · exact hexpression ▸ .evaluate _
    · exact .otherwise
    · exact setHead_moved hrest
    · exact withHead_moved hfirst hrest
    · exact macroHead_moved hfirst hrest
    · exact callHead_moved hfirst hrest
    · exact .beginBlock hfirst (name?_moved hrest)
    · exact filterHead_moved hrest
    · exact .beginRaw
    · exact (Mentions.templateNames_moved hrest _).1 ▸ .evaluate _
    · exact (Mentions.templateNames_moved hrest _).1 ▸ .evaluate _
    · exact importHead_moved hrest
    · exact fromHead_moved hrest
    · exact .endBlock _
    · exact .endBlock _
    · exact .endBlock _
    · exact .endBlock _
    · exact .endBlock _
    · exact .endBlock _
    · exact .endBlock _
    · exact .endBlock _
    · exact .endRaw
    · rw [hfirst.text]
      split
      · exact hexpression ▸ .evaluate _
      · exact .other
    · exact .other

end Statement

/-- The tag where its text has moved to. -/
structure Tag.Moved (move : Position → Position) (tag moved : Tag) : Prop where
  form : moved.form = tag.form
  start : moved.start = move tag.start
  body : Token.AllMoved move tag.body moved.body
  after : moved.after = move tag.after

theorem Statement.ofTag_moved {tag moved : Tag} (hmoved : tag.Moved move moved) :
    (ofTag tag).Moved move (ofTag moved) := by
  rw [ofTag, ofTag, hmoved.form]
  split
  · rw [(Mentions.expression_moved hmoved.body []).1]
    exact .evaluate _
  · exact ofBody_moved hmoved.body

namespace Tag

variable {tokens moved : List Token}

theorem takeWhile_moved (hmoved : Token.AllMoved move tokens moved) :
    Token.AllMoved move (tokens.takeWhile (·.kind.isInsideTag))
      (moved.takeWhile (·.kind.isInsideTag)) := by
  induction hmoved with
  | nil => exact .nil
  | cons hfirst hrest ih =>
    rw [List.takeWhile_cons, List.takeWhile_cons, hfirst.kind]
    split
    · exact .cons hfirst ih
    · exact .nil

theorem dropWhile_moved (hmoved : Token.AllMoved move tokens moved) :
    Token.AllMoved move (tokens.dropWhile (·.kind.isInsideTag))
      (moved.dropWhile (·.kind.isInsideTag)) := by
  induction hmoved with
  | nil => exact .nil
  | cons hfirst hrest ih =>
    rw [List.dropWhile_cons, List.dropWhile_cons, hfirst.kind]
    split
    · exact ih
    · exact .cons hfirst hrest

theorem stopBefore_moved {stop : Position} (hmoved : Token.AllMoved move tokens moved) :
    stopBefore (move stop) moved = move (stopBefore stop tokens) := by
  cases hmoved with
  | nil => rfl
  | cons hfirst hrest =>
    rw [stopBefore, stopBefore, hfirst.kind]
    split
    · exact hfirst.stop
    · exact hfirst.start

/-- The tags move with their tokens. -/
theorem ofTokens_moved (stop : Position) (hmoved : Token.AllMoved move tokens moved) :
    List.Forall₂ (Tag.Moved move) (ofTokens stop tokens) (ofTokens (move stop) moved) := by
  induction tokens using tokens_induction generalizing moved with
  | nil =>
    cases hmoved
    rw [ofTokens, ofTokens]
    exact .nil
  | outside token rest hbegin ih =>
    cases hmoved with
    | cons hfirst hrest =>
      rw [ofTokens_tail hbegin, ofTokens_tail (by rwa [hfirst.kind])]
      exact ih hrest
  | opening token rest form hkind ih =>
    cases hmoved with
    | cons hfirst hrest =>
      have hlater := dropWhile_moved hrest
      rw [ofTokens, hkind, ofTokens, hfirst.kind, hkind]
      exact .cons ⟨rfl, hfirst.start, takeWhile_moved hrest, stopBefore_moved hlater⟩ (ih hlater)

end Tag

end TemplateAnalysis.Template
