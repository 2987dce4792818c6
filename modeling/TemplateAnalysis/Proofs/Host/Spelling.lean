import Mathlib.Data.List.Infix
import Mathlib.Data.List.TakeWhile
import TemplateAnalysis.Host.Scan
import TemplateAnalysis.Proofs.Identifier
import TemplateAnalysis.Proofs.Source.Spelling
import TemplateAnalysis.Proofs.Text

namespace TemplateAnalysis.Host

namespace Quoted

theorem isPrefix_modifiers (text : List Char) : modifiers text <+: text := by
  unfold modifiers
  split
  · exact List.takeWhile_prefix _
  · exact List.nil_prefix

theorem isPrefix_opening (text : List Char) : opening text <+: text := by
  have hmark : mark text <+: text.drop (modifiers text).length := by
    simp only [mark]
    split <;> exact List.take_prefix _ _
  have hopening := (List.prefix_append_right_inj (modifiers text)).mpr hmark
  rwa [List.prefix_iff_eq_append.mp (isPrefix_modifiers text)] at hopening

/-- The content of a literal stands behind everything that opens it. -/
theorem opening_append_content (text : List Char) : opening text ++ content text <+: text := by
  have hcontent : content text <+: text.drop (opening text).length := List.take_prefix _ _
  have hwhole := (List.prefix_append_right_inj (opening text)).mpr hcontent
  rwa [List.prefix_iff_eq_append.mp (isPrefix_opening text)] at hwhole

/-- Behind the letters and hash signs that modify a literal there is its quote mark. A text without any
    quote mark is not modified. -/
theorem exists_drop_modifiers (c : Char) (rest : List Char) : ∃ first body,
    (c :: rest).drop (modifiers (c :: rest)).length = first :: body ∧
      (isQuote first = true ∨ first = c) := by
  unfold modifiers
  split
  next hquote =>
    obtain ⟨quote, hmem, hisQuote⟩ := List.any_eq_true.mp hquote
    have hbreak := List.head?_dropWhile_not (fun c => !isQuote c) (c :: rest)
    rw [Text.drop_takeWhile]
    cases hbody : (c :: rest).dropWhile fun c => !isQuote c with
    | nil =>
      have hnone := List.dropWhile_eq_nil_iff.mp hbody quote hmem
      rw [hisQuote] at hnone
      cases hnone
    | cons first body =>
      rw [hbody] at hbreak
      exact ⟨first, body, rfl, .inl ((Bool.not_eq_false' _).mp hbreak)⟩
  next => exact ⟨c, rest, rfl, .inr rfl⟩

/-- What opens a literal ends in a quote mark, or it is the only character of a text without one. -/
theorem getLast?_opening (c : Char) (rest : List Char) :
    ∃ last, (opening (c :: rest)).getLast? = some last ∧ (isQuote last = true ∨ last = c) := by
  obtain ⟨first, body, hbody, hfirst⟩ := exists_drop_modifiers c rest
  have hmark : ∃ last, (mark (c :: rest)).getLast? = some last ∧ (isQuote last = true ∨ last = c) := by
    simp only [mark, hbody]
    split
    next htriple =>
      rw [Bool.or_eq_true, List.isPrefixOf_iff_prefix, List.isPrefixOf_iff_prefix] at htriple
      rcases htriple with hprefix | hprefix
      all_goals
        obtain ⟨others, hothers⟩ := hprefix
        rw [← hothers]
        exact ⟨_, rfl, .inl rfl⟩
    next => exact ⟨first, rfl, hfirst⟩
  obtain ⟨last, hlast, hquote⟩ := hmark
  refine ⟨last, ?_, hquote⟩
  rw [opening, List.getLast?_append, hlast, Option.some_or]

end Quoted

variable {language : HostLanguage} {token other : Token} {tokens : List Token} {identifier : Identifier}

namespace Lexer

theorem not_isBlank_of_piece {c : Char} {rest : List Char} {kind : TokenKind}
    (hkind : (piece language c rest).kind = some kind) : Text.isBlank c = false := by
  unfold piece at hkind
  split at hkind
  next => cases hkind
  next hblank => exact Bool.eq_false_of_not_eq_true hblank

/-- A token is a part of the text of the program, and begins with a character that is not blank. -/
theorem tokensFrom_placed {start : Place} {text : List Char}
    (hmem : token ∈ tokensFrom language start text) :
    ∃ earlier later c rest, text = earlier ++ (token.text.toList ++ later) ∧
      token.start = start.past earlier ∧ token.text.toList = c :: rest ∧ Text.isBlank c = false := by
  fun_induction tokensFrom language start text with
  | case1 => cases hmem
  | case2 start c rest piece lexeme later kind hkind ih =>
    rcases List.mem_cons.mp hmem with rfl | hmem
    · refine ⟨[], rest.drop piece.more, c, rest.take piece.more, ?_, rfl, String.toList_ofList,
        not_isBlank_of_piece hkind⟩
      rw [String.toList_ofList, List.nil_append, List.cons_append, List.take_append_drop]
    · obtain ⟨earlier, after, first, others, htext, hstart, hcons, hblank⟩ := ih hmem
      refine ⟨lexeme ++ earlier, after, first, others, ?_, ?_, hcons, hblank⟩
      · rw [List.append_assoc, ← htext, List.cons_append, List.take_append_drop]
      · rw [hstart, Place.past_append]
  | case3 start c rest piece lexeme later hkind ih =>
    obtain ⟨earlier, after, first, others, htext, hstart, hcons, hblank⟩ := ih hmem
    refine ⟨lexeme ++ earlier, after, first, others, ?_, ?_, hcons, hblank⟩
    · rw [List.append_assoc, ← htext, List.cons_append, List.take_append_drop]
    · rw [hstart, Place.past_append]

end Lexer

/-- The identifier is the word of a token, or the content of a literal. -/
def Token.Yields (token : Token) (identifier : Identifier) : Prop :=
  identifier = token.identifier identifier.kind ∨ identifier = token.contentIdentifier identifier.kind

/-- What a token of a program yields is found at its range. -/
theorem Token.Yields.spells {source : Source} (hyields : token.Yields identifier)
    (hmem : token ∈ tokenize language source.chars) :
    source.Spells identifier.range identifier.name := by
  obtain ⟨earlier, later, c, rest, htext, hstart, hcons, hblank⟩ := Lexer.tokensFrom_placed hmem
  rw [hcons] at htext
  have hword : c ≠ '\n' := by
    rintro rfl
    cases hblank
  rcases hyields with hidentifier | hidentifier
  · have hwhole := Source.spells_part [] htext hword (List.prefix_refl _) (by simp)
    rw [← hcons, String.ofList_toList, ← hstart] at hwhole
    rw [hidentifier]
    exact hwhole
  · have hfront : (Quoted.opening (c :: rest)).getLast? ≠ some '\r' := by
      obtain ⟨last, hlast, hquote⟩ := Quoted.getLast?_opening c rest
      rw [hlast]
      rintro hreturn
      cases Option.some.inj hreturn
      rcases hquote with hquote | rfl
      · cases hquote
      · cases hblank
    have hcontent := Source.spells_part _ htext hword (Quoted.opening_append_content _) hfront
    rw [← hcons, ← hstart] at hcontent
    rw [hidentifier]
    exact hcontent

/-- What a token yields is a part of the text of the program. -/
theorem Token.Yields.cut {text : List Char} (hyields : token.Yields identifier)
    (hmem : token ∈ tokenize language text) : ∃ earlier part, earlier ++ part <+: text ∧
      identifier.range = (Place.past {} earlier).rangeOf part ∧ identifier.name = String.ofList part ∧
      identifier.error = none := by
  obtain ⟨earlier, later, c, rest, htext, hstart, -⟩ := Lexer.tokensFrom_placed hmem
  have hwhole : earlier ++ token.text.toList <+: text := ⟨later, by rw [htext, List.append_assoc]⟩
  rcases hyields with hidentifier | hidentifier
  · refine ⟨earlier, token.text.toList, hwhole, ?_⟩
    rw [hidentifier, ← hstart, String.ofList_toList]
    exact ⟨rfl, rfl, rfl⟩
  · have hcontent := (List.prefix_append_right_inj earlier).mpr
      (Quoted.opening_append_content token.text.toList)
    refine ⟨earlier ++ Quoted.opening token.text.toList, Quoted.content token.text.toList, ?_, ?_⟩
    · rw [List.append_assoc]
      exact hcontent.trans hwhole
    · rw [hidentifier, Place.past_append, ← hstart]
      exact ⟨rfl, rfl, rfl⟩

/-- No two identifiers of a program agree in range and kind. -/
theorem Token.Yields.unique {text : List Char} {identifier' : Identifier} (hyields : token.Yields identifier)
    (hmem : token ∈ tokenize language text) (hyields' : other.Yields identifier')
    (hmem' : other ∈ tokenize language text) (hsame : identifier.sameRecord identifier' = true) :
    identifier = identifier' := by
  obtain ⟨earlier, part, hprefix, hrange, hname, herror⟩ := hyields.cut hmem
  obtain ⟨earlier', part', hprefix', hrange', hname', herror'⟩ := hyields'.cut hmem'
  obtain ⟨hranges, hkinds⟩ := Identifier.sameRecord_iff.mp hsame
  have hplaces := hrange.symm.trans (hranges.trans hrange')
  have hearlier : earlier = earlier' := Place.eq_of_position_past
    ((List.prefix_append _ _).trans hprefix) ((List.prefix_append _ _).trans hprefix')
    (congrArg Range.start hplaces)
  have hstop := congrArg Range.stop hplaces
  simp only [Place.rangeOf, ← Place.past_append] at hstop
  have hparts := Place.eq_of_position_past hprefix hprefix' hstop
  rw [hearlier] at hparts
  cases identifier
  cases identifier'
  simp_all

/-- What is collected from the tokens of a program are identifiers of its tokens. -/
def Token.YieldsAll (tokens : List Token) (identifiers : List Identifier) : Prop :=
  ∀ identifier ∈ identifiers, ∃ token ∈ tokens, token.Yields identifier

namespace Token.YieldsAll

variable {first second : List Identifier}

theorem nil (tokens : List Token) : YieldsAll tokens [] :=
  fun _ hmem => nomatch hmem

theorem append (hfirst : YieldsAll tokens first) (hsecond : YieldsAll tokens second) :
    YieldsAll tokens (first ++ second) :=
  fun identifier hmem => (List.mem_append.mp hmem).elim (hfirst identifier) (hsecond identifier)

theorem mono {more : List Token} (hyields : YieldsAll tokens first) (hsubset : tokens ⊆ more) :
    YieldsAll more first := fun identifier hmem => by
  obtain ⟨token, htoken, hidentifier⟩ := hyields identifier hmem
  exact ⟨token, hsubset htoken, hidentifier⟩

theorem cons (hyields : YieldsAll tokens first) (token : Token) : YieldsAll (token :: tokens) first :=
  hyields.mono (List.subset_cons_self token tokens)

theorem word (hyields : YieldsAll tokens first) (token : Token) (kind : IdentifierKind) :
    YieldsAll (token :: tokens) (token.identifier kind :: first) :=
  List.forall_mem_cons.mpr ⟨⟨token, List.mem_cons_self, .inl rfl⟩, hyields.cons token⟩

theorem content (hmem : token ∈ tokens) (kind : IdentifierKind) :
    YieldsAll tokens [token.contentIdentifier kind] :=
  List.forall_mem_singleton.mpr ⟨token, hmem, .inr rfl⟩

end Token.YieldsAll

open Token (YieldsAll)

namespace ContextKeys

theorem keys_yields (depth : Nat) (atItemStart : Bool) (tokens : List Token) :
    YieldsAll tokens (keys depth atItemStart tokens) := by
  fun_induction keys depth atItemStart tokens with
  | case1 => exact .nil _
  | case3 => exact .nil _
  | case6 depth atItemStart token rest _ _ _ later _ ih => exact ih.word token .hostVariable
  | _ => next ih => exact ih.cons _

theorem firstString?_mem {argument : Token} (hfound : firstString? tokens = some argument) :
    argument ∈ tokens := by
  unfold firstString? at hfound
  split at hfound
  next bracket first rest =>
    split at hfound
    · cases hfound
      exact List.mem_cons_of_mem bracket List.mem_cons_self
    · cases hfound
  next => cases hfound

theorem contextKeys_yields (tokens : List Token) : YieldsAll tokens (contextKeys tokens) := by
  unfold contextKeys
  split
  next bracket rest =>
    split
    · exact (keys_yields 0 true rest).cons bracket
    · exact .nil _
  next => exact .nil _

theorem ofWord_yields (before : Option Token) (token : Token) (rest : List Token) :
    YieldsAll rest (ofWord before token rest) := by
  unfold ofWord
  split
  · exact (contextKeys_yields rest.tail).mono (List.tail_subset rest)
  · split
    next => exact .nil _
    next argument hfound =>
      split
      · exact .content (firstString?_mem hfound) .hostVariable
      · split
        · exact .content (firstString?_mem hfound) .templateRef
        · exact .nil _

theorem collect_yields (before : Option Token) (tokens : List Token) :
    YieldsAll tokens (collect before tokens) := by
  induction tokens generalizing before with
  | nil => exact .nil _
  | cons token rest ih =>
    rw [collect]
    refine YieldsAll.append ?_ ((ih (some token)).cons token)
    split
    · exact (ofWord_yields before token rest).cons token
    · exact .nil _

end ContextKeys

namespace KeywordArguments

theorem names_yields (depth : Nat) (tokens : List Token) : YieldsAll tokens (names depth tokens) := by
  fun_induction names depth tokens with
  | case1 => exact .nil _
  | case3 => exact .nil _
  | case5 depth token rest _ _ _ ih => exact ih.word token .hostVariable
  | _ => next ih => exact ih.cons _

theorem renderArguments_yields (token : Token) (rest : List Token) :
    YieldsAll rest (renderArguments token rest) := by
  unfold renderArguments
  split
  · exact (names_yields 0 rest.tail).mono (List.tail_subset rest)
  · exact .nil _

theorem updateArguments_yields (before : List Token) (token : Token) (rest : List Token) :
    YieldsAll rest (updateArguments before token rest) := by
  unfold updateArguments
  split
  next =>
    split
    · exact (names_yields 0 rest.tail).mono (List.tail_subset rest)
    · exact .nil _
  next => exact .nil _

theorem tableEntry_yields (token : Token) (rest : List Token) :
    YieldsAll rest (tableEntry token rest) := by
  unfold tableEntry
  split
  next =>
    split
    · exact .content (by simp) .hostVariable
    · exact .nil _
  next => exact .nil _

theorem templateName_yields (token : Token) (rest : List Token) :
    YieldsAll rest (templateName token rest) := by
  unfold templateName
  split
  next =>
    split
    · exact .content (by simp) .templateRef
    · exact .nil _
  next => exact .nil _

theorem collect_yields (before tokens : List Token) : YieldsAll tokens (collect before tokens) := by
  induction tokens generalizing before with
  | nil => exact .nil _
  | cons token rest ih =>
    rw [collect]
    refine YieldsAll.append ?_ ((ih (token :: before)).cons token)
    split
    · refine YieldsAll.cons ?_ token
      exact (((renderArguments_yields token rest).append (updateArguments_yields before token rest)).append
        (tableEntry_yields token rest)).append (templateName_yields token rest)
    · exact .nil _

end KeywordArguments

/-- What a program declares or mentions is found at its range. -/
theorem spells_of_mem_scan {source : Source} (hmem : identifier ∈ scan language source) :
    source.Spells identifier.range identifier.name := by
  have hyields : YieldsAll (tokenize language source.chars) (scan language source) := by
    intro identifier hmem
    cases language with
    | rust => exact ContextKeys.collect_yields none _ _ (Identifier.mem_of_mem_normalize hmem)
    | python => exact KeywordArguments.collect_yields [] _ _ (Identifier.mem_of_mem_normalize hmem)
  obtain ⟨token, htoken, hidentifier⟩ := hyields identifier hmem
  exact hidentifier.spells htoken

end TemplateAnalysis.Host
