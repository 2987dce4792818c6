import TemplateAnalysis.Proofs.Position
import TemplateAnalysis.Source
import TemplateAnalysis.Template.Lexer
import TemplateAnalysis.Template.Tag

namespace TemplateAnalysis.Template

namespace Token

theorem start_le_stop (token : Token) : token.start.position ≤ token.stop.position :=
  Place.position_le_past token.start token.text.toList

/-- Tokens that follow one another in a text, from a position on and up to another one. Only the
    token at the end of the file is empty. -/
def Between (high : Position) : Position → List Token → Prop
  | low, [] => low ≤ high
  | low, token :: rest =>
    low ≤ token.start.position ∧
      (token.kind ≠ .endOfFile → token.start.position < token.stop.position) ∧
      Between high token.stop.position rest

theorem Between.le {high low : Position} {tokens : List Token}
    (hbetween : Between high low tokens) : low ≤ high := by
  induction tokens generalizing low with
  | nil => exact hbetween
  | cons token rest ih =>
    obtain ⟨hstart, _, hrest⟩ := hbetween
    exact hstart.trans (token.start_le_stop.trans (ih hrest))

theorem Between.mono {high low earlier : Position} {tokens : List Token}
    (hbetween : Between high low tokens) (hle : earlier ≤ low) :
    Between high earlier tokens := by
  cases tokens with
  | nil => exact hle.trans hbetween
  | cons token rest => exact ⟨hle.trans hbetween.1, hbetween.2⟩

theorem Between.extend {high higher low : Position} {tokens : List Token}
    (hbetween : Between high low tokens) (hle : high ≤ higher) : Between higher low tokens := by
  induction tokens generalizing low with
  | nil => exact le_trans hbetween hle
  | cons token rest ih => exact ⟨hbetween.1, hbetween.2.1, ih hbetween.2.2⟩

theorem Between.append {high middle low : Position} {first second : List Token}
    (hfirst : Between middle low first) (hsecond : Between high middle second) :
    Between high low (first ++ second) := by
  induction first generalizing low with
  | nil => exact hsecond.mono hfirst
  | cons token rest ih => exact ⟨hfirst.1, hfirst.2.1, ih hfirst.2.2⟩

theorem Between.split {high low : Position} {first second : List Token}
    (hbetween : Between high low (first ++ second)) : ∃ middle, Between middle low first ∧
      Between high middle second := by
  induction first generalizing low with
  | nil => exact ⟨low, le_refl _, hbetween⟩
  | cons token rest ih =>
    obtain ⟨hstart, hlt, hrest⟩ := hbetween
    obtain ⟨middle, hfirst, hsecond⟩ := ih hrest
    exact ⟨middle, ⟨hstart, hlt, hfirst⟩, hsecond⟩

theorem Between.of_mem {high low : Position} {tokens : List Token} {token : Token}
    (hbetween : Between high low tokens) (hmem : token ∈ tokens) :
    low ≤ token.start.position ∧ token.stop.position ≤ high := by
  induction tokens generalizing low with
  | nil => cases hmem
  | cons first rest ih =>
    obtain ⟨hstart, _, hrest⟩ := hbetween
    rcases List.mem_cons.mp hmem with rfl | hmem
    · exact ⟨hstart, hrest.le⟩
    · obtain ⟨hlow, hhigh⟩ := ih hrest hmem
      exact ⟨hstart.trans (first.start_le_stop.trans hlow), hhigh⟩

end Token

namespace Lexer

theorem past_lexeme (start : Place) (c : Char) (rest : List Char) (count : Nat) :
    (start.past (c :: rest.take count)).past (rest.drop count) = start.past (c :: rest) := by
  rw [← Place.past_append, List.cons_append, List.take_append_drop]

/-- The lexer cuts a text into tokens that follow one another. -/
theorem tokensFrom_between (mode : Mode) (start : Place) (text : List Char) :
    Token.Between (start.past text).position start.position (tokensFrom mode start text) := by
  fun_induction tokensFrom mode start text with
  | case1 mode start =>
    exact ⟨le_refl _, fun hkind => absurd rfl hkind, le_refl _⟩
  | case2 mode start c rest piece lexeme later kind hkind ih =>
    rw [past_lexeme] at ih
    refine ⟨le_refl _, fun _ => ?_, ?_⟩
    · simpa only [Token.stop, String.toList_ofList] using
        start.position_lt_past (List.cons_ne_nil c _)
    · simpa only [Token.stop, String.toList_ofList] using ih
  | case3 mode start c rest piece lexeme later hkind ih =>
    rw [past_lexeme] at ih
    exact ih.mono (start.position_le_past lexeme)

end Lexer

namespace Tag

/-- Tags that follow one another in a text, each with the tokens inside it, from a position on and
    up to another one. -/
def Between (high : Position) : Position → List Tag → Prop
  | low, [] => low ≤ high
  | low, tag :: rest =>
    low ≤ tag.start ∧ Token.Between tag.after tag.start tag.body ∧ Between high tag.after rest

theorem Between.le {high low : Position} {tags : List Tag} (hbetween : Between high low tags) :
    low ≤ high := by
  induction tags generalizing low with
  | nil => exact hbetween
  | cons tag rest ih =>
    obtain ⟨hstart, hbody, hrest⟩ := hbetween
    exact hstart.trans (hbody.le.trans (ih hrest))

theorem ofTokens_tail {stop : Position} {token : Token} {rest : List Token}
    (hkind : token.kind.isTagBegin = false) :
    ofTokens stop (token :: rest) = ofTokens stop rest := by
  rw [ofTokens]
  split
  · simp_all [TokenKind.isTagBegin]
  · rfl

/-- Induction along the reading of tags: a token outside of a tag is passed by, and behind the opening
    of a tag the reading goes on at the end of the body. -/
@[elab_as_elim]
theorem tokens_induction {motive : List Token → Prop} (nil : motive [])
    (outside : ∀ token rest, token.kind.isTagBegin = false → motive rest → motive (token :: rest))
    (opening : ∀ token rest form, token.kind = .tagBegin form →
      motive (rest.dropWhile (·.kind.isInsideTag)) → motive (token :: rest))
    (tokens : List Token) : motive tokens := by
  induction hlength : tokens.length using Nat.strong_induction_on generalizing tokens with
  | _ length ih =>
    subst hlength
    cases tokens with
    | nil => exact nil
    | cons token rest =>
      cases hkind : token.kind with
      | tagBegin form =>
        have hshort := (List.dropWhile_sublist (fun token : Token => token.kind.isInsideTag)
          (l := rest)).length_le
        exact opening token rest form hkind (ih _ (Nat.lt_succ_of_le hshort) _ rfl)
      | _ => exact outside token rest (by rw [hkind]; rfl) (ih _ (Nat.lt_succ_self _) _ rfl)

/-- What follows the body of a tag begins at the end of the tag, and so do the later tags. -/
theorem exists_after {stop low : Position} {later : List Token}
    (hlater : Token.Between stop low later) (hbreak : later = [] ∨ ∃ token rest,
      later = token :: rest ∧ token.kind.isInsideTag = false) :
    ∃ remaining, remaining.length ≤ later.length ∧ ofTokens stop later = ofTokens stop remaining ∧
      low ≤ stopBefore stop later ∧ Token.Between stop (stopBefore stop later) remaining := by
  rcases hbreak with rfl | ⟨token, rest, rfl, hinside⟩
  · exact ⟨[], le_refl _, rfl, hlater, le_refl _⟩
  · by_cases hend : token.kind.isTagEnd = true
    · refine ⟨rest, by simp, ofTokens_tail ?_, ?_, ?_⟩
      · cases hkind : token.kind <;> simp_all [TokenKind.isTagBegin, TokenKind.isTagEnd]
      · rw [stopBefore, if_pos hend]
        exact hlater.1.trans token.start_le_stop
      · rw [stopBefore, if_pos hend]
        exact hlater.2.2
    · refine ⟨token :: rest, le_refl _, rfl, ?_, ?_⟩
      · rw [stopBefore, if_neg hend]
        exact hlater.1
      · rw [stopBefore, if_neg hend]
        exact ⟨le_refl _, hlater.2⟩

theorem takeWhile_break (tokens : List Token) :
    tokens.dropWhile (·.kind.isInsideTag) = [] ∨ ∃ token rest,
      tokens.dropWhile (·.kind.isInsideTag) = token :: rest ∧ token.kind.isInsideTag = false := by
  cases hlater : tokens.dropWhile (·.kind.isInsideTag) with
  | nil => exact .inl rfl
  | cons token rest =>
    refine .inr ⟨token, rest, rfl, ?_⟩
    have hnot := List.head_dropWhile_not (fun token : Token => token.kind.isInsideTag)
      (l := tokens) (by simp [hlater])
    simpa only [hlater, List.head_cons, Bool.not_eq_true] using hnot

/-- The tags among tokens that follow one another follow one another too. -/
theorem ofTokens_between {stop low : Position} {tokens : List Token}
    (htokens : Token.Between stop low tokens) : Between stop low (ofTokens stop tokens) := by
  induction hlength : tokens.length using Nat.strong_induction_on generalizing tokens low with
  | _ length ih =>
    subst hlength
    cases tokens with
    | nil =>
      rw [ofTokens]
      exact htokens
    | cons token rest =>
      obtain ⟨hstart, hlt, hrest⟩ := htokens
      cases hbegin : token.kind.isTagBegin with
      | false =>
        rw [ofTokens_tail hbegin]
        exact ih rest.length (by simp) (hrest.mono (hstart.trans token.start_le_stop)) rfl
      | true =>
        obtain ⟨form, hkind⟩ : ∃ form, token.kind = .tagBegin form := by
          cases hkind : token.kind <;> simp_all [TokenKind.isTagBegin]
        rw [← List.takeWhile_append_dropWhile (p := fun token : Token => token.kind.isInsideTag)
          (l := rest)] at hrest
        obtain ⟨middle, hbody, hlater⟩ := hrest.split
        obtain ⟨remaining, hshort, hsame, hle, hremaining⟩ :=
          exists_after hlater (takeWhile_break rest)
        rw [ofTokens, hkind]
        refine ⟨hstart, (hbody.mono token.start_le_stop).extend hle, ?_⟩
        rw [hsame]
        refine ih remaining.length ?_ hremaining rfl
        have hdrop := (List.dropWhile_sublist (fun token : Token => token.kind.isInsideTag)
          (l := rest)).length_le
        simp only [List.length_cons]
        omega

end Tag

/-- The tags of a template follow one another from its beginning to its end. -/
theorem tags_between (source : Source) :
    Tag.Between source.endPosition {} (Tag.ofTokens source.endPosition (tokenize source.chars)) :=
  Tag.ofTokens_between (Lexer.tokensFrom_between .data {} source.chars)

end TemplateAnalysis.Template
