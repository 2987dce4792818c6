import TemplateAnalysis.Proofs.Template.Order

namespace TemplateAnalysis.Template

theorem Token.Between.start_lt_stop {high low : Position} {tokens : List Token} {token : Token}
    (hbetween : Token.Between high low tokens) (hmem : token ∈ tokens)
    (hkind : token.kind ≠ .endOfFile) : token.start.position < token.stop.position := by
  induction tokens generalizing low with
  | nil => cases hmem
  | cons first rest ih =>
    rcases List.mem_cons.mp hmem with rfl | hmem
    · exact hbetween.2.1 hkind
    · exact ih hbetween.2.2 hmem

/-- Each token ends where a later one begins, or before that. -/
theorem Token.Between.pairwise {high low : Position} {tokens : List Token}
    (hbetween : Token.Between high low tokens) :
    tokens.Pairwise fun first second => first.stop.position ≤ second.start.position := by
  induction tokens generalizing low with
  | nil => exact List.Pairwise.nil
  | cons token rest ih =>
    obtain ⟨_, _, hrest⟩ := hbetween
    exact List.pairwise_cons.mpr ⟨fun other hother => (hrest.of_mem hother).1, ih hrest⟩

namespace Tag

theorem Between.split {high low : Position} {first second : List Tag}
    (hbetween : Between high low (first ++ second)) : ∃ middle, Between middle low first ∧
      Between high middle second := by
  induction first generalizing low with
  | nil => exact ⟨low, le_refl _, hbetween⟩
  | cons tag rest ih =>
    obtain ⟨hstart, hbody, hrest⟩ := hbetween
    obtain ⟨middle, hfirst, hsecond⟩ := ih hrest
    exact ⟨middle, ⟨hstart, hbody, hfirst⟩, hsecond⟩

/-- Where a tag stands among tokens: behind its opening mark there is its body, up to a token that
    cannot stand in it. -/
structure StandsIn (stop : Position) (tokens : List Token) (tag : Tag) (earlier : List Token)
    (opening : Token) (later : List Token) : Prop where
  split : tokens = earlier ++ opening :: (tag.body ++ later)
  opens : opening.kind = .tagBegin tag.form
  start_eq : opening.start.position = tag.start
  inside : ∀ token ∈ tag.body, token.kind.isInsideTag = true
  stops : later = [] ∨ ∃ token rest, later = token :: rest ∧ token.kind.isInsideTag = false
  after_eq : tag.after = stopBefore stop later

theorem StandsIn.append {stop : Position} {tokens earlier later : List Token} {opening : Token}
    {tag : Tag} (hstands : StandsIn stop tokens tag earlier opening later) (before : List Token) :
    StandsIn stop (before ++ tokens) tag (before ++ earlier) opening later :=
  { hstands with split := by rw [hstands.split, List.append_assoc] }

theorem exists_standsIn {stop : Position} {tokens : List Token} {tag : Tag}
    (hmem : tag ∈ ofTokens stop tokens) :
    ∃ earlier opening later, StandsIn stop tokens tag earlier opening later := by
  fun_induction ofTokens stop tokens with
  | case1 => cases hmem
  | case2 token rest form hkind later ih =>
    have hrest : rest = rest.takeWhile (·.kind.isInsideTag) ++ later :=
      List.takeWhile_append_dropWhile.symm
    rcases List.mem_cons.mp hmem with rfl | hmem
    · refine ⟨[], token, later, by rw [List.nil_append, ← hrest], hkind, rfl, ?_,
        takeWhile_break rest, rfl⟩
      exact fun other hother => List.all_eq_true.mp List.all_takeWhile other hother
    · obtain ⟨earlier, opening, after, hstands⟩ := ih hmem
      have hwhole := hstands.append (token :: rest.takeWhile (·.kind.isInsideTag))
      rw [List.cons_append, ← hrest] at hwhole
      exact ⟨_, _, _, hwhole⟩
  | case3 token rest _ ih =>
    obtain ⟨earlier, opening, after, hstands⟩ := ih hmem
    exact ⟨_, _, _, hstands.append [token]⟩

/-- The tokens of a tag stand between its opening mark and its end, and none of them is empty. -/
structure Bounded (tag : Tag) : Prop where
  between : ∃ low, tag.start < low ∧ Token.Between tag.after low tag.body
  wide : ∀ token ∈ tag.body, token.kind ≠ .endOfFile

theorem Bounded.start_lt_after {tag : Tag} (hbounded : tag.Bounded) : tag.start < tag.after := by
  obtain ⟨low, hlow, hbody⟩ := hbounded.between
  exact hlow.trans_le hbody.le

theorem Bounded.of_mem {tag : Tag} {token : Token} (hbounded : tag.Bounded)
    (hmem : token ∈ tag.body) :
    tag.start < token.start.position ∧ token.stop.position ≤ tag.after := by
  obtain ⟨low, hlow, hbody⟩ := hbounded.between
  obtain ⟨hstart, hstop⟩ := Token.Between.of_mem hbody hmem
  exact ⟨hlow.trans_le hstart, hstop⟩

theorem Bounded.start_lt_stop {tag : Tag} {token : Token} (hbounded : tag.Bounded)
    (hmem : token ∈ tag.body) : token.start.position < token.stop.position := by
  obtain ⟨low, -, hbody⟩ := hbounded.between
  exact hbody.start_lt_stop hmem (hbounded.wide token hmem)

/-- The tokens of a tag end one after the other. -/
theorem Bounded.pairwise {tag : Tag} (hbounded : tag.Bounded) :
    tag.body.Pairwise fun first second =>
      first.stop.position ≤ second.start.position ∧ first.stop.position < second.stop.position := by
  obtain ⟨low, -, hbody⟩ := hbounded.between
  refine hbody.pairwise.imp_of_mem fun {first second} _ hsecond hle => ⟨hle, ?_⟩
  exact hle.trans_lt (hbounded.start_lt_stop hsecond)

section StandsIn

variable {stop low : Position} {tokens earlier later : List Token} {opening : Token} {tag : Tag}

/-- Behind the opening mark there is the body, and the rest of the tokens comes behind that. -/
theorem StandsIn.between (hstands : StandsIn stop tokens tag earlier opening later)
    (hbetween : Token.Between stop low tokens) : tag.start < opening.stop.position ∧
      ∃ middle, Token.Between middle opening.stop.position tag.body ∧
        Token.Between stop middle later := by
  rw [hstands.split] at hbetween
  obtain ⟨_, _, hopening⟩ := hbetween.split
  obtain ⟨_, hwide, hrest⟩ := hopening
  refine ⟨?_, hrest.split⟩
  rw [← hstands.start_eq]
  exact hwide (by rw [hstands.opens]; exact TokenKind.noConfusion)

theorem StandsIn.bounded (hstands : StandsIn stop tokens tag earlier opening later)
    (hbetween : Token.Between stop low tokens) : tag.Bounded := by
  obtain ⟨hmark, middle, hbody, hlater⟩ := hstands.between hbetween
  obtain ⟨_, _, _, hle, _⟩ := exists_after hlater hstands.stops
  refine ⟨⟨opening.stop.position, hmark, hbody.extend (hstands.after_eq ▸ hle)⟩, ?_⟩
  intro token hmem hkind
  have hinside := hstands.inside token hmem
  rw [hkind] at hinside
  cases hinside

/-- A position up to the end of a word of a tag lies before the end of the tag, unless the next tag or
    the end of the file is there. -/
theorem StandsIn.lt_after {position : Position} {word : Token}
    (hstands : StandsIn stop tokens tag earlier opening later)
    (hbetween : Token.Between stop low tokens)
    (hlast : ∃ others last, tokens = others ++ [last] ∧ last.kind = .endOfFile)
    (hword : word ∈ tag.body) (hposition : position ≤ word.stop.position)
    (hfree : ∀ token ∈ tokens, token.kind.isTagBegin = true ∨ token.kind = .endOfFile →
      token.start.position ≠ position) : position < tag.after := by
  obtain ⟨_, middle, hbody, hlater⟩ := hstands.between hbetween
  have hmiddle : position ≤ middle := hposition.trans (hbody.of_mem hword).2
  rcases hstands.stops with rfl | ⟨token, rest, rfl, houtside⟩
  · obtain ⟨others, last, htokens, hend⟩ := hlast
    have hsplit := hstands.split
    rw [List.append_nil, htokens] at hsplit
    have hmem : last ∈ opening :: tag.body := by
      have hgetLast := congrArg List.getLast? hsplit
      rw [List.getLast?_concat, List.getLast?_append, List.getLast?_eq_some_getLast
        (List.cons_ne_nil opening tag.body), Option.some_or, Option.some.injEq] at hgetLast
      exact hgetLast ▸ List.getLast_mem _
    rcases List.mem_cons.mp hmem with rfl | hmem
    · rw [hstands.opens] at hend
      cases hend
    · have hinside := hstands.inside last hmem
      rw [hend] at hinside
      cases hinside
  · obtain ⟨hstart, hwide, _⟩ := hlater
    rw [hstands.after_eq, stopBefore]
    split
    next hend =>
      refine (hmiddle.trans hstart).trans_lt (hwide ?_)
      rintro hkind
      rw [hkind] at hend
      cases hend
    next hend =>
      refine lt_of_le_of_ne (hmiddle.trans hstart) (Ne.symm (hfree token ?_ ?_))
      · rw [hstands.split]
        simp
      · cases hkind : token.kind <;> simp_all [TokenKind.isInsideTag, TokenKind.isTagBegin]

end StandsIn

end Tag

namespace Lexer

theorem isNamePart_of_isNameStart {c : Char} (hname : isNameStart c = true) :
    isNamePart c = true := by
  rw [isNameStart, Bool.or_eq_true] at hname
  rw [isNamePart, Text.isAlphanumeric, Bool.or_eq_true, Bool.or_eq_true]
  exact hname.imp_left .inl

/-- A piece that is a word is made of the characters of names. -/
def Piece.Spelled (c : Char) (rest : List Char) (piece : Piece) : Prop :=
  ∀ kind, piece.kind = some kind → kind.isWord = true →
    ∀ other ∈ c :: rest.take piece.more, isNamePart other = true

theorem Piece.spelled_of_kind {c : Char} {rest : List Char} {piece : Piece}
    (hkind : piece.kind.any (·.isWord) = false) : piece.Spelled c rest := by
  intro kind hsome hword
  rw [hsome, Option.any_some, hword] at hkind
  cases hkind

theorem dataPiece_spelled (c : Char) (rest : List Char) : (dataPiece c rest).Spelled c rest := by
  unfold dataPiece
  split <;> exact Piece.spelled_of_kind rfl

theorem codePiece_spelled (form : TagForm) (depth : Nat) (c : Char) (rest : List Char) :
    (codePiece form depth c rest).Spelled c rest := by
  unfold codePiece
  split
  next => exact Piece.spelled_of_kind rfl
  next =>
    split
    next => exact Piece.spelled_of_kind rfl
    next =>
      split_ifs with hopens hname hdigit hquote
      · exact dataPiece_spelled c rest
      · intro _ _ _
        refine List.forall_mem_cons.mpr ⟨isNamePart_of_isNameStart hname, fun other hmem => ?_⟩
        rw [← List.prefix_iff_eq_take.mp (List.takeWhile_prefix isNamePart)] at hmem
        exact List.all_eq_true.mp List.all_takeWhile other hmem
      · refine Piece.spelled_of_kind ?_
        simp only [numberPiece]
        split_ifs <;> rfl
      · exact Piece.spelled_of_kind rfl
      · refine Piece.spelled_of_kind ?_
        unfold symbolPiece
        split
        next => rfl
        next => cases symbol? c <;> rfl

theorem piece_spelled (mode : Mode) (c : Char) (rest : List Char) :
    (piece mode c rest).Spelled c rest :=
  match mode with
  | .data => dataPiece_spelled c rest
  | .code form depth => codePiece_spelled form depth c rest

/-- A word is made of the characters of names. -/
theorem isNamePart_of_mem {mode : Mode} {start : Place} {text : List Char} {token : Token}
    (hmem : token ∈ tokensFrom mode start text) (hword : token.kind.isWord = true) :
    ∀ c ∈ token.text.toList, isNamePart c = true := by
  fun_induction tokensFrom mode start text with
  | case1 =>
    rw [List.mem_singleton.mp hmem] at hword
    cases hword
  | case2 mode start c rest piece lexeme later kind hkind ih =>
    rcases List.mem_cons.mp hmem with rfl | hmem
    · rw [String.toList_ofList]
      exact piece_spelled mode c rest kind hkind hword
    · exact ih hmem
  | case3 mode start c rest piece lexeme later hkind ih => exact ih hmem

end Lexer

theorem tokens_between (source : Source) :
    Token.Between source.endPosition {} (tokenize source.chars) :=
  Lexer.tokensFrom_between .data {} source.chars

/-- The tags of a template have all their tokens between their beginning and their end. -/
theorem tags_bounded (source : Source) :
    ∀ tag ∈ Tag.ofTokens source.endPosition (tokenize source.chars), tag.Bounded := by
  intro tag hmem
  obtain ⟨_, _, _, hstands⟩ := Tag.exists_standsIn hmem
  exact hstands.bounded (tokens_between source)

end TemplateAnalysis.Template
