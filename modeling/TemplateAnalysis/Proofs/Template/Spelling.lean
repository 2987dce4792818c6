import TemplateAnalysis.Proofs.Source.Spelling
import TemplateAnalysis.Proofs.Template.Comments
import TemplateAnalysis.Proofs.Template.Origin

namespace TemplateAnalysis.Template

namespace Lexer

/-- A piece that makes a token begins with a blank only if it is text. -/
theorem not_isBlank_of_piece {mode : Mode} {c : Char} {rest : List Char} {kind : TokenKind}
    (hkind : (piece mode c rest).kind = some kind) (htext : kind ≠ .text) :
    Text.isBlank c = false := by
  have hdata : (dataPiece c rest).kind = some kind → Text.isBlank c = false := by
    intro hkind
    unfold dataPiece at hkind
    split at hkind
    next => cases hkind
    next => decide
    next => decide
    next => exact absurd (Option.some.inj hkind).symm htext
  cases mode with
  | data => exact hdata hkind
  | code form depth =>
    rw [piece, codePiece] at hkind
    split at hkind
    next => cases hkind
    next hblank => exact Bool.eq_false_of_not_eq_true hblank

/-- A token of a tag begins with a character that is not blank. -/
theorem exists_cons_of_mem {mode : Mode} {start : Place} {text : List Char} {token : Token}
    (hmem : token ∈ tokensFrom mode start text) (htext : token.kind ≠ .text)
    (hend : token.kind ≠ .endOfFile) :
    ∃ c rest, token.text.toList = c :: rest ∧ Text.isBlank c = false := by
  fun_induction tokensFrom mode start text with
  | case1 => exact absurd (List.mem_singleton.mp hmem ▸ rfl) hend
  | case2 mode start c rest piece lexeme later kind hkind ih =>
    rcases List.mem_cons.mp hmem with rfl | hmem
    · exact ⟨c, _, String.toList_ofList, not_isBlank_of_piece hkind htext⟩
    · exact ih hmem
  | case3 mode start c rest piece lexeme later hkind ih => exact ih hmem

end Lexer

/-- A token of a source that stands in a tag and is not text behind a comment that has ended it. -/
structure Token.InTag (source : Source) (token : Token) : Prop where
  mem : token ∈ tokenize source.chars
  inside : token.kind.isInsideTag = true
  code : token.kind ≠ .text

namespace Token.InTag

variable {source : Source} {token : Token}

/-- Part of a token is found behind what stands before it in the token. -/
theorem spells_part (htoken : token.InTag source) (front : List Char) {part : List Char}
    (hpart : front ++ part <+: token.text.toList) (hfront : front.getLast? ≠ some '\r') :
    source.Spells ((token.start.past front).rangeOf part) (String.ofList part) := by
  obtain ⟨earlier, later, hchars, hstart⟩ := (tokenize_covers source.chars).cut token htoken.mem
  obtain ⟨c, rest, hcons, hblank⟩ := Lexer.exists_cons_of_mem htoken.mem htoken.code fun hkind => by
    have hinside := htoken.inside
    rw [hkind] at hinside
    cases hinside
  rw [hcons] at hchars hpart
  rw [hstart]
  refine Source.spells_part front (hchars.trans (List.append_assoc ..)) ?_ hpart hfront
  rintro rfl
  cases hblank

theorem spells (htoken : token.InTag source) : source.Spells token.range token.text := by
  have hwhole : source.Spells token.range (String.ofList token.text.toList) :=
    htoken.spells_part [] (List.prefix_refl token.text.toList) (by simp)
  rwa [String.ofList_toList] at hwhole

/-- What stands between the quote marks of a literal is found behind the opening one. -/
theorem spells_content (htoken : token.InTag source) :
    source.Spells token.content.range token.content.text := by
  refine htoken.spells_part _ (Token.Moved.opening_append_unquote token.text.toList) fun hlast => ?_
  have hquote := (List.mem_filter.mp (List.mem_of_getLast? hlast)).2
  cases hquote

end Token.InTag

namespace Outline

variable {source : Source}

theorem inTag_of_mem {tag : Tag} {token : Token}
    (htag : tag ∈ Tag.ofTokens source.endPosition (withoutText (tokenize source.chars)))
    (hmem : token ∈ tag.body) : token.InTag source := by
  obtain ⟨earlier, opening, later, hstands⟩ := Tag.exists_standsIn htag
  have htoken : token ∈ withoutText (tokenize source.chars) := by
    rw [hstands.split]
    simp [hmem]
  obtain ⟨hlisted, hcode⟩ := List.mem_filter.mp htoken
  exact ⟨hlisted, hstands.inside token hmem, by simpa using hcode⟩

/-- A name that a statement declares is a token of its tag. -/
theorem inTag_of_declaring {tag : Tag} {name : Token}
    (htag : tag ∈ Tag.ofTokens source.endPosition (tokenize source.chars))
    (hname : name ∈ (Statement.ofTag tag).declaring) : name.InTag source := by
  have hchain : (tokenize source.chars).IsChain Token.TextLast :=
    (tokenize_layout source.chars).isChain
  have hsame := Statement.ofTag_withoutText (Tag.body_trailed source.endPosition hchain tag htag)
  rw [← hsame] at hname
  refine inTag_of_mem ?_ (Statement.mem_body_of_declaring hname)
  rw [Tag.ofTokens_withoutText]
  exact List.mem_map_of_mem htag

/-- What a template mentions are tokens of its tags: the names of variables as a whole, the names of
    templates and the links without their quote marks. -/
theorem exists_recorded_inTag (source : Source) : ∃ uses declared,
    Recorded uses (ofSource source).mentions declared ∧ ∀ used ∈ uses, used.1.InTag source := by
  let stop := source.endPosition
  let initial : State := { scopes := .ofEnd stop }
  have hchain : (tokenize source.chars).IsChain Token.TextLast :=
    (tokenize_layout source.chars).isChain
  obtain ⟨uses, mentions, declared, huses, hrecorded, hmentions, _⟩ :=
    exists_recorded initial (Tag.ofTokens stop (withoutText (tokenize source.chars)))
  refine ⟨uses, declared, ?_, fun used hused => ?_⟩
  · rw [foldl_withoutText stop hchain] at hmentions
    have hfinished : (ofSource source).mentions = initial.mentions ++ mentions :=
      (mentions_ofTokens stop _).trans hmentions
    rw [hfinished]
    exact (Mentions.empty_append mentions).symm ▸ hrecorded
  · obtain ⟨tag, htag, hmem⟩ := List.mem_flatMap.mp (huses.subset (List.mem_map_of_mem hused))
    exact inTag_of_mem htag hmem

end Outline

end TemplateAnalysis.Template
