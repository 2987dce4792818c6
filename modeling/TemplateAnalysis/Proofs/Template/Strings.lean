import TemplateAnalysis.Proofs.Source.Offsets
import TemplateAnalysis.Proofs.Template.Classification
import TemplateAnalysis.Proofs.Template.Layout

namespace TemplateAnalysis.Template

namespace Lexer

theorem wordKind_ne_string (word : List Char) : wordKind word ≠ .string := by
  rcases wordKind_cases word with hkind | ⟨keyword, hkind⟩ <;> simp [hkind]

theorem dataPiece_ne_string (c : Char) (rest : List Char) : (dataPiece c rest).kind ≠ some .string := by
  unfold dataPiece
  split <;> nofun

theorem symbolPiece_ne_string (form : TagForm) (depth : Nat) (c : Char) (rest : List Char) :
    (symbolPiece form depth c rest).kind ≠ some .string := by
  unfold symbolPiece
  split
  next => nofun
  next => cases symbol? c <;> nofun

/-- A string literal begins with a quote mark. -/
theorem isQuote_of_piece {mode : Mode} {c : Char} {rest : List Char}
    (hkind : (piece mode c rest).kind = some .string) : c = '"' ∨ c = '\'' := by
  cases mode with
  | data => exact absurd hkind (dataPiece_ne_string c rest)
  | code form depth =>
    rw [piece] at hkind
    unfold codePiece at hkind
    split at hkind
    next => cases hkind
    next =>
      split at hkind
      next => cases hkind
      next =>
        split_ifs at hkind with hopens hname hdigit hquote
        · exact absurd hkind (dataPiece_ne_string c rest)
        · exact absurd (Option.some.inj hkind) (wordKind_ne_string _)
        · simp only [numberPiece] at hkind
          split_ifs at hkind <;> cases hkind
        · exact hquote
        · exact absurd hkind (symbolPiece_ne_string form depth c rest)

theorem exists_quote {mode : Mode} {start : Place} {text : List Char} {token : Token}
    (hmem : token ∈ tokensFrom mode start text) (hstring : token.kind = .string) :
    ∃ quote body, token.text.toList = quote :: body ∧ (quote = '"' ∨ quote = '\'') := by
  fun_induction tokensFrom mode start text with
  | case1 =>
    rw [List.mem_singleton.mp hmem] at hstring
    cases hstring
  | case2 mode start c rest piece lexeme later kind hkind ih =>
    rcases List.mem_cons.mp hmem with rfl | hmem
    · exact ⟨c, _, String.toList_ofList, isQuote_of_piece (hkind.trans (congrArg some hstring))⟩
    · exact ih hmem
  | case3 mode start c rest piece lexeme later hkind ih => exact ih hmem

end Lexer

/-- A token of a source stands in its text. -/
theorem exists_placed {source : Source} {token : Token} (hmem : token ∈ tokenize source.chars) :
    ∃ earlier later, source.chars = earlier ++ (token.text.toList ++ later) ∧
      token.start = Place.past {} earlier := by
  obtain ⟨before, after, htokens⟩ := List.append_of_mem hmem
  obtain ⟨_, earlier, gap, later, htext, _, hstart, _⟩ := (htokens ▸ tokenize_layout source.chars).cut
  refine ⟨earlier ++ gap, later, by rw [htext, List.append_assoc], ?_⟩
  rw [hstart, Place.past_append]

/-- An offset cuts a token: the characters in front stand before it, and the others behind it. -/
structure Token.Cut (source : Source) (offset : Nat) (token : Token) (front back : List Char) :
    Prop where
  split : token.text.toList = front ++ back
  nonempty : front ≠ []
  offset_eq : offset = (token.start.past front).offset
  position_eq : source.positionAt offset = (token.start.past front).position

namespace Token

variable {source : Source} {token : Token} {offset : Nat} {front back : List Char}

/-- A boundary within a token cuts it. -/
theorem exists_cut (hmem : token ∈ tokenize source.chars) (hboundary : source.IsBoundary offset)
    (hstart : token.start.offset < offset) (hstop : offset ≤ token.stop.offset) :
    ∃ front back, token.Cut source offset front back := by
  obtain ⟨earlier, later, htext, hplace⟩ := exists_placed hmem
  obtain ⟨before, behind, hsplit, rfl⟩ := hboundary
  have hfirst : token.start.offset = Text.byteLength earlier := by
    rw [hplace, Place.offset_past, Nat.zero_add]
  rw [Token.stop, Place.offset_past, hfirst] at hstop
  rw [hfirst] at hstart
  -- The token and the boundary cut the same text, and the boundary is not outside of the token.
  have hfront : ∃ front back, before = earlier ++ front ∧ token.text.toList = front ++ back := by
    rcases List.append_eq_append_iff.mp (hsplit.symm.trans htext) with
      ⟨middle, hmiddle, _⟩ | ⟨middle, rfl, hmiddle⟩
    · rw [hmiddle, Text.byteLength_append] at hstart
      omega
    · rcases List.append_eq_append_iff.mp hmiddle with ⟨back, hback, _⟩ | ⟨back, hback, _⟩
      · have hempty : back = [] := by
          by_contra hne
          have hpos := Text.byteLength_pos hne
          rw [hback, Text.byteLength_append, Text.byteLength_append] at hstop
          omega
        rw [hempty, List.append_nil] at hback
        exact ⟨middle, [], rfl, by rw [hback, List.append_nil]⟩
      · exact ⟨middle, back, rfl, hback⟩
  obtain ⟨front, back, rfl, htoken⟩ := hfront
  have hpast : Place.past {} (earlier ++ front) = token.start.past front := by
    rw [Place.past_append, hplace]
  refine ⟨front, back, htoken, ?_, ?_, ?_⟩
  · rintro rfl
    rw [List.append_nil] at hstart
    exact absurd hstart (Nat.lt_irrefl _)
  · rw [← hpast, Place.offset_past, Nat.zero_add]
  · rw [Source.positionAt_eq hsplit, hpast]

theorem unquote_cons {quote : Char} (hquote : quote = '"' ∨ quote = '\'') (body : List Char) :
    unquote (quote :: body) =
      if body.getLast?.any (fun c => c = '"' || c = '\'') then body.dropLast else body := by
  rcases hquote with rfl | rfl <;> rfl

/-- The content of a literal begins behind its quote mark. -/
theorem content_range {quote : Char} {body : List Char} (htext : token.text.toList = quote :: body)
    (hquote : quote = '"' ∨ quote = '\'') :
    token.content.range = (token.start.after quote).rangeOf (unquote token.text.toList) := by
  have hopening : (token.text.toList.take 1).filter (fun c => c = '"' || c = '\'') = [quote] := by
    rw [htext]
    rcases hquote with rfl | rfl <;> rfl
  simp only [Token.content, hopening]
  rfl

namespace Cut

theorem start_lt (hcut : token.Cut source offset front back) :
    token.range.start < source.positionAt offset := by
  rw [hcut.position_eq]
  exact token.start.position_lt_past hcut.nonempty

theorem le_stop (hcut : token.Cut source offset front back) :
    source.positionAt offset ≤ token.range.stop := by
  rw [hcut.position_eq, Token.range, Place.rangeOf, hcut.split, Place.past_append]
  exact Place.position_le_past _ back

/-- What stands of a literal before an offset within it begins with its quote mark. -/
theorem exists_typed (hcut : token.Cut source offset front back) (hmem : token ∈ tokenize source.chars)
    (hstring : token.kind = .string) : ∃ quote typed, front = quote :: typed ∧
      (quote = '"' ∨ quote = '\'') ∧ token.text.toList = quote :: (typed ++ back) := by
  obtain ⟨quote, body, htext, hquote⟩ := Lexer.exists_quote hmem hstring
  obtain ⟨first, typed, rfl⟩ := List.exists_cons_of_ne_nil hcut.nonempty
  obtain ⟨rfl, -⟩ := List.cons.inj (htext.symm.trans hcut.split)
  exact ⟨quote, typed, rfl, hquote, hcut.split⟩

/-- The content of a literal goes on at least up to the last character of the literal. -/
theorem le_content_stop (hcut : token.Cut source offset front back) (hmem : token ∈ tokenize source.chars)
    (hstring : token.kind = .string) (hback : back ≠ []) :
    source.positionAt offset ≤ token.content.range.stop := by
  obtain ⟨quote, typed, rfl, hquote, htext⟩ := hcut.exists_typed hmem hstring
  obtain ⟨rest, hrest⟩ : typed <+: unquote token.text.toList := by
    rw [htext, unquote_cons hquote, List.dropLast_append_of_ne_nil hback]
    split <;> exact List.prefix_append _ _
  rw [hcut.position_eq, content_range htext hquote, Place.rangeOf, ← hrest, Place.past_append]
  exact Place.position_le_past _ rest

theorem back_ne_nil (hcut : token.Cut source offset front back) (hstop : offset < token.stop.offset) :
    back ≠ [] := by
  rintro rfl
  rw [hcut.offset_eq, Token.stop, hcut.split, List.append_nil] at hstop
  exact Nat.lt_irrefl _ hstop

/-- The content of a literal begins before an offset within it, but for the offset behind the quote
    mark. -/
theorem content_start_cases (hcut : token.Cut source offset front back)
    (hmem : token ∈ tokenize source.chars) (hstring : token.kind = .string) :
    offset = token.start.offset + 1 ∧ token.content.range.start = source.positionAt offset ∨
      offset ≠ token.start.offset + 1 ∧ token.content.range.start < source.positionAt offset := by
  obtain ⟨quote, typed, rfl, hquote, htext⟩ := hcut.exists_typed hmem hstring
  have hsize : quote.utf8Size = 1 := by rcases hquote with rfl | rfl <;> decide
  have hoffset : offset = token.start.offset + 1 + Text.byteLength typed := by
    rw [hcut.offset_eq, Place.offset_past, Text.byteLength_cons, hsize, Nat.add_assoc]
  rw [content_range htext hquote, hcut.position_eq, Place.past_cons]
  cases typed with
  | nil => exact .inl ⟨hoffset, rfl⟩
  | cons c typed =>
    have hpos := Text.byteLength_pos (List.cons_ne_nil c typed)
    exact .inr ⟨by omega, Place.position_lt_past _ (List.cons_ne_nil c typed)⟩

end Cut

end Token

end TemplateAnalysis.Template
