import TemplateAnalysis.Proofs.Syntax.Lexing
import TemplateAnalysis.Proofs.Template.Lookahead
import TemplateAnalysis.Proofs.Template.TrailingText

namespace TemplateAnalysis.Template

namespace Lexer

open Syntax (isPlain)

/-- Whether the lexer stands outside of tags and comments behind a text when another text follows: it
    has come to the end of a piece there, or it is in the middle of text. -/
def standsOutside (mode : Mode) (before after : List Char) : Bool :=
  match before with
  | [] => mode == .data
  | c :: rest =>
    let piece := piece mode c (rest ++ after)
    if piece.more ≤ rest.length then standsOutside piece.next (rest.drop piece.more) after
    else piece.kind == some .text
  termination_by before.length
  decreasing_by
    simp only [List.length_cons, List.length_drop]
    omega

section Comments

/-- The closing mark of a comment. -/
def commentEnd : List Char := ['#', '}']

/-- The body of a comment: it does not hold the closing mark, nor does it complete one together with the
    hash sign before it. -/
structure IsCommentBody (body : List Char) : Prop where
  unclosed : ¬ commentEnd <:+: body
  first : body.head? ≠ some '}'

/-- A comment with its marks. -/
def commentChars (body : List Char) : List Char :=
  '{' :: '#' :: (body ++ commentEnd)

theorem not_commentEnd_append {first second : List Char} (hfirst : ¬ commentEnd <:+: first)
    (hsecond : ¬ commentEnd <:+: second) (hhead : second.head? ≠ some '}') :
    ¬ commentEnd <:+: first ++ second := by
  induction first with
  | nil => exact hsecond
  | cons c rest ih =>
    rw [List.infix_cons_iff, not_or] at hfirst
    rw [List.cons_append, List.infix_cons_iff, not_or]
    refine ⟨fun hbegins => ?_, ih hfirst.2⟩
    cases rest with
    | nil =>
      cases second with
      | nil => exact absurd hbegins.length_le (Nat.not_succ_le_self 1)
      | cons d later =>
        have hd := (List.cons_prefix_cons.mp (List.cons_prefix_cons.mp hbegins).2).1
        exact hhead (congrArg some hd.symm)
    | cons d later =>
      have hlong : commentEnd.length ≤ (c :: d :: later).length := by simp [commentEnd]
      exact hfirst.1 ((Text.begins_append_iff hlong second).mp hbegins)

/-- The end of a comment is found behind a text that does not hold it. -/
theorem lengthThrough_commentEnd {text : List Char} (hmissing : ¬ commentEnd <:+: text) (later : List Char) :
    Text.lengthThrough commentEnd (text ++ (commentEnd ++ later)) = text.length + 2 := by
  induction text with
  | nil => rfl
  | cons c rest ih =>
    have hbegins : ¬ commentEnd <+: c :: (rest ++ (commentEnd ++ later)) := by
      intro hbegins
      cases rest with
      | nil =>
        have hd := (List.cons_prefix_cons.mp (List.cons_prefix_cons.mp hbegins).2).1
        exact absurd hd (by decide)
      | cons d rest =>
        have hlong : commentEnd.length ≤ (c :: d :: rest).length := by simp [commentEnd]
        exact hmissing ((Text.begins_append_iff hlong _).mp hbegins).isInfix
    rw [List.infix_cons_iff, not_or] at hmissing
    rw [List.cons_append, Text.lengthThrough_cons, if_neg (mt List.isPrefixOf_iff_prefix.mp hbegins),
      ih hmissing.2, List.length_cons]

theorem IsCommentBody.not_infix {body : List Char} (hbody : IsCommentBody body) :
    ¬ commentEnd <:+: '#' :: body :=
  @not_commentEnd_append ['#'] body (by decide) hbody.unclosed hbody.first

/-- A piece that ends in a text is read off it, and then what follows. -/
theorem tokensFrom_read {mode : Mode} {c : Char} {rest after : List Char} {next : Piece}
    (hpiece : piece mode c (rest ++ after) = next) (hmore : next.more ≤ rest.length) (start : Place) :
    tokensFrom mode start (c :: rest ++ after) =
      (next.kind.map fun kind =>
        { kind, start, text := String.ofList (c :: rest.take next.more) }).toList ++
        tokensFrom next.next (start.past (c :: rest.take next.more)) (rest.drop next.more ++ after) := by
  rw [List.cons_append, tokensFrom_cons, hpiece, List.take_append_of_le_length hmore,
    List.drop_append_of_le_length hmore]

/-- A comment makes no token. -/
theorem tokensFrom_comment {body : List Char} (hbody : IsCommentBody body) (start : Place)
    (after : List Char) : tokensFrom .data start (commentChars body ++ after) =
      tokensFrom .data (start.past (commentChars body)) after := by
  have hpiece : piece .data '{' ('#' :: (body ++ commentEnd) ++ after) =
      { kind := none, more := ('#' :: (body ++ commentEnd)).length, next := .data } := by
    have hlength := lengthThrough_commentEnd hbody.not_infix after
    rw [← List.append_assoc] at hlength
    simp only [List.cons_append, piece, dataPiece] at hlength ⊢
    rw [show ['#', '}'] = commentEnd from rfl, hlength]
    simp [commentEnd]
  rw [commentChars, tokensFrom_read hpiece (le_refl _), List.take_length, List.drop_length]
  rfl

end Comments

section Texts

variable {text : List Char}

theorem withoutText_ahead (start : Place) (text : List Char) :
    withoutText (tokensFrom .data start text) =
      withoutText (tokensFrom .data (start.past (text.take (textLength text)))
        (text.drop (textLength text))) := by
  obtain ⟨texts, htexts, hread⟩ := Syntax.tokensFrom_ahead start text
  rw [hread, withoutText_append, withoutText_eq_nil htexts, List.nil_append]

/-- Behind plain text the lexer goes on as if nothing stood there. -/
theorem withoutText_plain (hplain : isPlain text = true) (start : Place) (later : List Char) :
    withoutText (tokensFrom .data start (text ++ later)) =
      withoutText (tokensFrom .data (start.past text) later) := by
  rw [withoutText_ahead start (text ++ later), withoutText_ahead (start.past text) later,
    Syntax.textLength_append later hplain, List.take_length_add_append, List.drop_length_add_append,
    Place.past_append]

/-- A text before the next opening mark is plain. -/
theorem isPlain_of_le_textLength {later : List Char} (hle : text.length ≤ textLength (text ++ later))
    (hlast : text.getLast? ≠ some '{') : isPlain text = true := by
  fun_induction isPlain text with
  | case1 => rfl
  | case2 c => simpa using hlast
  | case3 c next rest ih =>
    rw [List.cons_append, textLength] at hle
    split at hle
    next => simp at hle
    next hclosed =>
      rw [← List.cons_append, opensTag_append_eq later (by simp)] at hclosed
      rw [Bool.eq_false_of_not_eq_true hclosed, ih (Nat.le_of_succ_le_succ hle) (by simpa using hlast)]
      rfl

end Texts

section Pieces

variable {mode : Mode} {c : Char} {rest : List Char}

/-- Only outside of tags there is text. -/
theorem eq_data_of_text (hkind : (piece mode c rest).kind = some .text) : mode = .data := by
  have hsound := piece_sound mode c rest
  simp only [Piece.Sound, hkind] at hsound
  cases mode with
  | data => rfl
  | code form depth => exact absurd hsound.1.1 (Option.some_ne_none form)

/-- A piece behind which the lexer stands outside of tags is text, the end of a tag or a comment. -/
theorem kind_of_next_data (hnext : (piece mode c rest).next = .data) :
    (piece mode c rest).kind = some .text ∨ (∃ form, (piece mode c rest).kind = some (.tagEnd form)) ∨
      (piece mode c rest).kind = none := by
  have hsound := piece_sound mode c rest
  cases hkind : (piece mode c rest).kind with
  | none => exact .inr (.inr rfl)
  | some kind =>
    simp only [Piece.Sound, hkind, hnext] at hsound
    obtain ⟨hfits, hafter⟩ := hsound
    have hnone : none = tagAfter mode.tag? { kind, start := {}, text := "" } := hafter {} ""
    cases kind with
    | text => exact .inl rfl
    | tagEnd form => exact .inr (.inl ⟨form, rfl⟩)
    | endOfFile => exact hfits.elim
    | tagBegin form => cases hnone
    | _ => exact absurd hfits (by simp [Fits, show mode.tag? = none from hnone.symm])

theorem dataPiece_none (hkind : (dataPiece c rest).kind = none) :
    ∃ inner, c = '{' ∧ rest = '#' :: inner := by
  unfold dataPiece at hkind
  split at hkind
  next inner => exact ⟨inner, rfl, rfl⟩
  next => cases hkind
  next => cases hkind
  next => cases hkind

/-- A piece that makes no token and behind which the lexer stands outside of tags is a comment. -/
theorem piece_comment (hkind : (piece mode c rest).kind = none) (hnext : (piece mode c rest).next = .data) :
    ∃ inner, c = '{' ∧ rest = '#' :: inner ∧ ∀ other, piece mode '{' ('#' :: other) =
      { kind := none, more := Text.lengthThrough commentEnd ('#' :: other), next := .data } := by
  cases mode with
  | data =>
    obtain ⟨inner, hc, hrest⟩ := dataPiece_none hkind
    exact ⟨inner, hc, hrest, fun _ => rfl⟩
  | code form depth =>
    rw [piece, codePiece] at hkind hnext
    split at hkind
    next hblank =>
      rw [if_pos hblank] at hnext
      cases hnext
    next hblank =>
      split at hkind
      next => cases hkind
      next =>
        split_ifs at hkind with htag hname hdigit hquote
        · obtain ⟨inner, rfl, rfl⟩ := dataPiece_none hkind
          refine ⟨inner, rfl, rfl, fun other => ?_⟩
          have hcloser := Syntax.closerLength?_eq_none form depth ('#' :: other)
            (c := '{') (by decide) (by decide)
          have hopens : depth = 0 ∧ opensTag ('{' :: '#' :: other) = true := ⟨htag.1, rfl⟩
          have hplain : Text.isBlank '{' = false := by decide
          rw [piece, codePiece, hplain, hcloser]
          simp only [if_pos hopens]
          rfl
        · cases hkind
        · unfold symbolPiece at hkind
          split at hkind <;> cases hkind

/-- A piece that ends a tag or is a comment settles what stands before it. -/
theorem settles_of_next_data {form : TagForm} {depth : Nat} {text later : List Char}
    (hnext : (piece (.code form depth) c (text ++ later)).next = .data)
    (hmore : (piece (.code form depth) c (text ++ later)).more ≤ text.length) : Settles (c :: text) := by
  rcases kind_of_next_data hnext with hkind | ⟨closed, hkind⟩ | hkind
  · cases eq_data_of_text hkind
  · exact (piece_tagEnd_congr hkind hmore []).2
  · obtain ⟨inner, rfl, hrest, hpiece⟩ := piece_comment hkind hnext
    rw [hrest, hpiece] at hmore
    have hlong := Text.lengthThrough_ge commentEnd ('#' :: inner)
    simp only [commentEnd, List.length_cons] at hlong hmore
    refine ⟨by simp only [List.length_cons]; omega, fun ⟨c, hc, hletter⟩ => ?_⟩
    cases hc
    simp at hletter

/-- A tag that ends in a text settles what stands before it, however it ends. -/
theorem settles_of_standsOutside {form : TagForm} {depth : Nat} {before after : List Char}
    (houtside : standsOutside (.code form depth) before after = true) : Settles before := by
  induction hlength : before.length using Nat.strong_induction_on generalizing depth form before with
  | _ length ih =>
    subst hlength
    cases before with
    | nil => rw [standsOutside] at houtside; cases houtside
    | cons c rest =>
      rw [standsOutside] at houtside
      split at houtside
      next hmore =>
        cases hnext : (piece (.code form depth) c (rest ++ after)).next with
        | data => exact settles_of_next_data hnext hmore
        | code form' depth' =>
          rw [hnext] at houtside
          have hrest := ih _ (by simp only [List.length_drop, List.length_cons]; omega) houtside rfl
          exact hrest.of_suffix ((List.drop_suffix _ _).trans (List.suffix_cons c rest))
      next => cases eq_data_of_text (beq_iff_eq.mp houtside)

end Pieces

section Split

variable {mode : Mode} {before after body : List Char}

/-- The lexer reads what stands before a split and then what follows: the text alone, or a comment and
    then the text. -/
structure SplitsInto (mode : Mode) (start : Place) (before after body : List Char) (tokens : List Token) :
    Prop where
  between : Token.Between (start.past before).position start.position tokens
  plain : withoutText (tokensFrom mode start (before ++ after)) =
    tokens ++ withoutText (tokensFrom .data (start.past before) after)
  commented : withoutText (tokensFrom mode start (before ++ (commentChars body ++ after))) =
    tokens ++ withoutText (tokensFrom .data (start.past (before ++ commentChars body)) after)

theorem splitsInto_text (hbody : IsCommentBody body) (hplain : isPlain before = true) (start : Place)
    (after : List Char) : SplitsInto .data start before after body [] where
  between := start.position_le_past before
  plain := withoutText_plain hplain start after
  commented := by
    rw [withoutText_plain hplain, tokensFrom_comment hbody, Place.past_append]
    rfl

theorem between_filter {high low : Position} {tokens : List Token} {P : Token → Bool}
    (hbetween : Token.Between high low tokens) : Token.Between high low (tokens.filter P) := by
  induction tokens generalizing low with
  | nil => exact hbetween
  | cons token rest ih =>
    obtain ⟨hstart, hlt, hrest⟩ := hbetween
    rw [List.filter_cons]
    split
    · exact ⟨hstart, hlt, ih hrest⟩
    · exact (ih hrest).mono (hstart.trans token.start_le_stop)

/-- A piece before the split that is read alike whether the comment follows or not. -/
theorem SplitsInto.cons {start : Place} {c : Char} {rest : List Char} {first : Piece} {tokens : List Token}
    (hplain : piece mode c (rest ++ after) = first)
    (hcommented : piece mode c (rest ++ (commentChars body ++ after)) = first)
    (hmore : first.more ≤ rest.length)
    (hrest : SplitsInto first.next (start.past (c :: rest.take first.more)) (rest.drop first.more) after body
      tokens) : ∃ tokens, SplitsInto mode start (c :: rest) after body tokens := by
  let read := (first.kind.map fun kind =>
    ({ kind, start, text := String.ofList (c :: rest.take first.more) } : Token)).toList
  have hread : Token.Between (start.past (c :: rest.take first.more)).position start.position read := by
    cases hfirst : first.kind with
    | none =>
      simp only [read, hfirst, Option.map_none, Option.toList_none]
      exact start.position_le_past _
    | some kind =>
      simp only [read, hfirst, Option.map_some, Option.toList_some]
      refine ⟨le_refl _, fun _ => ?_, ?_⟩ <;> rw [Token.stop, String.toList_ofList]
      · exact start.position_lt_past (List.cons_ne_nil _ _)
      · exact le_refl _
  refine ⟨withoutText read ++ tokens, ?_, ?_, ?_⟩
  · have hbetween := hrest.between
    rw [past_lexeme] at hbetween
    exact (between_filter hread).append hbetween
  · rw [tokensFrom_read hplain hmore, withoutText_append, hrest.plain, past_lexeme, List.append_assoc]
  · rw [tokensFrom_read hcommented hmore, withoutText_append, hrest.commented, Place.past_append, past_lexeme,
      ← Place.past_append, List.append_assoc]

theorem tokensFrom_unclosed {inner : List Char} (start : Place)
    (hpiece : piece mode '{' ('#' :: inner) =
      { kind := none, more := Text.lengthThrough commentEnd ('#' :: inner), next := .data })
    (hlength : Text.lengthThrough commentEnd ('#' :: inner) = ('#' :: inner).length) :
    tokensFrom mode start ('{' :: '#' :: inner) =
      tokensFrom .data (start.past ('{' :: '#' :: inner)) [] := by
  rw [tokensFrom_cons, hpiece, hlength, List.take_length, List.drop_length]
  rfl

/-- A comment that is not closed before the split reaches to the end of the inserted one. -/
theorem splitsInto_unclosed (hbody : IsCommentBody body) {inner : List Char} (start : Place)
    (hpiece : ∀ other, piece mode '{' ('#' :: other) =
      { kind := none, more := Text.lengthThrough commentEnd ('#' :: other), next := .data })
    (hmissing : ¬ commentEnd <:+: '#' :: inner) :
    SplitsInto mode start ('{' :: '#' :: inner) [] body [] where
  between := start.position_le_past _
  plain := by
    rw [List.append_nil, tokensFrom_unclosed start (hpiece _) (Text.lengthThrough_eq_length hmissing)]
    rfl
  commented := by
    have hopening : ¬ commentEnd <:+: '#' :: inner ++ '{' :: '#' :: body := by
      refine not_commentEnd_append hmissing ?_ (by simp)
      rw [List.infix_cons_iff, not_or]
      exact ⟨fun hbegins => absurd (List.cons_prefix_cons.mp hbegins).1 (by decide), hbody.not_infix⟩
    have hlength := lengthThrough_commentEnd hopening []
    have hchars : '#' :: inner ++ '{' :: '#' :: body ++ (commentEnd ++ []) =
        '#' :: (inner ++ commentChars body) := by
      simp [commentChars]
    have hsize : ('#' :: (inner ++ commentChars body)).length =
        ('#' :: inner ++ '{' :: '#' :: body).length + 2 := by
      simp only [commentChars, commentEnd, List.length_cons, List.length_append, List.length_nil]
      omega
    rw [hchars, ← hsize] at hlength
    rw [List.append_nil, List.cons_append, List.cons_append, tokensFrom_unclosed start (hpiece _) hlength]
    rfl

theorem getLast?_ne_of_suffix {rest text : List Char} {c : Char} (hsuffix : rest <:+ text)
    (hlast : text.getLast? ≠ some c) : rest.getLast? ≠ some c := by
  obtain ⟨earlier, rfl⟩ := hsuffix
  intro hrest
  rw [List.getLast?_append, hrest] at hlast
  exact hlast rfl

theorem opensTag_of_text {rest : List Char} {c : Char} (hkind : (dataPiece c rest).kind = some .text) :
    opensTag (c :: rest) = false := by
  rw [← Bool.not_eq_true]
  intro hopens
  obtain ⟨mark, inner, rfl, rfl, rfl | rfl | rfl⟩ := opensTag_cases hopens <;> cases hkind

theorem opensTag_drop_textLength (text : List Char) :
    text.drop (textLength text) = [] ∨ opensTag (text.drop (textLength text)) = true := by
  induction text with
  | nil => exact .inl rfl
  | cons c rest ih =>
    rw [textLength]
    split
    next hopens => exact .inr hopens
    next => exact ih

/-- The next opening mark settles the text before it. -/
theorem settles_of_opensTag {rest later : List Char} (hopens : opensTag (rest ++ later) = true)
    (hne : rest ≠ []) (hlast : rest.getLast? ≠ some '{') : Settles rest := by
  obtain ⟨c, tail, rfl⟩ := List.exists_cons_of_ne_nil hne
  obtain ⟨mark, inner, rfl, hinner, _⟩ := opensTag_cases hopens
  cases tail with
  | nil => exact absurd rfl hlast
  | cons d tail =>
    refine ⟨by simp, fun ⟨c, hc, hletter⟩ => ?_⟩
    cases hc
    simp at hletter

/-- Text before a split either reaches up to it, or the opening mark behind the text stands before the split
    as well. -/
theorem text_cases {c : Char} {rest after : List Char} (hlast : (c :: rest).getLast? ≠ some '{')
    (hkind : (piece .data c (rest ++ after)).kind = some .text) :
    isPlain (c :: rest) = true ∨ (piece .data c (rest ++ after)).more ≤ rest.length ∧
      ∀ later, piece .data c (rest ++ later) = piece .data c (rest ++ after) := by
  have hclosed := opensTag_of_text hkind
  have hpiece : piece .data c (rest ++ after) =
      { kind := some .text, more := textLength (rest ++ after), next := .data } := dataPiece_of_plain hclosed
  rcases Nat.lt_or_ge (textLength (rest ++ after)) rest.length with hshort | hlong
  · refine .inr ⟨by rw [hpiece]; exact hshort.le, fun later => piece_congr later ?_⟩
    rw [hpiece]
    have hdrop : (rest ++ after).drop (textLength (rest ++ after)) =
        rest.drop (textLength (rest ++ after)) ++ after := List.drop_append_of_le_length hshort.le
    have hne : rest.drop (textLength (rest ++ after)) ≠ [] := fun hnil =>
      absurd (List.drop_eq_nil_iff.mp hnil) (Nat.not_le_of_lt hshort)
    have hopens := opensTag_drop_textLength (rest ++ after)
    rw [hdrop] at hopens
    refine settles_of_opensTag (hopens.resolve_left fun hnil => hne (List.append_eq_nil_iff.mp hnil).1) hne ?_
    exact getLast?_ne_of_suffix ((List.drop_suffix _ rest).trans (List.suffix_cons c rest)) hlast
  · have hreaches : (c :: rest).length ≤ textLength (c :: rest ++ after) := by
      rw [List.cons_append, textLength, hclosed]
      exact Nat.succ_le_succ hlong
    exact .inl (isPlain_of_le_textLength hreaches hlast)

/-- What is no text is read alike whatever follows, but for a comment that is not closed. -/
theorem piece_cases {c : Char} {rest after : List Char}
    (hkind : (piece mode c (rest ++ after)).kind ≠ some .text)
    (hmore : (piece mode c (rest ++ after)).more ≤ rest.length)
    (houtside : standsOutside (piece mode c (rest ++ after)).next
      (rest.drop (piece mode c (rest ++ after)).more) after = true) :
    (∀ later, piece mode c (rest ++ later) = piece mode c (rest ++ after)) ∨
      after = [] ∧ ∃ inner, c = '{' ∧ rest = '#' :: inner ∧ ¬ commentEnd <:+: '#' :: inner ∧
        ∀ other, piece mode '{' ('#' :: other) =
          { kind := none, more := Text.lengthThrough commentEnd ('#' :: other), next := .data } := by
  cases hnext : (piece mode c (rest ++ after)).next with
  | code form depth =>
    rw [hnext] at houtside
    exact .inl fun later => piece_congr later (settles_of_standsOutside houtside)
  | data =>
    rcases kind_of_next_data hnext with htext | ⟨form, hform⟩ | hnone
    · exact absurd htext hkind
    · exact .inl fun later => (piece_tagEnd_congr hform hmore later).1
    · obtain ⟨inner, rfl, hrest, hpiece⟩ := piece_comment hnone hnext
      have hlength : (piece mode '{' (rest ++ after)).more = Text.lengthThrough commentEnd (rest ++ after) := by
        rw [hrest, hpiece]
      have hlong : 0 < rest.length := by
        have hge := Text.lengthThrough_ge commentEnd (rest ++ after)
        rw [hlength] at hmore
        rw [hrest] at hge hmore
        simp only [commentEnd, List.length_cons] at hge hmore
        omega
      obtain ⟨d, inside, rfl⟩ := List.exists_cons_of_ne_nil (List.ne_nil_of_length_pos hlong)
      obtain ⟨rfl, hinner⟩ := List.cons.inj hrest
      -- Only a comment is left: its end lies in front of the split, or it is not closed at all.
      by_cases hfound : commentEnd <:+: '#' :: inside
      · refine .inl fun later => ?_
        have hthrough : ∀ later, Text.lengthThrough commentEnd ('#' :: (inside ++ later)) = _ :=
          Text.lengthThrough_append hfound
        rw [List.cons_append, List.cons_append, hpiece, hpiece, hthrough, hthrough]
      · refine .inr ⟨?_, inside, rfl, rfl, hfound, hpiece⟩
        rw [hlength] at hmore
        rcases Text.take_lengthThrough_cases commentEnd ('#' :: inside ++ after) with hends | hnil
        · rw [List.take_append_of_le_length hmore] at hends
          exact absurd (hends.isInfix.trans (List.take_prefix _ _).isInfix) hfound
        · have hshort := (List.drop_eq_nil_iff.mp hnil).trans hmore
          rw [List.length_append] at hshort
          exact List.length_eq_zero_iff.mp (by omega)

/-- Where the lexer stands outside of tags, a comment can be inserted. -/
theorem exists_splitsInto (hbody : IsCommentBody body) (start : Place)
    (houtside : standsOutside mode before after = true) (hlast : before.getLast? ≠ some '{') :
    ∃ tokens, SplitsInto mode start before after body tokens := by
  induction hlength : before.length using Nat.strong_induction_on generalizing mode start before with
  | _ length ih =>
    subst hlength
    cases before with
    | nil =>
      rw [standsOutside] at houtside
      cases beq_iff_eq.mp houtside
      exact ⟨[], splitsInto_text hbody rfl start after⟩
    | cons c rest =>
      rw [standsOutside] at houtside
      -- The pieces in front of the split are the same with the comment and without it.
      have hread : (piece mode c (rest ++ after)).more ≤ rest.length →
          (∀ later, piece mode c (rest ++ later) = piece mode c (rest ++ after)) →
          ∃ tokens, SplitsInto mode start (c :: rest) after body tokens := by
        intro hmore hpiece
        rw [if_pos hmore] at houtside
        have hsuffix := (List.drop_suffix (piece mode c (rest ++ after)).more rest).trans
          (List.suffix_cons c rest)
        obtain ⟨tokens, hrest⟩ := ih _
          (by simp only [List.length_drop, List.length_cons]; omega)
          (start.past (c :: rest.take (piece mode c (rest ++ after)).more)) houtside
          (getLast?_ne_of_suffix hsuffix hlast) rfl
        exact SplitsInto.cons rfl (hpiece _) hmore hrest
      by_cases htext : (piece mode c (rest ++ after)).kind = some .text
      · obtain rfl := eq_data_of_text htext
        rcases text_cases hlast htext with hplain | ⟨hmore, hpiece⟩
        · exact ⟨[], splitsInto_text hbody hplain start after⟩
        · exact hread hmore hpiece
      · split at houtside
        next hmore =>
          rcases piece_cases htext hmore houtside with hpiece | ⟨rfl, inner, rfl, rfl, hmissing, hpiece⟩
          · exact hread hmore hpiece
          · exact ⟨[], splitsInto_unclosed hbody start hpiece hmissing⟩
        next => exact absurd (beq_iff_eq.mp houtside) htext

end Split

end Lexer

end TemplateAnalysis.Template
