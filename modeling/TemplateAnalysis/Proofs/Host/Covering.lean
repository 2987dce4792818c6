import TemplateAnalysis.Proofs.Host.Comments
import TemplateAnalysis.Proofs.Host.Spelling

namespace TemplateAnalysis.Host

/-- A character literal: one character between apostrophes, or an escape. An escape holds neither an
    apostrophe nor a line feed. -/
inductive IsCharacter : List Char → Prop
  | plain {c : Char} (hplain : c ≠ '\\') : IsCharacter ['\'', c, '\'']
  | escape {escape : List Char} (hline : '\n' ∉ escape) (hquote : '\'' ∉ escape) :
      IsCharacter ('\'' :: '\\' :: escape ++ ['\''])

/-- Text of a program that makes no token, before the rest of the program: blanks, comments, and the
    apostrophes of lifetimes, at which no character literal begins. -/
inductive Skipped (language : HostLanguage) (rest : List Char) : List Char → Prop
  | nothing : Skipped language rest []
  | blank {c : Char} {skipped : List Char} (hblank : Text.isBlank c = true)
      (hskipped : Skipped language rest skipped) : Skipped language rest (c :: skipped)
  | comment {comment skipped : List Char} (hcomment : IsComment (skipped ++ rest) language comment)
      (hskipped : Skipped language rest skipped) : Skipped language rest (comment ++ skipped)
  | apostrophe {skipped : List Char} (hlanguage : language = .rust)
      (hlone : ∀ literal, IsCharacter literal → ¬ literal <+: '\'' :: (skipped ++ rest))
      (hskipped : Skipped language rest skipped) : Skipped language rest ('\'' :: skipped)

namespace Lexer

section Lengths

variable {language : HostLanguage} {text : List Char} {length : Nat}

theorem plainLength_le (quote : Char) (endsAtLine : Bool) (text : List Char) :
    plainLength quote endsAtLine text ≤ text.length := by
  fun_induction plainLength quote endsAtLine text with
  | _ => simp only [List.length_cons, List.length_nil] at *; omega

theorem quotedLength_le (language : HostLanguage) (text : List Char) :
    quotedLength language text ≤ text.length := by
  cases text with
  | nil => exact le_refl _
  | cons quote rest =>
    rw [quotedLength, List.length_cons]
    split
    next htriple =>
      have hle := Text.lengthThrough_le [quote, quote, quote] (rest.drop 2)
      have hlong := congrArg List.length htriple.2
      simp only [List.length_take, List.length_drop, List.length_cons, List.length_nil] at hle hlong
      omega
    next =>
      have hle := plainLength_le quote (language == .python) rest
      omega

theorem rawLength?_le (hraw : rawLength? text = some length) : length ≤ text.length := by
  unfold rawLength? at hraw
  simp only at hraw
  split at hraw
  next rest hrest =>
    have hle := Text.lengthThrough_le ('"' :: text.takeWhile (· == '#')) rest
    have hlength := congrArg List.length hrest
    rw [List.length_drop, List.length_cons] at hlength
    obtain rfl := Option.some.inj hraw
    omega
  next => cases hraw

theorem length_pos_of_isModifier {modifier : List Char} (hmodifier : isModifier language modifier = true) :
    0 < modifier.length := by
  refine List.length_pos_iff.mpr ?_
  rintro rfl
  cases language <;> cases hmodifier

theorem modifiedLength?_le (hmodified : modifiedLength? language text = some length) :
    0 < length ∧ length ≤ text.length := by
  have hsplit : (text.takeWhile Char.isAlpha).length +
      (text.drop (text.takeWhile Char.isAlpha).length).length = text.length := by
    have hle := (List.takeWhile_prefix (l := text) Char.isAlpha).length_le
    rw [List.length_drop]
    omega
  unfold modifiedLength? at hmodified
  simp only at hmodified
  split at hmodified
  next => cases hmodified
  next hvalid =>
    have hpos := length_pos_of_isModifier (by simpa using hvalid)
    split at hmodified
    next =>
      obtain ⟨more, hmore, rfl⟩ := Option.map_eq_some_iff.mp hmodified
      have hle := rawLength?_le hmore
      omega
    next =>
      split at hmodified
      next =>
        obtain rfl := Option.some.inj hmodified
        have hle := quotedLength_le language (text.drop (text.takeWhile Char.isAlpha).length)
        omega
      next => cases hmodified

theorem characterLength_le (text : List Char) : characterLength text ≤ text.length := by
  unfold characterLength
  split
  next rest =>
    simp only
    split
    next hend =>
      obtain ⟨tail, htail⟩ := List.head?_eq_some_iff.mp hend
      have hlong := congrArg List.length htail
      rw [List.length_drop, List.length_cons] at hlong
      rw [List.length_cons]
      omega
    next => exact Nat.zero_le _
  next => simp
  next => exact Nat.zero_le _

theorem piece_of_isBlank (language : HostLanguage) {c : Char} (rest : List Char) (hblank : Text.isBlank c = true) :
    piece language c rest = { kind := none, more := 0 } := by
  rw [piece, if_pos hblank]

theorem piece_of_comment? {c : Char} {rest : List Char} (hblank : Text.isBlank c = false)
    (hcomment : comment? language (c :: rest) = some length) :
    piece language c rest = { kind := none, more := length - 1 } := by
  rw [piece, if_neg (by simp [hblank]), hcomment]

theorem piece_of_modifiedLength? {c : Char} {rest : List Char} (hblank : Text.isBlank c = false)
    (hcomment : comment? language (c :: rest) = none)
    (hmodified : modifiedLength? language (c :: rest) = some length) :
    piece language c rest = { kind := some .string, more := length - 1 } := by
  rw [piece, if_neg (by simp [hblank]), hcomment, hmodified]

/-- The piece at a character that begins no comment and no literal with letters before its quote
    mark. -/
def plainPiece (language : HostLanguage) (c : Char) (rest : List Char) : Piece :=
  if Text.isAlphabetic c || c == '_' then
    { kind := some .word
      more := (rest.takeWhile fun c => Text.isAlphanumeric c || c == '_').length }
  else if c.isDigit then
    { kind := some .number
      more := (rest.takeWhile fun c => c.isAlphanum || c == '_' || c == '.').length }
  else if c = '"' ∨ c = '\'' ∧ language = .python then
    { kind := some .string, more := quotedLength language (c :: rest) - 1 }
  else if c = '\'' then
    { kind := if characterLength rest = 0 then none else some .string, more := characterLength rest }
  else
    { kind := some .punctuation
      more := if rest.head?.any fun next => operators.contains (c, next) then 1 else 0 }

theorem piece_eq_plainPiece {c : Char} {rest : List Char} (hblank : Text.isBlank c = false)
    (hcomment : comment? language (c :: rest) = none)
    (hmodified : modifiedLength? language (c :: rest) = none) :
    piece language c rest = plainPiece language c rest := by
  rw [piece, if_neg (by simp [hblank]), hcomment, hmodified]
  rfl

/-- What a piece can be. -/
theorem piece_cases (language : HostLanguage) (c : Char) (rest : List Char) :
    (Text.isBlank c = true ∧ piece language c rest = { kind := none, more := 0 }) ∨
    (∃ length, comment? language (c :: rest) = some length ∧
      piece language c rest = { kind := none, more := length - 1 }) ∨
    (∃ length, modifiedLength? language (c :: rest) = some length ∧
      piece language c rest = { kind := some .string, more := length - 1 }) ∨
    piece language c rest = plainPiece language c rest := by
  cases hblank : Text.isBlank c with
  | true => exact .inl ⟨rfl, piece_of_isBlank language rest hblank⟩
  | false =>
    cases hcomment : comment? language (c :: rest) with
    | some length => exact .inr (.inl ⟨length, rfl, piece_of_comment? hblank hcomment⟩)
    | none =>
      cases hmodified : modifiedLength? language (c :: rest) with
      | some length =>
        exact .inr (.inr (.inl ⟨length, rfl, piece_of_modifiedLength? hblank hcomment hmodified⟩))
      | none => exact .inr (.inr (.inr (piece_eq_plainPiece hblank hcomment hmodified)))

theorem plainPiece_more_le (c : Char) (rest : List Char) :
    (plainPiece language c rest).more ≤ rest.length := by
  unfold plainPiece
  split_ifs with hword hdigit hquote hapostrophe hlength hoperator
  · exact (List.takeWhile_prefix _).length_le
  · exact (List.takeWhile_prefix _).length_le
  · have hle := quotedLength_le language (c :: rest)
    rw [List.length_cons] at hle
    simp only
    omega
  · exact characterLength_le rest
  · exact characterLength_le rest
  · cases rest with
    | nil => cases hoperator
    | cons next rest => exact Nat.le_add_left 1 _
  · exact Nat.zero_le _

theorem piece_more_le (c : Char) (rest : List Char) : (piece language c rest).more ≤ rest.length := by
  rcases piece_cases language c rest with ⟨_, hpiece⟩ | ⟨length, hcomment, hpiece⟩ |
    ⟨length, hmodified, hpiece⟩ | hpiece <;> rw [hpiece]
  · exact Nat.zero_le _
  · have hle := (comment?_sound hcomment).2.1
    rw [List.length_cons] at hle
    simp only
    omega
  · have hle := (modifiedLength?_le hmodified).2
    rw [List.length_cons] at hle
    simp only
    omega
  · exact plainPiece_more_le c rest

/-- An escape is read up to the next apostrophe. -/
theorem characterLength_escape {escape tail : List Char} (hline : '\n' ∉ escape) (hquote : '\'' ∉ escape) :
    characterLength ('\\' :: (escape ++ ['\''] ++ tail)) = escape.length + 2 := by
  have hplain : ∀ c ∈ escape, decide (c ≠ '\'' ∧ c ≠ '\n') = true := fun c hc =>
    decide_eq_true ⟨fun hsame => hquote (hsame ▸ hc), fun hsame => hline (hsame ▸ hc)⟩
  have htake : (escape ++ ['\''] ++ tail).takeWhile (fun c => decide (c ≠ '\'' ∧ c ≠ '\n')) = escape := by
    rw [List.append_assoc, List.takeWhile_append_of_pos hplain]
    simp
  rw [characterLength, htake, List.append_assoc, List.drop_left]
  rfl

end Lengths

/-- Where no length is found for a character literal, none begins. -/
theorem not_isPrefix_of_characterLength {literal rest : List Char} (hnone : characterLength rest = 0)
    (hliteral : IsCharacter literal) : ¬ literal <+: '\'' :: rest := by
  rintro ⟨tail, htail⟩
  cases hliteral with
  | @plain c hplain =>
    obtain rfl : c :: '\'' :: tail = rest := (List.cons.inj htail).2
    rw [characterLength] at hnone
    · cases hnone
    · exact fun hc => hplain hc
  | @escape escape hline hquote =>
    obtain rfl : '\\' :: (escape ++ ['\'']) ++ tail = rest := (List.cons.inj htail).2
    rw [List.cons_append, characterLength_escape hline hquote] at hnone
    cases hnone

/-- What is skipped is a blank, a comment or an apostrophe at which no character literal begins. -/
theorem piece_skipped {language : HostLanguage} {c : Char} {rest skipped later : List Char}
    (hkind : (piece language c rest).kind = none)
    (hlater : rest.drop (piece language c rest).more = skipped ++ later)
    (hskipped : Skipped language later skipped) :
    Skipped language later (c :: rest.take (piece language c rest).more ++ skipped) := by
  rcases piece_cases language c rest with ⟨hblank, hpiece⟩ | ⟨length, hcomment, hpiece⟩ |
    ⟨length, _, hpiece⟩ | hpiece <;> rw [hpiece] at hkind hlater ⊢
  · exact .blank hblank hskipped
  · obtain ⟨hpos, -, hsound⟩ := comment?_sound hcomment
    obtain ⟨count, rfl⟩ := Nat.exists_eq_add_of_le' hpos
    simp only [Nat.add_sub_cancel] at hlater ⊢
    rw [List.drop_succ_cons, List.take_succ_cons, hlater] at hsound
    exact .comment hsound hskipped
  · cases hkind
  · unfold plainPiece at hkind hlater ⊢
    split_ifs at hkind hlater ⊢ with hword hdigit hquote hapostrophe hlength
    simp only [hlength, List.drop_zero] at hlater ⊢
    subst hapostrophe
    have hrust : language = .rust := by
      cases language with
      | rust => rfl
      | python => exact absurd (.inr ⟨rfl, rfl⟩) hquote
    exact .apostrophe hrust (fun _ => hlater ▸ not_isPrefix_of_characterLength hlength) hskipped

/-- No length that the lexer computes for a text goes beyond it, and no comment is closed more often than
    it is opened. -/
structure Bounded (language : HostLanguage) (text : List Char) : Prop where
  piece : ∀ c rest, text = c :: rest → (piece language c rest).more ≤ rest.length
  comment : ∀ length, comment? language text = some length → 0 < length ∧ length ≤ text.length
  balanced : ∀ rest, text = '/' :: '*' :: rest →
    checkedLength? 0 text = some (nestedCommentLength 0 text)
  modified : ∀ length, modifiedLength? language text = some length →
    0 < length ∧ length ≤ text.length
  raw : ∀ length, rawLength? text = some length → length ≤ text.length
  quoted : quotedLength language text ≤ text.length
  character : characterLength text ≤ text.length

theorem bounded (language : HostLanguage) (text : List Char) : Bounded language text where
  piece c rest _ := piece_more_le c rest
  comment length hfound := ⟨(comment?_sound hfound).1, (comment?_sound hfound).2.1⟩
  balanced rest htext := by
    rw [htext, checkedLength?, nestedCommentLength, checkedLength?_eq, Option.map_some]
  modified length := modifiedLength?_le
  raw length := rawLength?_le
  quoted := quotedLength_le language text
  character := characterLength_le text

end Lexer

/-- The place behind a token. -/
def Token.stop (token : Token) : Place :=
  token.start.past token.text.toList

/-- Tokens that cover a text from a place on: each one stands behind text that makes no token. -/
inductive Layout (language : HostLanguage) : Place → List Char → List Token → Prop
  | finish {place : Place} {gap : List Char} (hskipped : Skipped language [] gap) :
      Layout language place gap []
  | token {place : Place} {gap later : List Char} {token : Token} {tokens : List Token}
      (hstart : token.start = place.past gap)
      (hskipped : Skipped language (token.text.toList ++ later) gap) (hne : token.text ≠ "")
      (hlater : Layout language token.stop later tokens) :
      Layout language place (gap ++ (token.text.toList ++ later)) (token :: tokens)

namespace Layout

variable {language : HostLanguage} {place : Place} {text : List Char} {tokens : List Token}

/-- A token may stand at the beginning of what is covered. -/
theorem here (token : Token) (hne : token.text ≠ "")
    (hlater : Layout language token.stop text tokens) :
    Layout language token.start (token.text.toList ++ text) (token :: tokens) :=
  .token rfl .nothing hne hlater

/-- More text may be skipped before tokens that cover the rest of a text. -/
theorem skip {gap : List Char} (hlayout : Layout language (place.past gap) text tokens)
    (hgap : ∀ {rest skipped}, text = skipped ++ rest → Skipped language rest skipped →
      Skipped language rest (gap ++ skipped)) : Layout language place (gap ++ text) tokens := by
  cases hlayout with
  | finish hskipped => exact .finish (hgap (List.append_nil _).symm hskipped)
  | token hstart hskipped hne hlater =>
    rw [← List.append_assoc]
    exact .token (by rw [hstart, Place.past_append]) (hgap rfl hskipped) hne hlater

/-- What covers a text cuts it between its tokens: between two of them, before the first one and behind
    the last one there is text that makes no token. -/
theorem cut {before after : List Token} (hlayout : Layout language place text (before ++ after)) :
    ∃ earlier gap later, text = earlier ++ (gap ++ later) ∧
      place.past earlier = (before.getLast?.map Token.stop).getD place ∧
      place.past (earlier ++ gap) = (after.head?.map Token.start).getD (place.past text) ∧
      Skipped language later gap ∧
      ∀ token ∈ after.head?, token.text ≠ "" ∧ token.text.toList <+: later := by
  induction before generalizing place text with
  | nil =>
    rw [List.nil_append] at hlayout
    cases hlayout with
    | finish hskipped =>
      exact ⟨[], text, [], by simp, rfl, rfl, hskipped, fun _ hmem => nomatch hmem⟩
    | @token _ gap later token _ hstart hskipped hne hlater =>
      refine ⟨[], gap, _, rfl, rfl, hstart.symm, hskipped, ?_⟩
      rintro _ ⟨⟩
      exact ⟨hne, List.prefix_append _ _⟩
  | cons first before ih =>
    rw [List.cons_append] at hlayout
    cases hlayout with
    | @token _ skipped rest _ _ hstart hskipped hne hlater =>
      obtain ⟨earlier, gap, later, rfl, hplace, hnext, hgap, htoken⟩ := ih hlater
      have hpast : ∀ more, place.past (skipped ++ first.text.toList ++ more) = first.stop.past more := by
        intro more
        rw [Place.past_append, Place.past_append, ← hstart, Token.stop]
      refine ⟨skipped ++ first.text.toList ++ earlier, gap, later, by simp, ?_, ?_, hgap, htoken⟩
      · rw [hpast, hplace, List.getLast?_cons]
        cases before.getLast? <;> rfl
      · rw [List.append_assoc _ earlier, hpast, hnext, ← List.append_assoc skipped, hpast]

/-- Tokens that cover a text stand behind one another. -/
theorem ordered (hlayout : Layout language place text tokens) :
    (∀ token ∈ tokens, place.offset ≤ token.start.offset ∧ token.start.offset < token.stop.offset) ∧
      tokens.Pairwise fun first second => first.stop.offset ≤ second.start.offset := by
  induction hlayout with
  | finish _ => exact ⟨fun _ hmem => (nomatch hmem), List.Pairwise.nil⟩
  | @token place gap later token _ hstart _ hne _ ih =>
    have hfirst : place.offset ≤ token.start.offset := hstart ▸ place.offset_le_past gap
    have hwide : token.start.offset < token.stop.offset :=
      token.start.offset_lt_past (mt String.toList_eq_nil_iff.mp hne)
    obtain ⟨hafter, hpairwise⟩ := ih
    refine ⟨List.forall_mem_cons.mpr ⟨⟨hfirst, hwide⟩, fun other hmem => ?_⟩,
      List.pairwise_cons.mpr ⟨fun other hmem => (hafter other hmem).1, hpairwise⟩⟩
    exact ⟨(hfirst.trans hwide.le).trans (hafter other hmem).1, (hafter other hmem).2⟩

end Layout

/-- The lexer covers the text that it reads. -/
theorem Lexer.tokensFrom_layout (language : HostLanguage) (start : Place) (text : List Char) :
    Layout language start text (tokensFrom language start text) := by
  fun_induction tokensFrom language start text with
  | case1 => exact .finish .nothing
  | case2 start c rest piece lexeme later kind hkind ih =>
    have htext : c :: rest = (String.ofList lexeme).toList ++ rest.drop piece.more := by
      rw [String.toList_ofList, List.cons_append, List.take_append_drop]
    rw [htext]
    refine .here { kind, start, text := String.ofList lexeme } (by simp [lexeme]) ?_
    simpa only [Token.stop, String.toList_ofList] using ih
  | case3 start c rest piece lexeme later hkind ih =>
    rw [show c :: rest = lexeme ++ rest.drop piece.more by
      rw [List.cons_append, List.take_append_drop]]
    exact ih.skip fun hrest hskipped => piece_skipped hkind hrest hskipped

/-- A literal consists of what opens it, its content and what closes it. -/
theorem Quoted.opening_append_content_append_closing (text : List Char) :
    opening text ++ (content text ++ closing text) = text := by
  have hclosing : closing text <:+ text.drop (opening text).length := by
    simp only [closing]
    split
    next hsuffix => exact List.isSuffixOf_iff_suffix.mp hsuffix
    next => exact List.nil_suffix
  obtain ⟨front, hfront⟩ := hclosing
  have hcontent : content text = front := by
    simp only [content, ← hfront, List.length_append, Nat.add_sub_cancel, List.take_left]
  rw [hcontent, hfront]
  exact List.prefix_iff_eq_append.mp (isPrefix_opening text)

/-- The content of a literal lies within it, between two of its characters. -/
theorem Quoted.contentSpan_eq {start stop : Nat} {text : List Char}
    (hstop : stop = start + Text.byteLength text) :
    contentSpan { start, stop } text =
      { start := start + Text.byteLength (opening text)
        stop := start + Text.byteLength (opening text ++ content text) } := by
  have hlength := congrArg Text.byteLength (opening_append_content_append_closing text)
  simp only [Text.byteLength_append] at hlength
  simp only [contentSpan, Span.mk.injEq, Text.byteLength_append, true_and]
  omega

/-- The content of a token is found in the text where the token says. -/
theorem Token.contentSpan_within {token : Token} {text earlier later : List Char} {span : Span}
    (htext : text = earlier ++ (token.text.toList ++ later)) (hstart : token.start = Place.past {} earlier)
    (hspan : span = Quoted.contentSpan { start := token.start.offset, stop := token.stop.offset }
      token.text.toList) :
    token.start.offset ≤ span.start ∧ span.start ≤ span.stop ∧ span.stop ≤ token.stop.offset ∧
      Text.slice? span.start span.stop text = some (Quoted.content token.text.toList) := by
  have hsplit := Quoted.opening_append_content_append_closing token.text.toList
  have hlength := congrArg Text.byteLength hsplit
  have hstop : token.stop.offset = token.start.offset + Text.byteLength token.text.toList := by
    rw [Token.stop, Place.offset_past]
  have hpart : text = earlier ++ Quoted.opening token.text.toList ++
      (Quoted.content token.text.toList ++ (Quoted.closing token.text.toList ++ later)) := by
    rw [htext]
    conv_lhs => rw [← hsplit]
    simp
  have hoffset : token.start.offset = Text.byteLength earlier := by
    rw [hstart, Place.offset_past, Nat.zero_add]
  have hslice := Text.slice?_append (earlier ++ Quoted.opening token.text.toList)
    (Quoted.content token.text.toList) (Quoted.closing token.text.toList ++ later)
  rw [← hpart, Text.byteLength_append, ← hoffset, Nat.add_assoc, ← Text.byteLength_append] at hslice
  rw [hspan, Quoted.contentSpan_eq hstop, hstop]
  refine ⟨Nat.le_add_right _ _, ?_, ?_, hslice⟩
  · rw [Text.byteLength_append]
    exact Nat.add_le_add_left (Nat.le_add_right _ _) _
  · rw [← hlength]
    simp only [Text.byteLength_append]
    omega

/-- How the tokens of a program cover its text, without a loss. -/
structure Covers (language : HostLanguage) (text : List Char) (tokens : List Token) : Prop where
  /-- A token is a part of the text that is not empty and begins and ends between two characters. -/
  cut : ∀ token ∈ tokens, token.start.offset < token.stop.offset ∧
    Text.slice? token.start.offset token.stop.offset text = some token.text.toList ∧
    ∃ earlier later, text = earlier ++ (token.text.toList ++ later) ∧
      token.start = Place.past {} earlier
  /-- The tokens stand behind one another. -/
  ordered : tokens.Pairwise fun first second =>
    first.start.offset < second.start.offset ∧ first.stop.offset ≤ second.start.offset
  /-- Between two tokens, before the first one and behind the last one there are only blanks, comments
      and the apostrophes of lifetimes. -/
  skipped : ∀ before after, tokens = before ++ after →
    ∃ earlier gap later, text = earlier ++ (gap ++ later) ∧
      Place.past {} earlier = (before.getLast?.map Token.stop).getD {} ∧
      Place.past {} (earlier ++ gap) = (after.head?.map Token.start).getD (Place.past {} text) ∧
      Skipped language later gap
  /-- The content of a literal is a part of its token that begins and ends between two characters. -/
  contents : ∀ token ∈ tokens, token.kind = .string → ∀ span, span = Quoted.contentSpan
      { start := token.start.offset, stop := token.stop.offset } token.text.toList →
    token.start.offset ≤ span.start ∧ span.start ≤ span.stop ∧ span.stop ≤ token.stop.offset ∧
      Text.slice? span.start span.stop text = some (Quoted.content token.text.toList)
  /-- No part of the text at which the lexer looks is cut beyond its end. -/
  bounded : ∀ rest, rest <:+ text → Lexer.Bounded language rest

/-- The lexer loses nothing: for every text its tokens cover the text, and what they leave out are
    blanks, comments and the apostrophes of lifetimes. -/
theorem tokenize_lossless (language : HostLanguage) (text : List Char) :
    Covers language text (tokenize language text) := by
  have hlayout : Layout language {} text (tokenize language text) :=
    Lexer.tokensFrom_layout language {} text
  have hcut : ∀ token ∈ tokenize language text, ∃ earlier later,
      text = earlier ++ (token.text.toList ++ later) ∧ token.start = Place.past {} earlier := by
    intro token hmem
    obtain ⟨earlier, later, _, _, htext, hstart, _⟩ := Lexer.tokensFrom_placed hmem
    exact ⟨earlier, later, htext, hstart⟩
  obtain ⟨hwide, hordered⟩ := hlayout.ordered
  refine ⟨fun token hmem => ?_, ?_, fun before after htokens => ?_, fun token hmem _ span hspan => ?_,
    fun rest _ => Lexer.bounded language rest⟩
  · obtain ⟨earlier, later, htext, hstart⟩ := hcut token hmem
    refine ⟨(hwide token hmem).2, ?_, earlier, later, htext, hstart⟩
    rw [Token.stop, Place.offset_past, hstart, Place.offset_past, Nat.zero_add, htext,
      Text.slice?_append]
  · exact hordered.imp_of_mem fun hfirst _ hle => ⟨(hwide _ hfirst).2.trans_le hle, hle⟩
  · obtain ⟨earlier, gap, later, htext, hplace, hnext, hskipped, _⟩ := (htokens ▸ hlayout).cut
    exact ⟨earlier, gap, later, htext, hplace, hnext, hskipped⟩
  · obtain ⟨earlier, later, htext, hstart⟩ := hcut token hmem
    exact Token.contentSpan_within htext hstart hspan

end TemplateAnalysis.Host
