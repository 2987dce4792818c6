import Mathlib.Data.List.Induction
import TemplateAnalysis.Proofs.Position
import TemplateAnalysis.Proofs.Text
import TemplateAnalysis.Template.Lexer

namespace TemplateAnalysis

namespace Template

open Lexer (dataPiece codePiece piece opensTag textLength Mode tokensFrom)

/-- A comment runs from its opening mark through a closing mark, or to the end of the text. The two
    marks may share a hash sign. -/
def IsComment (comment rest : List Char) : Prop :=
  ['{', '#'] <+: comment ∧ (['#', '}'] <:+ comment ∨ rest = [])

/-- Text that makes no token, before the rest of a text: blanks within a tag, and comments. A comment
    ends a tag that is not finished. The forms are those of the tag that is open before the text and
    after it. -/
inductive Skipped (rest : List Char) : Option TagForm → Option TagForm → List Char → Prop
  | nothing {tag : Option TagForm} : Skipped rest tag tag []
  | blanks {form : TagForm} {tag : Option TagForm} {run skipped : List Char}
      (hblank : ∀ c ∈ run, Text.isBlank c = true) (hskipped : Skipped rest (some form) tag skipped) :
      Skipped rest (some form) tag (run ++ skipped)
  | comment {before tag : Option TagForm} {comment skipped : List Char}
      (hcomment : IsComment comment (skipped ++ rest)) (hskipped : Skipped rest none tag skipped) :
      Skipped rest before tag (comment ++ skipped)

/-- The form of the tag that is open after one more token, if there is one. Text stands outside of
    tags. -/
def tagAfter (tag : Option TagForm) (token : Token) : Option TagForm :=
  match token.kind with
  | .tagBegin form => some form
  | .tagEnd _ | .text | .endOfFile => none
  | _ => tag

/-- The form of the tag that is open after some tokens: the last one among them that is text or a
    boundary of a tag opens it. -/
def openTag (tokens : List Token) : Option TagForm :=
  tokens.foldl tagAfter none

/-- The marks that open a tag or a comment. -/
def openingMarks : List (List Char) :=
  [['{', '{'], ['{', '%'], ['{', '#']]

/-- Whether a text holds a mark that opens a tag or a comment. -/
def HoldsOpening (text : List Char) : Prop :=
  ∃ mark ∈ openingMarks, mark <:+: text

/-- Whether a token of a kind can be read where a tag of some form is open, or none. Only the tag that
    is open can be closed, and text stands outside of tags and holds no opening mark. -/
def Fits (tag : Option TagForm) (kind : TokenKind) (lexeme : List Char) : Prop :=
  match kind with
  | .endOfFile => False
  | .text => tag = none ∧ ¬ HoldsOpening lexeme
  | .tagBegin _ => True
  | .tagEnd form => tag = some form
  | _ => tag.isSome = true

namespace Lexer

/-- The form of the tag that is being read. -/
def Mode.tag? : Mode → Option TagForm
  | .data => none
  | .code form _ => some form

theorem opensTag_mark {mark : List Char} (hmark : mark ∈ openingMarks) (rest : List Char) :
    opensTag (mark ++ rest) = true := by
  simp only [openingMarks, List.mem_cons, List.not_mem_nil, or_false] at hmark
  rcases hmark with rfl | rfl | rfl <;> rfl

theorem opensTag_append {text : List Char} (rest : List Char) (hopens : opensTag text = true) :
    opensTag (text ++ rest) = true := by
  unfold opensTag at hopens
  split at hopens
  next => exact hopens
  next => cases hopens

/-- The text before the next tag holds no opening mark, nor does the character before it complete
    one. -/
theorem not_holdsOpening_text {c : Char} {rest : List Char} (hplain : opensTag (c :: rest) = false) :
    ¬ HoldsOpening (c :: rest.take (textLength rest)) := by
  rintro ⟨mark, hmark, before, after, htext⟩
  have hopens := opensTag_mark hmark after
  rw [List.append_assoc] at htext
  generalize mark ++ after = tail at htext hopens
  induction before generalizing c rest with
  | nil =>
    rw [List.nil_append] at htext
    have hwhole := opensTag_append (rest.drop (textLength rest)) hopens
    rw [htext, List.cons_append, List.take_append_drop, hplain] at hwhole
    cases hwhole
  | cons first before ih =>
    obtain ⟨rfl, htail⟩ := List.cons.inj htext
    cases rest with
    | nil =>
      obtain ⟨_, rfl⟩ := List.append_eq_nil_iff.mp htail
      cases hopens
    | cons next rest =>
      rw [textLength] at htail
      split at htail
      next =>
        obtain ⟨_, rfl⟩ := List.append_eq_nil_iff.mp htail
        cases hopens
      next hnext => exact ih (Bool.eq_false_of_not_eq_true hnext) htail

/-- What the lexer makes of one piece of the text. A piece that is skipped is white space within a tag or
    a comment, and a token fits to the tag that is open. -/
def Piece.Sound (tag : Option TagForm) (c : Char) (rest : List Char) (piece : Piece) : Prop :=
  let lexeme := c :: rest.take piece.more
  match piece.kind with
  | some kind => Fits tag kind lexeme ∧ ∀ start text, piece.next.tag? = tagAfter tag { kind, start, text }
  | none =>
    (∃ form, tag = some form ∧ piece.next.tag? = some form ∧ ∀ c ∈ lexeme, Text.isBlank c = true) ∨
      piece.next.tag? = none ∧ IsComment lexeme (rest.drop piece.more)

/-- A comment may end in the middle of its opening mark, but not before it. -/
theorem isComment_through (rest : List Char) :
    IsComment ('{' :: ('#' :: rest).take (Text.lengthThrough ['#', '}'] ('#' :: rest)))
      (('#' :: rest).drop (Text.lengthThrough ['#', '}'] ('#' :: rest))) := by
  have hlong : 1 ≤ Text.lengthThrough ['#', '}'] ('#' :: rest) := by
    unfold Text.lengthThrough
    split <;> simp
  obtain ⟨count, hcount⟩ := Nat.exists_eq_add_of_le' hlong
  refine ⟨?_, ?_⟩
  · rw [hcount, List.take_succ_cons]
    exact ⟨_, rfl⟩
  · exact (Text.take_lengthThrough_cases ['#', '}'] ('#' :: rest)).imp_left
      fun hsuffix => hsuffix.trans (List.suffix_cons _ _)

/-- Outside of tags there are text, comments and the marks that open tags. The last two may also stand
    in a tag that is not finished. -/
theorem dataPiece_sound {tag : Option TagForm} {c : Char} {rest : List Char}
    (hplain : opensTag (c :: rest) = false → tag = none) :
    (dataPiece c rest).Sound tag c rest := by
  unfold dataPiece
  split
  next tail => exact .inr ⟨rfl, isComment_through tail⟩
  next => exact ⟨trivial, fun _ _ => rfl⟩
  next => exact ⟨trivial, fun _ _ => rfl⟩
  next hcomment hexpression hstatement =>
    have hopens : opensTag (c :: rest) = false := by
      unfold opensTag
      split
      next second others hcons =>
        obtain ⟨rfl, rfl⟩ := List.cons.inj hcons
        have hne : ∀ mark ∈ ['{', '%', '#'], second ≠ mark := by
          intro mark hmark hsame
          subst hsame
          simp only [List.mem_cons, List.not_mem_nil, or_false] at hmark
          rcases hmark with rfl | rfl | rfl
          · exact hexpression _ rfl rfl
          · exact hstatement _ rfl rfl
          · exact hcomment _ rfl rfl
        simp_all
      next => rfl
    exact ⟨⟨hplain hopens, not_holdsOpening_text hopens⟩, fun _ _ => rfl⟩

theorem symbolPiece_sound (form : TagForm) (depth : Nat) (c : Char) (rest : List Char) :
    (symbolPiece form depth c rest).Sound (some form) c rest := by
  unfold symbolPiece
  split
  next => exact ⟨rfl, fun _ _ => rfl⟩
  next =>
    cases hsymbol : symbol? c with
    | none => exact ⟨rfl, fun _ _ => rfl⟩
    | some symbol => exact ⟨rfl, fun _ _ => rfl⟩

theorem wordKind_cases (word : List Char) :
    wordKind word = .identifier ∨ ∃ keyword, wordKind word = .keyword keyword := by
  unfold wordKind
  split
  next keyword _ => exact .inr ⟨keyword, rfl⟩
  next => exact .inl rfl

/-- Within a tag there are blanks, the tokens of the tag and its end. -/
theorem codePiece_sound (form : TagForm) (depth : Nat) (c : Char) (rest : List Char) :
    (codePiece form depth c rest).Sound (some form) c rest := by
  unfold codePiece
  split
  next hblank =>
    refine .inl ⟨form, rfl, rfl, List.forall_mem_cons.mpr ⟨hblank, fun other hother => ?_⟩⟩
    rw [← List.prefix_iff_eq_take.mp (List.takeWhile_prefix Text.isBlank)] at hother
    exact List.all_eq_true.mp List.all_takeWhile other hother
  next =>
    split
    next => exact ⟨rfl, fun _ _ => rfl⟩
    next =>
      split_ifs with hopens hname hdigit hquote
      · exact dataPiece_sound fun hplain => absurd (hplain ▸ hopens.2) Bool.false_ne_true
      · rcases wordKind_cases (c :: rest.takeWhile isNamePart) with hkind | ⟨keyword, hkind⟩ <;>
          simp only [Piece.Sound, hkind] <;> exact ⟨rfl, fun _ _ => rfl⟩
      · simp only [Piece.Sound, numberPiece]
        split_ifs <;> exact ⟨rfl, fun _ _ => rfl⟩
      · exact ⟨rfl, fun _ _ => rfl⟩
      · exact symbolPiece_sound form depth c rest

theorem piece_sound (mode : Mode) (c : Char) (rest : List Char) :
    (piece mode c rest).Sound mode.tag? c rest :=
  match mode with
  | .data => dataPiece_sound fun _ => rfl
  | .code form depth => codePiece_sound form depth c rest

end Lexer

/-- Tokens that cover a text from a place on, where a tag of some form is open or none: each one
    stands behind text that makes no token and fits to the tag that is open there, and the last one
    stands at the end. -/
inductive Layout : Option TagForm → Place → List Char → List Token → Prop
  | finish {tag next : Option TagForm} {place : Place} {gap : List Char}
      (hskipped : Skipped [] tag next gap) :
      Layout tag place gap [{ kind := .endOfFile, start := place.past gap, text := "" }]
  | token {tag next : Option TagForm} {place : Place} {gap later : List Char} {token : Token}
      {tokens : List Token} (hstart : token.start = place.past gap)
      (hskipped : Skipped (token.text.toList ++ later) tag next gap) (hne : token.text ≠ "")
      (hfits : Fits next token.kind token.text.toList)
      (hlater : Layout (tagAfter tag token) token.stop later tokens) :
      Layout tag place (gap ++ (token.text.toList ++ later)) (token :: tokens)

theorem Skipped.next_cases {rest skipped : List Char} {tag next : Option TagForm}
    (hskipped : Skipped rest tag next skipped) : next = tag ∨ next = none := by
  induction hskipped with
  | nothing => exact .inl rfl
  | blanks _ _ ih => exact ih
  | comment _ _ ih => exact .inr (ih.elim id id)

/-- Blanks and comments before a token do not change which tag is open after it. -/
theorem tagAfter_of_skipped {rest skipped lexeme : List Char} {tag next : Option TagForm}
    {token : Token} (hskipped : Skipped rest tag next skipped) (hfits : Fits next token.kind lexeme) :
    tagAfter tag token = tagAfter next token := by
  rcases hskipped.next_cases with rfl | rfl
  · rfl
  · unfold tagAfter
    cases hkind : token.kind <;> simp_all [Fits]

/-- A token may stand at the beginning of what is covered. -/
theorem Layout.here (token : Token) {tag : Option TagForm} {later : List Char} {tokens : List Token}
    (hne : token.text ≠ "") (hfits : Fits tag token.kind token.text.toList)
    (hlater : Layout (tagAfter tag token) token.stop later tokens) :
    Layout tag token.start (token.text.toList ++ later) (token :: tokens) :=
  .token rfl .nothing hne hfits hlater

/-- More text may be skipped before tokens that cover the rest of a text. -/
theorem Layout.skip {tag next : Option TagForm} {place : Place} {gap text : List Char}
    {tokens : List Token} (hlayout : Layout next (place.past gap) text tokens)
    (hgap : ∀ {rest skipped after}, text = skipped ++ rest → Skipped rest next after skipped →
      Skipped rest tag after (gap ++ skipped)) : Layout tag place (gap ++ text) tokens := by
  cases hlayout with
  | finish hskipped =>
    rw [← Place.past_append]
    exact .finish (hgap (List.append_nil _).symm hskipped)
  | token hstart hskipped hne hfits hlater =>
    rw [← List.append_assoc]
    have hwhole := hgap rfl hskipped
    refine .token (by rw [hstart, Place.past_append]) hwhole hne hfits ?_
    rwa [tagAfter_of_skipped hwhole hfits, ← tagAfter_of_skipped hskipped hfits]

/-- The lexer covers the text that it reads. -/
theorem Lexer.tokensFrom_layout (mode : Mode) (start : Place) (text : List Char) :
    Layout mode.tag? start text (tokensFrom mode start text) := by
  fun_induction tokensFrom mode start text with
  | case1 mode start => exact .finish .nothing
  | case2 mode start c rest piece lexeme later kind hkind ih =>
    have hsound := piece_sound mode c rest
    simp only [Piece.Sound, show (Lexer.piece mode c rest).kind = some kind from hkind] at hsound
    have htext : c :: rest = (String.ofList lexeme).toList ++ rest.drop piece.more := by
      rw [String.toList_ofList, List.cons_append, List.take_append_drop]
    rw [htext]
    refine .here { kind, start, text := String.ofList lexeme } ?_ ?_ ?_
    · simp [lexeme]
    · simpa using hsound.1
    · simpa only [Token.stop, String.toList_ofList, ← hsound.2] using ih
  | case3 mode start c rest piece lexeme later hkind ih =>
    have hsound := piece_sound mode c rest
    simp only [Piece.Sound, show (Lexer.piece mode c rest).kind = none from hkind] at hsound
    rw [show c :: rest = lexeme ++ rest.drop piece.more by
      rw [List.cons_append, List.take_append_drop]]
    refine ih.skip fun hrest hskipped => ?_
    rcases hsound with ⟨form, hmode, hnext, hblank⟩ | ⟨hnext, hcomment⟩
    · rw [hmode]
      exact .blanks hblank (hnext ▸ hskipped)
    · exact .comment (hrest ▸ hcomment) (hnext ▸ hskipped)

theorem tokenize_layout (text : List Char) : Layout none {} text (tokenize text) :=
  Lexer.tokensFrom_layout .data {} text

/-- What covers a text cuts it at each of the tokens: behind the tokens before it there is text that
    makes no token, then the token and the rest of the text. -/
theorem Layout.cut {tag : Option TagForm} {place : Place} {text : List Char}
    {before after : List Token} {token : Token}
    (hlayout : Layout tag place text (before ++ token :: after)) :
    ∃ next earlier gap later, text = earlier ++ (gap ++ (token.text.toList ++ later)) ∧
      place.past earlier = (before.getLast?.map Token.stop).getD place ∧
      token.start = (place.past earlier).past gap ∧
      Skipped (token.text.toList ++ later) (before.foldl tagAfter tag) next gap ∧
      (token.kind ≠ .endOfFile → Fits next token.kind token.text.toList) := by
  induction before generalizing tag place text with
  | nil =>
    rw [List.nil_append] at hlayout
    cases hlayout with
    | finish hskipped =>
      exact ⟨_, [], text, [], by simp, rfl, rfl, by simpa using hskipped, fun h => absurd rfl h⟩
    | token hstart hskipped hne hfits hlater =>
      exact ⟨_, [], _, _, rfl, rfl, hstart, hskipped, fun _ => hfits⟩
  | cons first before ih =>
    rw [List.cons_append] at hlayout
    generalize hrest : before ++ token :: after = rest at hlayout
    cases hlayout with
    | finish hskipped => cases List.append_ne_nil_of_right_ne_nil before (List.cons_ne_nil _ _) hrest
    | @token _ _ _ skipped _ _ _ hstart hskipped hne hfits hlater =>
      rw [← hrest] at hlater
      obtain ⟨next, earlier, gap, later, rfl, hplace, htoken, hgap, hfits⟩ := ih hlater
      have hpast : place.past (skipped ++ first.text.toList ++ earlier) = first.stop.past earlier := by
        rw [Place.past_append, Place.past_append, ← hstart, Token.stop]
      refine ⟨next, skipped ++ first.text.toList ++ earlier, gap, later, by simp, ?_, ?_, hgap, hfits⟩
      · rw [hpast, hplace, List.getLast?_cons]
        cases before.getLast? <;> rfl
      · rw [hpast, htoken]

theorem Layout.last {tag : Option TagForm} {place : Place} {text : List Char} {tokens : List Token}
    (hlayout : Layout tag place text tokens) :
    ∃ others, tokens = others ++ [{ kind := .endOfFile, start := place.past text, text := "" }] ∧
      ∀ token ∈ others, token.kind ≠ .endOfFile ∧ token.text ≠ "" := by
  induction hlayout with
  | finish _ => exact ⟨[], rfl, fun token hmem => nomatch hmem⟩
  | @token _ _ place gap later token _ hstart _ hne hfits _ ih =>
    obtain ⟨others, rfl, hothers⟩ := ih
    refine ⟨token :: others, ?_, List.forall_mem_cons.mpr ⟨⟨fun hkind => ?_, hne⟩, hothers⟩⟩
    · rw [Place.past_append, Place.past_append, ← hstart]
      rfl
    · rw [hkind] at hfits
      exact hfits

/-- Tokens that cover a text stand behind one another. -/
theorem Layout.ordered {tag : Option TagForm} {place : Place} {text : List Char}
    {tokens : List Token} (hlayout : Layout tag place text tokens) :
    (∀ token ∈ tokens, place.offset ≤ token.start.offset) ∧
      tokens.Pairwise fun first second =>
        first.start.offset < first.stop.offset ∧ first.stop.offset ≤ second.start.offset := by
  induction hlayout with
  | finish _ =>
    exact ⟨List.forall_mem_singleton.mpr (Place.offset_le_past _ _), List.pairwise_singleton _ _⟩
  | @token _ _ place gap later token _ hstart _ hne _ _ ih =>
    have hfirst : place.offset ≤ token.start.offset := hstart ▸ place.offset_le_past gap
    have hwide : token.start.offset < token.stop.offset :=
      token.start.offset_lt_past (mt String.toList_eq_nil_iff.mp hne)
    obtain ⟨hafter, hpairwise⟩ := ih
    refine ⟨List.forall_mem_cons.mpr ⟨hfirst, fun other hmem => ?_⟩,
      List.pairwise_cons.mpr ⟨fun other hmem => ⟨hwide, hafter other hmem⟩, hpairwise⟩⟩
    exact (hfirst.trans hwide.le).trans (hafter other hmem)

theorem tagAfter_eq_some {tag : Option TagForm} {token : Token} {form : TagForm}
    (hopen : tagAfter tag token = some form) : token.kind = .tagBegin form ∨
      tag = some form ∧ token.kind.isInsideTag = true ∧ token.kind ≠ .text := by
  unfold tagAfter at hopen
  cases hkind : token.kind <;> simp only [hkind] at hopen
  case tagBegin begun => exact .inl (by rw [Option.some.inj hopen])
  case endOfFile | text | tagEnd => cases hopen
  all_goals exact .inr ⟨hopen, rfl, by simp⟩

/-- The tag that is open after some tokens was opened by one of them, and no boundary of a tag and no
    text stands behind that one. -/
theorem exists_opening {tokens : List Token} {form : TagForm} (hopen : openTag tokens = some form) :
    ∃ earlier opening inside, tokens = earlier ++ opening :: inside ∧
      opening.kind = .tagBegin form ∧
      ∀ token ∈ inside, token.kind.isInsideTag = true ∧ token.kind ≠ .text := by
  induction tokens using List.reverseRecOn with
  | nil => cases hopen
  | append_singleton tokens token ih =>
    rw [openTag, List.foldl_append, List.foldl_cons, List.foldl_nil] at hopen
    rcases tagAfter_eq_some hopen with hbegin | ⟨hopen, hinside⟩
    · exact ⟨tokens, token, [], rfl, hbegin, fun _ hmem => nomatch hmem⟩
    · obtain ⟨earlier, opening, inside, rfl, hopening, hplain⟩ := ih hopen
      refine ⟨earlier, opening, inside ++ [token], by simp, hopening, ?_⟩
      exact List.forall_mem_append.mpr ⟨hplain, List.forall_mem_singleton.mpr hinside⟩

/-- How the tokens of a template cover its text, without a loss. -/
structure Covers (text : List Char) (tokens : List Token) : Prop where
  /-- The last token marks the end of the text. No other one does, and no other one is empty. -/
  last : ∃ others,
    tokens = others ++ [{ kind := .endOfFile, start := Place.past {} text, text := "" }] ∧
      ∀ token ∈ others, token.kind ≠ .endOfFile ∧ token.text ≠ ""
  /-- A token is a part of the text that begins and ends between two characters. -/
  cut : ∀ token ∈ tokens, ∃ earlier later, text = earlier ++ token.text.toList ++ later ∧
    token.start = Place.past {} earlier
  /-- The tokens stand behind one another. -/
  ordered : tokens.Pairwise fun first second =>
    first.start.offset < second.start.offset ∧ first.stop.offset ≤ second.start.offset
  /-- Between the end of a token, or the beginning of the text, and the next token there are only
      blanks within the tag that is open there and comments. -/
  skipped : ∀ before token after, tokens = before ++ token :: after →
    ∃ next earlier gap later, text = earlier ++ gap ++ token.text.toList ++ later ∧
      Place.past {} earlier = (before.getLast?.map Token.stop).getD {} ∧
      token.start = Place.past {} (earlier ++ gap) ∧
      Skipped (token.text.toList ++ later) (openTag before) next gap
  /-- Text holds no mark that opens a tag or a comment. -/
  plain : ∀ token ∈ tokens, token.kind = .text → ¬ HoldsOpening token.text.toList
  /-- The end of a tag stands behind a beginning of its form, with no boundary and no text between
      them. -/
  closed : ∀ before token after form, tokens = before ++ token :: after →
    token.kind = .tagEnd form → ∃ earlier opening inside, before = earlier ++ opening :: inside ∧
      opening.kind = .tagBegin form ∧
      ∀ token ∈ inside, token.kind.isInsideTag = true ∧ token.kind ≠ .text

/-- The lexer loses nothing: for every text its tokens cover the text, and what they leave out are
    blanks within tags and comments. -/
theorem tokenize_covers (text : List Char) : Covers text (tokenize text) := by
  have hlayout : Layout none {} text (tokenize text) := Lexer.tokensFrom_layout .data {} text
  refine ⟨hlayout.last, fun token hmem => ?_, ?_, fun before token after htokens => ?_,
    fun token hmem hkind => ?_, fun before token after form htokens hkind => ?_⟩
  · obtain ⟨before, after, htokens⟩ := List.append_of_mem hmem
    obtain ⟨_, earlier, gap, later, htext, _, hstart, _⟩ := (htokens ▸ hlayout).cut
    refine ⟨earlier ++ gap, later, by simpa using htext, ?_⟩
    rw [hstart, Place.past_append]
  · exact hlayout.ordered.2.imp fun hfirst => ⟨hfirst.1.trans_le hfirst.2, hfirst.2⟩
  · obtain ⟨next, earlier, gap, later, htext, hplace, hstart, hskipped, _⟩ :=
      (htokens ▸ hlayout).cut
    refine ⟨next, earlier, gap, later, by simpa using htext, hplace, ?_, hskipped⟩
    rw [hstart, Place.past_append]
  · obtain ⟨before, after, htokens⟩ := List.append_of_mem hmem
    obtain ⟨_, _, _, _, _, _, _, _, hfits⟩ := (htokens ▸ hlayout).cut
    rw [hkind] at hfits
    exact (hfits (by simp)).2
  · obtain ⟨next, _, _, _, _, _, _, hskipped, hfits⟩ := (htokens ▸ hlayout).cut
    rw [hkind] at hfits
    have hnext : next = some form := hfits (by simp)
    refine exists_opening ?_
    rcases hskipped.next_cases with hsame | hnone
    · exact hsame.symm.trans hnext
    · rw [hnone] at hnext
      cases hnext

end Template
end TemplateAnalysis
