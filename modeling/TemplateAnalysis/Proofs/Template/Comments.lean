import TemplateAnalysis.Proofs.Template.Outside
import TemplateAnalysis.Proofs.Template.RawPart

namespace TemplateAnalysis

namespace Position

variable {opened closed position : Position}

/-- The position once the text between the two places has been cut out. -/
def cutOut (opened closed position : Position) : Position :=
  if position ≤ closed then min position opened else opened.shift (closed.since position)

/-- The position itself, unless it lies inside the text between the two places: then the end of it. -/
def leave (opened closed position : Position) : Position :=
  if position ≤ opened then position else max position closed

theorem shift_since {origin position : Position} (hle : origin ≤ position) :
    origin.shift (origin.since position) = position := by
  rw [le_iff] at hle
  rcases position with ⟨line, character⟩
  unfold since shift
  split_ifs with hsame hline hline <;> simp_all <;> omega

theorem cutOut_of_le (hle : position ≤ opened) (hbetween : opened ≤ closed) :
    cutOut opened closed position = position := by
  rw [cutOut, if_pos (hle.trans hbetween), min_eq_left hle]

theorem cutOut_shift (hbetween : opened ≤ closed) (position : Position) :
    cutOut opened closed (closed.shift position) = opened.shift position := by
  unfold cutOut
  split_ifs with hle
  · have hzero : position = {} := by
      refine (closed.shift_strictMono).injective ?_
      exact le_antisymm hle (closed.le_shift position)
    rw [hzero, shift_zero, shift_zero, min_eq_right hbetween]
  · rw [since_shift]

theorem cutOut_mono : Monotone (cutOut opened closed) := by
  intro first second hle
  unfold cutOut
  split_ifs with hfirst hsecond hsecond
  · exact min_le_min_right opened hle
  · exact (min_le_right _ _).trans (opened.le_shift _)
  · exact absurd (hle.trans hsecond) hfirst
  · exact opened.shift_strictMono.monotone (since_le_since (le_of_not_ge hfirst) hle)

theorem leave_of_le (hle : position ≤ opened) : leave opened closed position = position :=
  if_pos hle

theorem leave_shift (position : Position) :
    leave opened closed (closed.shift position) = closed.shift position := by
  unfold leave
  split_ifs
  · rfl
  · exact max_eq_left (closed.le_shift position)

theorem leave_mono : Monotone (leave opened closed) := by
  intro first second hle
  unfold leave
  split_ifs with hfirst hsecond hsecond
  · exact hle
  · exact hle.trans (le_max_left _ _)
  · exact absurd (hle.trans hsecond) hfirst
  · exact max_le_max_right closed hle

/-- Where a position goes when text is put in: what lies before the text stays, and what lies behind it is
    shifted. A position at the place itself may do either. -/
def Displaced (opened closed position moved : Position) : Prop :=
  position ≤ opened ∧ moved = position ∨ ∃ rest, position = opened.shift rest ∧ moved = closed.shift rest

theorem displaced_cutOut (hbetween : opened ≤ closed) (hleave : leave opened closed position = position) :
    Displaced opened closed (cutOut opened closed position) position := by
  by_cases hle : position ≤ opened
  · rw [cutOut_of_le hle hbetween]
    exact .inl ⟨hle, rfl⟩
  · rw [leave, if_neg hle] at hleave
    have hbehind : closed ≤ position := max_eq_left_iff.mp hleave
    have hshift := cutOut_shift hbetween (closed.since position)
    rw [shift_since hbehind] at hshift
    exact .inr ⟨closed.since position, hshift, (shift_since hbehind).symm⟩

end Position

/-- The two ends of a range. -/
def Range.positions (range : Range) : List Position :=
  [range.start, range.stop]

/-- The positions of a scope and of all that is declared in it. -/
def Scope.positions (scope : Scope) : List Position :=
  scope.range.positions ++
    scope.bindings.flatMap fun binding => binding.range.positions ++ [binding.visibleFrom]

namespace Template

namespace Outline

/-- All positions in an outline but those of its tokens. -/
def positions (outline : Outline) : List Position :=
  outline.scopes.scopes.flatMap Scope.positions ++
    outline.references.flatMap (·.range.positions) ++ outline.filters.flatMap (·.range.positions) ++
    outline.templates.flatMap (·.range.positions) ++ outline.links.flatMap (·.range.positions)

theorem positions_map (move : Position → Position) (outline : Outline) :
    (outline.map move).positions = outline.positions.map move := by
  have hscope : ∀ scope : Scope, (scope.map move 0).positions = scope.positions.map move := by
    intro scope
    simp only [Scope.positions, Scope.map, List.map_append, List.map_flatMap, List.flatMap_map]
    rfl
  simp only [positions, map, ScopeTree.map, List.map_append, List.map_flatMap, List.flatMap_map, hscope]
  rfl

theorem apply_withoutText (state : State) (tag : Tag) (statement : Statement) :
    apply state tag.withoutText statement = apply state tag statement := by
  cases statement <;> rfl

theorem foldl_withoutText (stop : Position) {tokens : List Token}
    (hchain : tokens.IsChain Token.TextLast) (state : State) :
    (Tag.ofTokens stop (withoutText tokens)).foldl step state = (Tag.ofTokens stop tokens).foldl step state := by
  have hstep : ∀ tag ∈ Tag.ofTokens stop tokens, ∀ state, step state tag.withoutText = step state tag := by
    intro tag hmem state
    have hsame := Statement.ofTag_withoutText (Tag.body_trailed stop hchain tag hmem)
    rw [step, step, hsame, apply_withoutText]
  rw [Tag.ofTokens_withoutText, List.foldl_map]
  exact List.foldl_ext _ _ state fun state tag hmem => hstep tag hmem state

/-- A template records what another one does if its tokens have moved and the text between the tags does not
    matter. -/
theorem ofSource_moved {move : Position → Position} (hmove : Monotone move) (hstart : move {} = {})
    {first second : Source} (hstop : second.endPosition = move first.endPosition)
    (htokens : Token.AllMoved move (withoutText (tokenize first.chars)) (withoutText (tokenize second.chars))) :
    ofSource second = { (ofSource first).map move with tokens := (ofSource second).tokens } := by
  have hembeds := embeds_tags hmove (State.embeds_initial first.endPosition second.endPosition move)
    (Tag.ofTokens_moved first.endPosition htokens)
  have hchain : ∀ source : Source, (tokenize source.chars).IsChain Token.TextLast :=
    fun source => (Lexer.tokensFrom_layout .data {} source.chars).isChain
  rw [hstop] at hembeds
  rw [foldl_withoutText _ (hchain first), foldl_withoutText _ (hchain second)] at hembeds
  have hwhole := embeds_finish hmove hembeds
  simp only [ofSource, ofTokens, map, hstop]
  rw [Outline.mk.injEq]
  exact ⟨rfl, hwhole.scopes.eq_map hstart, hwhole.references, hwhole.filters, hwhole.templates,
    hwhole.links⟩

theorem withoutText_map_shift (origin : Place) (tokens : List Token) :
    withoutText (tokens.map (Token.shift origin)) = (withoutText tokens).map (Token.shift origin) :=
  List.filter_map

/-- A template is read as some tokens in front of a position, and then as a text that goes on at a place. -/
structure GoesOn (source : Source) (opened : Position) (tokens : List Token) (resumed : Place)
    (after : List Char) : Prop where
  between : Token.Between opened {} tokens
  code : withoutText (tokenize source.chars) =
    tokens ++ withoutText (Lexer.tokensFrom .data resumed after)
  stop : source.endPosition = resumed.position.shift (Place.past {} after).position

theorem GoesOn.code_eq {source : Source} {opened : Position} {tokens : List Token} {resumed : Place}
    {after : List Char} (hgoes : GoesOn source opened tokens resumed after) :
    withoutText (tokenize source.chars) =
      tokens ++ (withoutText (tokenize after)).map (Token.shift resumed) := by
  rw [hgoes.code, ← withoutText_map_shift]
  exact congrArg (tokens ++ withoutText ·) (Lexer.tokensFrom_shift .data resumed {} after)

/-- Two templates that only go on at different places record the same things there. -/
theorem ofSource_goesOn {first second : Source} {opened : Position} {tokens : List Token}
    {resumed resumed' : Place} {after : List Char} (hfirst : GoesOn first opened tokens resumed after)
    (hsecond : GoesOn second opened tokens resumed' after) {move : Position → Position}
    (hmove : Monotone move) (hfixed : ∀ position ≤ opened, move position = position)
    (hshift : ∀ position, move (resumed.position.shift position) = resumed'.position.shift position) :
    ofSource second = { (ofSource first).map move with tokens := (ofSource second).tokens } := by
  refine ofSource_moved hmove (hfixed _ (Position.zero_le _)) ?_ ?_
  · rw [hsecond.stop, hfirst.stop, hshift]
  · rw [hfirst.code_eq, hsecond.code_eq]
    exact List.rel_append (Token.allMoved_of_between hfirst.between hfixed)
      (Token.allMoved_between_shifts hshift _)

theorem endPosition_append (name text after : String) :
    (Source.mk name (text ++ after)).endPosition =
      (Place.past {} text.toList).position.shift (Place.past {} after.toList).position := by
  rw [Source.endPosition, Source.chars, String.toList_append, Place.past_append, Place.past_eq_shift]
  rfl

/-- A comment. -/
def comment (body : String) : String := "\x7b#" ++ body ++ "#\x7d"

theorem toList_comment (body : String) : (comment body).toList = Lexer.commentChars body.toList := by
  rw [comment, String.toList_append, String.toList_append, List.append_assoc]
  rfl

/-- Comments are inert. Where the lexer stands outside of tags, a comment can be put in: the template
    declares and mentions the same things, and only what stands behind the comment is shifted. -/
theorem ofSource_comment {before after body : String}
    (houtside : Lexer.standsOutside .data before.toList after.toList = true)
    (hlast : before.toList.getLast? ≠ some '{') (hbody : Lexer.IsCommentBody body.toList) (name : String) :
    let opened := (Place.past {} before.toList).position
    let closed := (Place.past {} (before ++ comment body).toList).position
    let plain := ofSource { name, text := before ++ after }
    let commented := ofSource { name, text := before ++ comment body ++ after }
    plain = { commented.map (Position.cutOut opened closed) with tokens := plain.tokens } ∧
      List.Forall₂ (Position.Displaced opened closed) plain.positions commented.positions := by
  intro opened closed plain commented
  have hbetween : opened ≤ closed := by
    simp only [opened, closed, String.toList_append, Place.past_append]
    exact Place.position_le_past _ _
  obtain ⟨tokens, hsplit⟩ := Lexer.exists_splitsInto hbody {} houtside hlast
  have hplain : GoesOn ⟨name, before ++ after⟩ opened tokens (Place.past {} before.toList) after.toList := by
    refine ⟨hsplit.between, ?_, endPosition_append name before after⟩
    rw [Source.chars, String.toList_append]
    exact hsplit.plain
  have hcommented : GoesOn ⟨name, before ++ comment body ++ after⟩ opened tokens
      (Place.past {} (before ++ comment body).toList) after.toList := by
    refine ⟨hsplit.between, ?_, endPosition_append name (before ++ comment body) after⟩
    rw [Source.chars, String.toList_append, String.toList_append, toList_comment, List.append_assoc]
    exact hsplit.commented
  -- What is behind the comment moves up to the split once the comment is cut out.
  have hsame : plain = { commented.map (Position.cutOut opened closed) with tokens := plain.tokens } :=
    ofSource_goesOn hcommented hplain Position.cutOut_mono
      (fun _ hle => Position.cutOut_of_le hle hbetween) (Position.cutOut_shift hbetween)
  -- Nothing is recorded inside the comment.
  have hleave : commented = { commented.map (Position.leave opened closed) with tokens := commented.tokens } :=
    ofSource_goesOn hcommented hcommented Position.leave_mono (fun _ => Position.leave_of_le)
      Position.leave_shift
  refine ⟨hsame, ?_⟩
  have hfixed : commented.positions.map (Position.leave opened closed) = commented.positions.map id := by
    rw [List.map_id, ← positions_map]
    exact (congrArg positions hleave).symm
  have hcut : plain.positions = commented.positions.map (Position.cutOut opened closed) := by
    rw [← positions_map]
    exact (congrArg positions hsame).trans rfl
  rw [hcut, List.forall₂_map_left_iff, List.forall₂_same]
  exact fun position hmem => Position.displaced_cutOut hbetween (List.map_inj_left.mp hfixed position hmem)

/-- A comment can be put into the text in an unfinished tag that another comment has ended, and it can hold
    whatever would be read elsewhere. -/
theorem ofSource_comment_unfinished :
    let before := "\x7b% set a = b \x7b# first #\x7d some"
    let body := " 'second \x7b\x7b c \x7d\x7d\n\x7b% raw %\x7d #"
    let after := " text\x7b\x7b a \x7d\x7d"
    let opened := (Place.past {} before.toList).position
    let closed := (Place.past {} (before ++ comment body).toList).position
    let plain := ofSource { name := "page.html", text := before ++ after }
    let commented := ofSource { name := "page.html", text := before ++ comment body ++ after }
    Lexer.standsOutside .data before.toList after.toList = true ∧ before.toList.getLast? ≠ some '{' ∧
      Lexer.IsCommentBody body.toList ∧
      plain = { commented.map (Position.cutOut opened closed) with tokens := plain.tokens } ∧
      List.Forall₂ (Position.Displaced opened closed) plain.positions commented.positions := by
  intro before body after opened closed plain commented
  have houtside : Lexer.standsOutside .data before.toList after.toList = true := by decide +kernel
  have hlast : before.toList.getLast? ≠ some '{' := by decide +kernel
  have hbody : Lexer.IsCommentBody body.toList := ⟨by decide +kernel, by decide +kernel⟩
  exact ⟨houtside, hlast, hbody, ofSource_comment houtside hlast hbody "page.html"⟩

/-- The closing mark is searched for from the hash sign of the opening mark on: a comment whose body begins
    with the brace of the closing mark ends there, and the rest of its body is read. -/
theorem comment_ends_early :
    Lexer.standsOutside .data "".toList "".toList = true ∧
      ¬ Lexer.commentEnd <:+: "\x7d\x7b\x7b x \x7d\x7d".toList ∧
      comment "\x7d\x7b\x7b x \x7d\x7d" = "\x7b#\x7d\x7b\x7b x \x7d\x7d#\x7d" ∧
      (ofSource { name := "page.html", text := "" ++ comment "\x7d\x7b\x7b x \x7d\x7d" ++ "" }).references.map
        (·.text) = ["x"] ∧
      (ofSource { name := "page.html", text := "" ++ "" }).references = [] := by
  refine ⟨?_, ?_, ?_, ?_, ?_⟩ <;> decide +kernel

end Outline

end Template

end TemplateAnalysis
