import TemplateAnalysis.Proofs.Template.Concatenation

namespace TemplateAnalysis

namespace ScopeTree

/-- The tree where the text has moved to. -/
def map (move : Position → Position) (tree : ScopeTree) : ScopeTree where
  scopes := tree.scopes.map (Scope.map move 0)

/-- A whole tree without any scopes before it has the scopes of its part, only moved. -/
theorem Embeds.eq_map {tree whole : ScopeTree} {move : Position → Position} {stop : Position}
    (hembeds : (ofEnd {}).Embeds move stop (move stop) [] tree whole) (hstart : move {} = {}) :
    whole = tree.map move := by
  obtain ⟨declared, htop, _⟩ := hembeds.top
  rw [hembeds.eq_append]
  obtain ⟨scopes⟩ := tree
  cases scopes with
  | nil => cases htop
  | cons top below =>
    cases htop
    show ScopeTree.mk (Scope.mk .template ⟨{}, move stop⟩ none _ false :: _) =
      ScopeTree.mk (Scope.mk .template ⟨move {}, move stop⟩ none _ false :: _)
    rw [hstart]
    rfl

end ScopeTree

namespace Template

theorem Token.stop_shift (origin : Place) (token : Token) :
    (token.shift origin).stop = origin.shift token.stop :=
  (Place.shift_past origin token.start token.text.toList).symm

theorem Token.map_shift_shift (first second : Place) (tokens : List Token) :
    (tokens.map (Token.shift second)).map (Token.shift first) =
      tokens.map (Token.shift (first.shift second)) := by
  rw [List.map_map]
  refine List.map_congr_left fun token _ => ?_
  simp only [Function.comp_apply, Token.shift, Place.shift, Position.shift_shift, Nat.add_assoc]

theorem Token.map_shift_zero (tokens : List Token) : tokens.map (Token.shift {}) = tokens := by
  refine (List.map_congr_left fun token _ => ?_).trans (List.map_id tokens)
  rw [Token.shift, Place.zero_shift]
  rfl

/-- Tokens stay where they are if nothing up to their end moves. -/
theorem Token.allMoved_of_between {move : Position → Position} {high low : Position}
    {tokens : List Token} (hbetween : Token.Between high low tokens)
    (hfixed : ∀ position ≤ high, move position = position) : Token.AllMoved move tokens tokens := by
  refine List.forall₂_same.mpr fun token hmem => ⟨rfl, rfl, fun part hpart => ?_⟩
  obtain ⟨rest, hrest⟩ := hpart
  have hstop := (hbetween.of_mem hmem).2
  rw [Token.stop, ← hrest, Place.past_append] at hstop
  exact (hfixed _ ((Place.position_le_past _ rest).trans hstop)).symm

/-- Tokens of one text in two places, where the one place moves to the other one. -/
theorem Token.allMoved_between_shifts {move : Position → Position} {first second : Place}
    (hmove : ∀ position, move (first.position.shift position) = second.position.shift position)
    (tokens : List Token) :
    Token.AllMoved move (tokens.map (Token.shift first)) (tokens.map (Token.shift second)) := by
  refine List.forall₂_map_left_iff.mpr (List.forall₂_map_right_iff.mpr ?_)
  refine List.forall₂_same.mpr fun token _ => ⟨rfl, rfl, fun part _ => ?_⟩
  simp only [Token.shift, ← Place.shift_past, Place.position_shift, hmove]

namespace Tag

/-- A tag that begins ends the one before it. -/
theorem ofTokens_append_begin {opening : Token} {form : TagForm}
    (hkind : opening.kind = .tagBegin form) (stop : Position) (tokens later : List Token) :
    ofTokens stop (tokens ++ opening :: later) =
      ofTokens opening.start.position tokens ++ ofTokens stop (opening :: later) := by
  have hinside : opening.kind.isInsideTag = false := by rw [hkind]; rfl
  have hend : opening.kind.isTagEnd = false := by rw [hkind]; rfl
  induction tokens using tokens_induction with
  | nil => rw [ofTokens.eq_def opening.start.position []]; rfl
  | outside token rest hbegin ih =>
    rw [List.cons_append, ofTokens_tail hbegin, ofTokens_tail hbegin]
    exact ih
  | opening token rest tagForm htag ih =>
    have hdrop : (rest ++ opening :: later).dropWhile (·.kind.isInsideTag) =
        rest.dropWhile (·.kind.isInsideTag) ++ opening :: later := by
      rw [List.dropWhile_append]
      split
      next hnil =>
        rw [List.isEmpty_iff.mp hnil, List.dropWhile_cons, hinside]
        rfl
      next => rfl
    have htake : (rest ++ opening :: later).takeWhile (·.kind.isInsideTag) =
        rest.takeWhile (·.kind.isInsideTag) := by
      rw [List.takeWhile_append]
      split
      next hall =>
        rw [List.takeWhile_cons, hinside, (List.takeWhile_prefix _).eq_of_length hall]
        exact List.append_nil rest
      next => rfl
    have hstop : stopBefore stop (rest.dropWhile (·.kind.isInsideTag) ++ opening :: later) =
        stopBefore opening.start.position (rest.dropWhile (·.kind.isInsideTag)) := by
      cases rest.dropWhile (·.kind.isInsideTag) with
      | nil => simp only [List.nil_append, stopBefore, hend, Bool.false_eq_true, if_false]
      | cons next others => rfl
    rw [List.cons_append, ofTokens, ofTokens, htag]
    simp only [hdrop, htake, hstop, List.cons_append]
    rw [ih]

theorem ofTokens_tokenize_nil (stop : Position) (origin : Place) :
    ofTokens stop ((tokenize []).map (Token.shift origin)) = [] := by
  have hread : tokenize [] = [{ kind := .endOfFile, start := {}, text := "" }] := by decide +kernel
  rw [hread, List.map_singleton, ofTokens_tail rfl, ofTokens]

end Tag

namespace Lexer

/-- A text that is a statement of one keyword. -/
structure IsKeywordTag (tag : List Char) (keyword : Keyword) (opening word closing : Token) :
    Prop where
  read : tokenize tag =
    [opening, word, closing, { kind := .endOfFile, start := Place.past {} tag, text := "" }]
  openingKind : opening.kind = .tagBegin .statement
  start : opening.start = {}
  wordKind : word.kind = .keyword keyword
  closingKind : closing.kind = .tagEnd .statement
  stop : closing.stop = Place.past {} tag

/-- A tag that stands right behind a text is read as it is read alone: nothing in the text goes on
    in it. The tokens are those of the text. -/
def ReadBehind (text tag : List Char) (tokens : List Token) : Prop :=
  tokenize (text ++ tag) = tokens ++ (tokenize tag).map (Token.shift (Place.past {} text))

namespace ReadBehind

variable {text tag : List Char} {tokens : List Token} {keyword : Keyword}
  {opening word closing : Token}

theorem endsInTag (hread : ReadBehind text tag tokens)
    (htag : IsKeywordTag tag keyword opening word closing) :
    EndsInTag .data {} (text ++ tag)
      (tokens ++ [opening, word, closing].map (Token.shift (Place.past {} text))) where
  read := by
    have hend : (Place.past {} text).shift (Place.past {} tag) = Place.past {} (text ++ tag) := by
      rw [Place.past_append, ← Place.past_eq_shift]
    refine (show tokensFrom .data {} (text ++ tag) = _ from hread).trans ?_
    rw [htag.read, ← hend, List.append_assoc]
    rfl
  last := by
    refine ⟨closing.shift (Place.past {} text), .statement, by simp, htag.closingKind, ?_⟩
    rw [Token.stop_shift, htag.stop, Place.past_append, ← Place.past_eq_shift]

/-- The tokens of the text end where the tag begins. -/
theorem between (hread : ReadBehind text tag tokens)
    (htag : IsKeywordTag tag keyword opening word closing) :
    Token.Between (Place.past {} text).position {} tokens := by
  have hwhole : Token.Between _ _ (tokenize (text ++ tag)) := tokensFrom_between .data {} (text ++ tag)
  rw [hread, htag.read] at hwhole
  obtain ⟨middle, htokens, hrest⟩ := hwhole.split
  refine htokens.extend (hrest.1.trans_eq ?_)
  rw [Token.shift, htag.start]
  rfl

/-- The tags of the text stay where they are if nothing up to the tag moves. -/
theorem tags_moved (hread : ReadBehind text tag tokens)
    (htag : IsKeywordTag tag keyword opening word closing) {move : Position → Position}
    (hfixed : ∀ position ≤ (Place.past {} text).position, move position = position) :
    List.Forall₂ (Tag.Moved move) (Tag.ofTokens (Place.past {} text).position tokens)
      (Tag.ofTokens (Place.past {} text).position tokens) := by
  have hmoved := Tag.ofTokens_moved (Place.past {} text).position
    (Token.allMoved_of_between (hread.between htag) hfixed)
  rwa [hfixed _ (le_refl _)] at hmoved

/-- The tag ends a tag of the text that is not finished. -/
theorem ofTokens_eq (htag : IsKeywordTag tag keyword opening word closing) (origin : Place)
    (tokens : List Token) (stop : Position) :
    Tag.ofTokens stop (tokens ++ [opening, word, closing].map (Token.shift origin)) =
      Tag.ofTokens origin.position tokens ++
        [{ form := .statement, start := origin.position, body := [word.shift origin]
           after := (origin.shift (Place.past {} tag)).position }] := by
  have hstart : (opening.shift origin).start.position = origin.position := by
    rw [Token.shift, htag.start]
    rfl
  have hword : (word.shift origin).kind.isInsideTag = true := by
    rw [show (word.shift origin).kind = word.kind from rfl, htag.wordKind]
    rfl
  have hclosing : (closing.shift origin).kind.isTagEnd = true := by
    rw [show (closing.shift origin).kind = closing.kind from rfl, htag.closingKind]
    rfl
  have hinside : (closing.shift origin).kind.isInsideTag = false := by
    rw [TokenKind.isInsideTag, hclosing]
    simp
  have hbegin : (closing.shift origin).kind.isTagBegin = false := by
    rw [show (closing.shift origin).kind = closing.kind from rfl, htag.closingKind]
    rfl
  have hopening : (opening.shift origin).kind = .tagBegin .statement := htag.openingKind
  rw [List.map_cons, Tag.ofTokens_append_begin hopening, hstart]
  refine congrArg _ ?_
  rw [Tag.ofTokens, hopening]
  simp only [hstart, List.map_cons, List.map_nil, List.takeWhile_cons, List.dropWhile_cons, hword,
    hinside, if_true, Bool.false_eq_true, if_false, Tag.stopBefore, hclosing, Token.stop_shift,
    htag.stop, Tag.ofTokens_tail hbegin, Tag.ofTokens]

/-- The tags of the text, the tag behind it and the tags of what follows. -/
theorem ofTokens_append (hread : ReadBehind text tag tokens)
    (htag : IsKeywordTag tag keyword opening word closing) (origin : Place) (later : List Char)
    (stop : Position) :
    ∃ found, Statement.ofTag found =
        Statement.ofBody [word.shift (origin.shift (Place.past {} text))] ∧
      Tag.ofTokens stop ((tokenize (text ++ tag ++ later)).map (Token.shift origin)) =
        Tag.ofTokens (origin.shift (Place.past {} text)).position (tokens.map (Token.shift origin)) ++
          found :: Tag.ofTokens stop ((tokenize later).map
            (Token.shift (origin.shift (Place.past {} (text ++ tag))))) := by
  have hlater : tokensFrom .data (Place.past {} (text ++ tag)) later =
      (tokenize later).map (Token.shift (Place.past {} (text ++ tag))) :=
    tokensFrom_shift .data (Place.past {} (text ++ tag)) {} later
  have hlast : ((tokens ++ [opening, word, closing].map (Token.shift (Place.past {} text))).map
      (Token.shift origin)).getLast? = some ((closing.shift (Place.past {} text)).shift origin) := by
    simp
  have hend : ((closing.shift (Place.past {} text)).shift origin).kind.isTagEnd = true := by
    rw [show ((closing.shift _).shift _).kind = closing.kind from rfl, htag.closingKind]
    rfl
  have hparts : ∀ rest, Tag.ofTokens stop ((tokens ++ [opening, word, closing].map
      (Token.shift (Place.past {} text))).map (Token.shift origin) ++ rest) =
      Tag.ofTokens stop _ ++ Tag.ofTokens stop rest := Tag.ofTokens_append hlast hend
  refine ⟨{
    form := .statement, start := (origin.shift (Place.past {} text)).position
    body := [word.shift (origin.shift (Place.past {} text))]
    after := ((origin.shift (Place.past {} text)).shift (Place.past {} tag)).position }, rfl, ?_⟩
  rw [tokenize, (hread.endsInTag htag).append.2, hlater, List.map_append, hparts, List.map_append,
    Token.map_shift_shift, Token.map_shift_shift, ofTokens_eq htag, List.append_assoc]
  rfl

end ReadBehind

end Lexer

namespace Outline

/-- The outline where the text has moved to. The tokens stay the same. -/
def map (move : Position → Position) (outline : Outline) : Outline :=
  { outline with
    scopes := outline.scopes.map move
    references := outline.references.map (Reference.map move 0)
    filters := outline.filters.map (Name.map move)
    templates := outline.templates.map (Identifier.map move)
    links := outline.links.map (Identifier.map move) }

/-- The tag that opens a raw part. -/
def rawTag : String := "\x7b% raw %\x7d"

/-- The tag that ends a raw part. -/
def endRawTag : String := "\x7b% endraw %\x7d"

/-- A template with a raw part. -/
def withRaw (name before content after : String) : Source :=
  { name, text := before ++ rawTag ++ content ++ endRawTag ++ after }

/-- A raw part has this content: its opening and its end are read as tags, and nothing in it is the
    end of a raw part. -/
structure RawPart (before content : String) : Prop where
  opening : ∃ tokens, Lexer.ReadBehind before.toList rawTag.toList tokens
  ending : ∃ tokens, Lexer.ReadBehind content.toList endRawTag.toList tokens ∧
    ∀ tag ∈ Tag.ofTokens (Place.past {} content.toList).position tokens,
      Statement.ofTag tag ≠ .endRaw

theorem foldl_of_raw {state : State} {tags : List Tag} (hraw : state.raw = true)
    (hinside : ∀ tag ∈ tags, Statement.ofTag tag ≠ .endRaw) : tags.foldl step state = state := by
  induction tags with
  | nil => rfl
  | cons tag rest ih =>
    obtain ⟨htag, hrest⟩ := List.forall_mem_cons.mp hinside
    rw [List.foldl_cons, step, hraw, if_pos rfl, if_neg htag]
    exact ih hrest

theorem forall_ne_endRaw_of_moved {move : Position → Position} {tags moved : List Tag}
    (hmoved : List.Forall₂ (Tag.Moved move) tags moved)
    (hinside : ∀ tag ∈ tags, Statement.ofTag tag ≠ .endRaw) :
    ∀ tag ∈ moved, Statement.ofTag tag ≠ .endRaw := by
  induction hmoved with
  | nil => exact hinside
  | cons hfirst _ ih =>
    obtain ⟨htag, hrest⟩ := List.forall_mem_cons.mp hinside
    refine List.forall_mem_cons.mpr ⟨?_, ih hrest⟩
    exact mt (Statement.ofTag_moved hfirst).eq_endRaw_iff.mp htag

theorem step_beginRaw {tag : Tag} (htag : Statement.ofTag tag = .beginRaw) (state : State) :
    step state tag = { state with raw := true } := by
  cases hraw : state.raw with
  | true =>
    rw [step, hraw, htag, if_pos rfl, if_neg (by simp)]
    exact hraw ▸ rfl
  | false =>
    rw [step, hraw, htag]
    rfl

theorem step_endRaw {tag : Tag} (htag : Statement.ofTag tag = .endRaw) {state : State}
    (hraw : state.raw = true) : step state tag = { state with raw := false } := by
  rw [step, hraw, htag]
  rfl

theorem isKeywordTag_rawTag : Lexer.IsKeywordTag rawTag.toList .rawKw
    { kind := .tagBegin .statement, start := {}, text := "\x7b%" }
    { kind := .keyword .rawKw, start := { offset := 3, position := { character := 3 } }, text := "raw" }
    { kind := .tagEnd .statement, start := { offset := 7, position := { character := 7 } }
      text := "%\x7d" } := by
  constructor <;> decide +kernel

theorem isKeywordTag_endRawTag : Lexer.IsKeywordTag endRawTag.toList .endrawKw
    { kind := .tagBegin .statement, start := {}, text := "\x7b%" }
    { kind := .keyword .endrawKw, start := { offset := 3, position := { character := 3 } }
      text := "endraw" }
    { kind := .tagEnd .statement, start := { offset := 10, position := { character := 10 } }
      text := "%\x7d" } := by
  constructor <;> decide +kernel

/-- A raw part counts for nothing, whatever is in it, and what follows it is read. -/
theorem foldl_rawPart {before content : List Char} {tokens inside : List Token}
    (hopening : Lexer.ReadBehind before rawTag.toList tokens)
    (hending : Lexer.ReadBehind content endRawTag.toList inside)
    (hinside : ∀ tag ∈ Tag.ofTokens (Place.past {} content).position inside,
      Statement.ofTag tag ≠ .endRaw) (after : List Char) (stop : Position) (state : State) :
    let part := before ++ rawTag.toList ++ (content ++ endRawTag.toList)
    (Tag.ofTokens stop (tokenize (part ++ after))).foldl step state =
      (Tag.ofTokens stop ((tokenize after).map (Token.shift (Place.past {} part)))).foldl step
        { (Tag.ofTokens (Place.past {} before).position tokens).foldl step state with raw := false } := by
  intro part
  have hpart : (Place.past {} (before ++ rawTag.toList)).shift
      (Place.past {} (content ++ endRawTag.toList)) = Place.past {} part := by
    rw [← Place.past_eq_shift, ← Place.past_append]
  obtain ⟨opened, hopened, htags⟩ := hopening.ofTokens_append isKeywordTag_rawTag {}
    (content ++ endRawTag.toList ++ after) stop
  obtain ⟨ended, hended, hrest⟩ := hending.ofTokens_append isKeywordTag_endRawTag
    (Place.past {} (before ++ rawTag.toList)) after stop
  have hskipped : ∀ tag ∈ Tag.ofTokens ((Place.past {} (before ++ rawTag.toList)).shift
      (Place.past {} content)).position
      (inside.map (Token.shift (Place.past {} (before ++ rawTag.toList)))),
      Statement.ofTag tag ≠ .endRaw := by
    exact forall_ne_endRaw_of_moved (Tag.ofTokens_moved (Place.past {} content).position
      (Token.allMoved_shift (Place.past {} (before ++ rawTag.toList)) inside)) hinside
  rw [Place.zero_shift, Place.zero_shift, Token.map_shift_zero, Token.map_shift_zero] at htags
  rw [List.append_assoc, htags, hrest, hpart, List.foldl_append, List.foldl_cons, List.foldl_append,
    List.foldl_cons, step_beginRaw hopened, foldl_of_raw rfl hskipped, step_endRaw hended rfl]

theorem chars_withRaw (name before content after : String) :
    (withRaw name before content after).chars =
      before.toList ++ rawTag.toList ++ (content.toList ++ endRawTag.toList) ++ after.toList := by
  simp only [withRaw, Source.chars, String.toList_append, List.append_assoc]

theorem endPosition_withRaw (name before content after : String) :
    (withRaw name before content after).endPosition =
      (Place.past {} (before.toList ++ rawTag.toList ++
        (content.toList ++ endRawTag.toList))).position.shift (Place.past {} after.toList).position := by
  rw [Source.endPosition, chars_withRaw, Place.past_append, Place.past_eq_shift]
  rfl

/-- Nothing is read between the two tags of an empty raw part. -/
theorem readBehind_nil (tag : List Char) : Lexer.ReadBehind [] tag [] := by
  rw [Lexer.ReadBehind, Place.past_nil, Token.map_shift_zero]
  rfl

/-- What follows the raw part moves with the end of its content. -/
theorem rebase_behind (before content : List Char) (position : Position) :
    Position.rebase (Place.past {} (before ++ rawTag.toList)).position
        (Place.past {} (before ++ rawTag.toList ++ content)).position
        ((Place.past {} (before ++ rawTag.toList ++ ([] ++ endRawTag.toList))).position.shift position) =
      (Place.past {} (before ++ rawTag.toList ++ (content ++ endRawTag.toList))).position.shift
        position := by
  have hend : ∀ text, (Place.past {} (text ++ endRawTag.toList)).position.shift position =
      (Place.past {} text).position.shift
        ((Place.past {} endRawTag.toList).position.shift position) := by
    intro text
    rw [Place.past_append, Place.past_eq_shift, Place.position_shift, Position.shift_shift]
  have hpositive : ({} : Position) < (Place.past {} endRawTag.toList).position := by decide +kernel
  rw [List.nil_append, ← List.append_assoc, hend, hend]
  refine Position.rebase_shift ?_
  have hlater := Position.shift_strictMono (Place.past {} (before ++ rawTag.toList)).position
    (hpositive.trans_le (Position.le_shift (Place.past {} endRawTag.toList).position position))
  rwa [Position.shift_zero] at hlater

theorem State.Embeds.leaveRaw {earlier state whole : State} {move : Position → Position}
    {stop stop' : Position} (hembeds : Embeds earlier move stop stop' state.openScopes state whole) :
    Embeds earlier move stop stop' { state with raw := false : State }.openScopes
      { state with raw := false } { whole with raw := false } :=
  { hembeds with raw := rfl }

/-- The content of a raw part is opaque as long as the end of the part is read as a tag: the template
    declares and mentions what it does with an empty raw part, and what follows the content moves. -/
theorem ofSource_rawPart {before content : String} (hpart : RawPart before content)
    (name after : String) :
    let opened := Place.past {} (before ++ rawTag).toList
    let move := Position.rebase opened.position (opened.past content.toList).position
    (reading (withRaw name before content "")).raw = false ∧
      ofSource (withRaw name before content after) =
        { (ofSource (withRaw name before "" after)).map move with
          tokens := tokenize (withRaw name before content after).chars } := by
  intro opened move
  obtain ⟨⟨tokens, hopening⟩, inside, hending, hinside⟩ := hpart
  have hread := foldl_rawPart hopening hending hinside
  have hempty := foldl_rawPart hopening (readBehind_nil endRawTag.toList)
    fun tag hmem => by rw [Tag.ofTokens] at hmem; cases hmem
  have hopened : opened = Place.past {} (before.toList ++ rawTag.toList) := by
    simp only [opened, String.toList_append]
  refine ⟨?_, ?_⟩
  · rw [reading, chars_withRaw, hread, String.toList_empty, Tag.ofTokens_tokenize_nil]
    rfl
  have hmove : Monotone move := Position.rebase_mono (Place.position_le_past opened content.toList)
  have hbefore : (Place.past {} before.toList).position ≤ opened.position := by
    rw [hopened, Place.past_append]
    exact Place.position_le_past _ rawTag.toList
  have hfixed : ∀ position ≤ (Place.past {} before.toList).position, move position = position :=
    fun position hle => Position.rebase_of_le (hle.trans hbefore)
  have hbehind := rebase_behind before.toList content.toList
  rw [← hopened, Place.past_append, ← hopened] at hbehind
  have hstop : (withRaw name before content after).endPosition =
      move (withRaw name before "" after).endPosition := by
    rw [endPosition_withRaw, endPosition_withRaw]
    exact (hbehind _).symm
  -- What stands before the raw part has not moved, and what stands behind it has.
  have htags := hopening.tags_moved isKeywordTag_rawTag hfixed
  have hlater := Tag.ofTokens_moved (withRaw name before "" after).endPosition
    (Token.allMoved_between_shifts hbehind (tokenize after.toList))
  have hembeds := embeds_tags hmove (State.embeds_initial
    (withRaw name before "" after).endPosition (withRaw name before content after).endPosition move)
    htags
  rw [hstop] at hembeds
  have hwhole := embeds_finish hmove (embeds_foldl hmove (.leaveRaw hembeds) hlater)
  rw [← hread, ← hempty] at hwhole
  have hstart : move {} = {} := Position.rebase_of_le (Position.zero_le _)
  simp only [ofSource, ofTokens, map, chars_withRaw, hstop]
  rw [Outline.mk.injEq]
  exact ⟨rfl, hwhole.scopes.eq_map hstart, hwhole.references, hwhole.filters, hwhole.templates,
    hwhole.links⟩

/-- An unfinished tag in the content does not matter: the end of the raw part ends it. -/
theorem ofSource_rawPart_unfinished :
    let before := "\x7b% set a = 1 %\x7d"
    let content := "\x7b\x7b b \x7d\x7d\x7b% for x in"
    let opened := Place.past {} (before ++ rawTag).toList
    let move := Position.rebase opened.position (opened.past content.toList).position
    RawPart before content ∧ (reading (withRaw "page.html" before content "")).raw = false ∧
      ofSource (withRaw "page.html" before content "\x7b\x7b a \x7d\x7d") =
        { (ofSource (withRaw "page.html" before "" "\x7b\x7b a \x7d\x7d")).map move with
          tokens := tokenize (withRaw "page.html" before content "\x7b\x7b a \x7d\x7d").chars } := by
  have hpart : RawPart "\x7b% set a = 1 %\x7d" "\x7b\x7b b \x7d\x7d\x7b% for x in" := by
    refine ⟨⟨(tokenize "\x7b% set a = 1 %\x7d".toList).dropLast, ?_⟩,
      (tokenize "\x7b\x7b b \x7d\x7d\x7b% for x in".toList).dropLast, ?_, by decide +kernel⟩
    · rw [Lexer.ReadBehind]
      decide +kernel
    · rw [Lexer.ReadBehind]
      decide +kernel
  exact ⟨hpart, ofSource_rawPart hpart "page.html" "\x7b\x7b a \x7d\x7d"⟩

/-- A comment that begins in the content takes in the end of the raw part, and with it the rest of
    the template. -/
theorem rawPart_swallowed :
    (reading { name := "page.html", text := "" }).raw = false ∧
      Lexer.ReadBehind "".toList rawTag.toList [] ∧ ¬ "endraw".toList <:+: "\x7b# ".toList ∧
      (reading (withRaw "page.html" "" "\x7b# " "\x7b\x7b shown \x7d\x7d")).raw = true ∧
      (ofSource (withRaw "page.html" "" "\x7b# " "\x7b\x7b shown \x7d\x7d")).references = [] ∧
      (ofSource (withRaw "page.html" "" "" "\x7b\x7b shown \x7d\x7d")).references.map (·.text) = ["shown"] :=
  ⟨by decide +kernel, readBehind_nil rawTag.toList, by decide +kernel, by decide +kernel,
    by decide +kernel, by decide +kernel⟩

end Outline

end Template

end TemplateAnalysis
