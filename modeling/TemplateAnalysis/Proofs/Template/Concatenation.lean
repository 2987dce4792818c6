import TemplateAnalysis.Proofs.Template.Embedding
import TemplateAnalysis.Proofs.Template.Lookahead

namespace TemplateAnalysis

section Identity

theorem ScopeTree.renumber_zero (id : ScopeId) : renumber 0 id = id := by
  unfold renumber
  split
  next hroot => exact hroot.symm
  next => rfl

theorem Binding.map_id : Binding.map id = id := rfl

theorem Scope.map_id (scope : Scope) : scope.map id 0 = scope := by
  have hrename : ScopeTree.renumber 0 = id := funext ScopeTree.renumber_zero
  simp only [Scope.map, hrename, Binding.map_id, Option.map_id, List.map_id, id]
  rfl

end Identity

namespace ScopeTree.Embeds

variable {tree whole : ScopeTree} {stop stop' : Position}

theorem initial (stop stop' : Position) (move : Position → Position) :
    (ofEnd {}).Embeds move stop stop' [] (ofEnd stop) (ofEnd stop') where
  notRoot := List.not_mem_nil
  top := ⟨[], rfl, rfl⟩
  before index hindex := absurd hindex (Nat.not_lt_zero index)
  below id scope hroot hscope := by
    cases id with
    | zero => exact absurd rfl hroot
    | succ id => cases hscope
  nextId := rfl

/-- Scopes that have all ended are those that were read before more text. -/
theorem behind (hembeds : (ofEnd {}).Embeds id stop stop' [] tree whole)
    (move : Position → Position) (last : Position) :
    tree.Embeds move last stop' [] (ofEnd last) whole where
  notRoot := List.not_mem_nil
  top := by
    obtain ⟨declared, htop, hwhole⟩ := hembeds.top
    refine ⟨[], rfl, ?_⟩
    have hdeclared : tree.bindingsOf root = declared := by
      rw [bindingsOf, htop]
      rfl
    rw [hwhole, hdeclared, Binding.map_id, List.map_id, List.map_nil, List.append_nil]
    rfl
  before index hindex := by
    have hsome : index + 1 < tree.scopes.length := by
      rw [countBelow, List.length_tail] at hindex
      omega
    obtain ⟨other, hother, end', rfl, hended⟩ := hembeds.below (index + 1) _
      (Nat.succ_ne_zero index) (List.getElem?_eq_getElem hsome)
    rw [List.getElem?_tail, List.getElem?_eq_getElem hsome]
    refine hother.trans (congrArg some ?_)
    rw [hended List.not_mem_nil]
    exact Scope.map_id tree.scopes[index + 1]
  below id scope hroot hscope := by
    cases id with
    | zero => exact absurd rfl hroot
    | succ id => cases hscope
  nextId := by
    have hpos := Nat.pos_of_ne_zero hembeds.nextId_ne_root
    have hwhole : whole.scopes.length = tree.scopes.length := hembeds.nextId
    rw [ScopeTree.nextId] at hpos ⊢
    rw [hwhole, countBelow, List.length_tail]
    exact (Nat.add_sub_cancel' hpos).symm

end ScopeTree.Embeds

namespace Template

/-- The token of a part of a text in the whole text, if the part begins at the origin. -/
def Token.shift (origin : Place) (token : Token) : Token :=
  { token with start := origin.shift token.start }

theorem Token.moved_shift (origin : Place) (token : Token) :
    token.Moved origin.position.shift (token.shift origin) where
  kind := rfl
  text := rfl
  position part _ := by rw [Token.shift, ← Place.shift_past, Place.position_shift]

theorem Token.allMoved_shift (origin : Place) (tokens : List Token) :
    Token.AllMoved origin.position.shift tokens (tokens.map (Token.shift origin)) := by
  induction tokens with
  | nil => exact .nil
  | cons token rest ih => exact .cons (token.moved_shift origin) ih

theorem Tag.forall₂_moved_id (tags : List Tag) : List.Forall₂ (Tag.Moved id) tags tags :=
  List.forall₂_same.mpr fun _ _ =>
    ⟨rfl, rfl, List.forall₂_same.mpr fun _ _ => ⟨rfl, rfl, fun _ _ => rfl⟩, rfl⟩

/-- The lexer reads a text in the same way wherever it begins. -/
theorem Lexer.tokensFrom_shift (mode : Mode) (origin start : Place) (text : List Char) :
    tokensFrom mode (origin.shift start) text =
      (tokensFrom mode start text).map (Token.shift origin) := by
  induction hlength : text.length using Nat.strong_induction_on generalizing mode start text with
  | _ length ih =>
    subst hlength
    cases text with
    | nil => rw [tokensFrom, tokensFrom]; rfl
    | cons c rest =>
      rw [tokensFrom_cons, tokensFrom_cons, List.map_append, ← Place.shift_past, ih _ ?_ _ _ _ rfl]
      · cases (piece mode c rest).kind <;> rfl
      · simp only [List.length_drop, List.length_cons]
        omega

namespace Outline

/-- What has been read of a template before its end. -/
def reading (source : Source) : State :=
  (Tag.ofTokens source.endPosition (tokenize source.chars)).foldl step
    { scopes := .ofEnd source.endPosition }

/-- A template ends right behind a tag, and nothing is open there: no block and no raw part. -/
structure Complete (source : Source) : Prop where
  ends : ∃ tokens, Lexer.EndsInTag .data {} source.chars tokens
  blocks : (reading source).blocks = []
  raw : (reading source).raw = false

/-- What two templates declare and mention if the second one begins at the end of the first one. The
    scopes of the second one are numbered behind those of the first one, and the roots are one. -/
def append (origin : Place) (first second : Outline) : Outline where
  tokens := first.tokens.dropLast ++ second.tokens.map (Token.shift origin)
  scopes := first.scopes.append origin.position.shift second.scopes
  references := first.references ++
    second.references.map (Reference.map origin.position.shift first.scopes.countBelow)
  filters := first.filters ++ second.filters.map (Name.map origin.position.shift)
  templates := first.templates ++ second.templates.map (Identifier.map origin.position.shift)
  links := first.links ++ second.links.map (Identifier.map origin.position.shift)

theorem State.Embeds.behind {state whole : State} {stop stop' : Position}
    (hembeds : State.Embeds { scopes := .ofEnd {} } id stop stop' [] state whole)
    (hblocks : state.blocks = []) (hraw : state.raw = false) (move : Position → Position)
    (last : Position) :
    State.Embeds state move last stop' [] { scopes := .ofEnd last } whole where
  scopes := hembeds.scopes.behind move last
  blocks := by rw [hembeds.blocks, hblocks]; rfl
  raw := by rw [hembeds.raw, hraw]
  references := by
    have hmap : Reference.map id 0 = id := funext fun reference => by
      simp only [Reference.map, ScopeTree.renumber_zero]
      rfl
    have hsame : whole.references = [] ++ state.references.map (Reference.map id 0) :=
      hembeds.references
    rw [hsame, hmap, List.nil_append, List.map_id]
    exact (List.append_nil _).symm
  filters := by
    have hmap : Name.map id = id := rfl
    rw [hembeds.filters, hmap, List.map_id, List.map_nil, List.append_nil]
    rfl
  templates := by
    have hmap : Identifier.map id = id := rfl
    rw [hembeds.templates, hmap, List.map_id, List.map_nil, List.append_nil]
    rfl
  links := by
    have hmap : Identifier.map id = id := rfl
    rw [hembeds.links, hmap, List.map_id, List.map_nil, List.append_nil]
    rfl
  pending := nofun

theorem State.embeds_initial (stop stop' : Position) (move : Position → Position) :
    State.Embeds { scopes := .ofEnd {} } move stop stop' [] { scopes := .ofEnd stop }
      { scopes := .ofEnd stop' } where
  scopes := .initial stop stop' move
  blocks := rfl
  raw := rfl
  references := rfl
  filters := rfl
  templates := rfl
  links := rfl
  pending := nofun

theorem finish_of_blocks {state : State} (stop : Position) (hblocks : state.blocks = []) :
    finish stop state = state := by
  obtain ⟨scopes, blocks, raw, references, filters, templates, links⟩ := state
  cases hblocks
  rfl

theorem embeds_tags {earlier whole : State} {move : Position → Position} {stop stop' : Position}
    {tags moved : List Tag} (hmove : Monotone move)
    (hembeds : State.Embeds earlier move stop stop' [] { scopes := .ofEnd stop } whole)
    (htags : List.Forall₂ (Tag.Moved move) tags moved) :
    State.Embeds earlier move stop stop' (tags.foldl step { scopes := .ofEnd stop }).openScopes
      (tags.foldl step { scopes := .ofEnd stop }) (moved.foldl step whole) :=
  embeds_foldl hmove hembeds htags

/-- What stands behind a complete template is read as if it stood alone, whatever is wrong in the
    template before it. -/
theorem ofSource_append {first : Source} (hcomplete : Complete first) (second : Source)
    (name : String) :
    ofSource { name, text := first.text ++ second.text } =
      append (Place.past {} first.chars) (ofSource first) (ofSource second) := by
  obtain ⟨tokens, hends⟩ := hcomplete.ends
  obtain ⟨last, form, hlast, hkind, _⟩ := hends.last
  have hclosing : last.kind.isTagEnd = true := by rw [hkind]; rfl
  set origin := Place.past {} first.chars with horigin
  have hchars : (Source.mk name (first.text ++ second.text)).chars = first.chars ++ second.chars :=
    String.toList_append
  -- The tokens of the whole text are those of the two parts.
  have htokens : tokenize (first.chars ++ second.chars) =
      tokens ++ (tokenize second.chars).map (Token.shift origin) := by
    rw [tokenize, hends.append.2, tokenize, ← Lexer.tokensFrom_shift]
    rfl
  have hstop : (Source.mk name (first.text ++ second.text)).endPosition =
      origin.position.shift second.endPosition := by
    rw [Source.endPosition, hchars, Place.past_append, Place.past_eq_shift]
    rfl
  have hfirst : tokenize first.chars = tokens ++ [{ kind := .endOfFile, start := origin, text := "" }] :=
    hends.read
  -- The tags of the first part are the same alone and before more text.
  have hread : reading first = (Tag.ofTokens first.endPosition tokens).foldl step
      { scopes := .ofEnd first.endPosition } := by
    have htags : Tag.ofTokens first.endPosition (tokenize first.chars) =
        Tag.ofTokens first.endPosition tokens ++ Tag.ofTokens first.endPosition _ :=
      hfirst ▸ Tag.ofTokens_append hlast hclosing _
    rw [reading, htags, Tag.ofTokens_tail rfl, Tag.ofTokens, List.append_nil]
  have htags : Tag.ofTokens (origin.position.shift second.endPosition)
      (tokens ++ (tokenize second.chars).map (Token.shift origin)) =
      Tag.ofTokens first.endPosition tokens ++ Tag.ofTokens (origin.position.shift second.endPosition)
        ((tokenize second.chars).map (Token.shift origin)) :=
    Tag.ofTokens_append hlast hclosing _
  have hbefore := embeds_tags monotone_id
    (State.embeds_initial first.endPosition (origin.position.shift second.endPosition) id)
    (Tag.forall₂_moved_id (Tag.ofTokens first.endPosition tokens))
  rw [← hread, State.openScopes, hcomplete.blocks, List.filterMap_nil] at hbefore
  -- No block is open between the two templates, so the second one is read at the root as if alone.
  have hbehind := hbefore.behind hcomplete.blocks hcomplete.raw origin.position.shift
    second.endPosition
  have hmove := origin.position.shift_strictMono.monotone
  have hafter := embeds_finish hmove (embeds_tags hmove hbehind (Tag.ofTokens_moved second.endPosition
    (Token.allMoved_shift origin (tokenize second.chars))))
  rw [← List.foldl_append, ← htags, ← htokens] at hafter
  have hdropped : (tokenize first.chars).dropLast = tokens := by rw [hfirst, List.dropLast_concat]
  rw [← finish_of_blocks first.endPosition hcomplete.blocks] at hafter
  rw [ofSource, ofTokens, hstop, hchars]
  show Outline.mk _ _ _ _ _ _ = Outline.mk _ _ _ _ _ _
  rw [Outline.mk.injEq]
  simp only [ofSource, ofTokens, hdropped]
  exact ⟨htokens, hafter.scopes.eq_append, hafter.references, hafter.filters, hafter.templates,
    hafter.links⟩

/-- A template with an end that ends nothing, a loop without a sequence and an expression that goes
    on without an operator. -/
def malformed : Source :=
  { name := "first.html", text := "\x7b% endif %\x7d\x7b% for x %\x7d\x7b% endfor %\x7d\n\x7b\x7b a | \x7d\x7d" }

theorem complete_malformed : Complete malformed where
  ends := ⟨(tokenize malformed.chars).dropLast, by decide +kernel,
    { kind := .tagEnd .expression, start := { offset := 42, position := { line := 1, character := 7 } }
      text := "\x7d\x7d" }, .expression, by decide +kernel, rfl, by decide +kernel⟩
  blocks := by decide +kernel
  raw := by decide +kernel

theorem ofSource_append_malformed :
    let second := { name := "second.html", text := "\x7b% with b = 1 %\x7d\x7b\x7b b \x7d\x7d\x7b% endwith %\x7d" : Source }
    Complete malformed ∧ ofSource { name := "whole.html", text := malformed.text ++ second.text } =
      append (Place.past {} malformed.chars) (ofSource malformed) (ofSource second) :=
  ⟨complete_malformed, ofSource_append complete_malformed _ "whole.html"⟩

end Outline

end Template

end TemplateAnalysis
