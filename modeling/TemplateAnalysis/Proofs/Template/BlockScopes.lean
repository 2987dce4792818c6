import TemplateAnalysis.Proofs.Syntax.Lexing
import TemplateAnalysis.Proofs.Template.BlockFrames
import TemplateAnalysis.Proofs.Template.RawPart

namespace TemplateAnalysis.Template

namespace Outline

/-- How tokens are read, whatever follows them if they leave nothing open, and otherwise if the end of the
    file follows. -/
def Performs (stop : Position) (isClosed : Bool) (tokens : List Token) (state later : State) : Prop :=
  ∀ rest, (isClosed = true ∨ ∃ last, rest = [last] ∧ last.kind = .endOfFile) →
    (Tag.ofTokens stop (tokens ++ rest)).foldl step state = (Tag.ofTokens stop rest).foldl step later

namespace Performs

variable {stop : Position} {isClosed : Bool} {first second : List Token} {state middle later : State}

theorem nil (stop : Position) (state : State) : Performs stop true [] state state :=
  fun _ _ => rfl

theorem text {content : Token} (htext : content.kind = .text) (state : State) :
    Performs stop true [content] state state := by
  intro rest _
  rw [List.singleton_append, Tag.ofTokens_tail (by rw [htext]; rfl)]

theorem tag (stop : Position) (whole : WholeTag) (state : State) :
    Performs stop true whole.tokens state (step state whole.tag) := by
  intro rest _
  have htokens : whole.tokens ++ rest = whole.first :: (whole.body ++ whole.last :: rest) := by
    simp [WholeTag.tokens]
  rw [htokens, Syntax.ofTokens_body whole.opens whole.inside whole.closes]
  rfl

theorem trans (hfirst : Performs stop true first state middle)
    (hsecond : Performs stop isClosed second middle later) :
    Performs stop isClosed (first ++ second) state later := by
  intro rest hrest
  rw [List.append_assoc, hfirst _ (.inl rfl), hsecond rest hrest]

theorem cut (hperforms : Performs stop isClosed first state later) : Performs stop false first state later :=
  fun rest hrest => hperforms rest (.inr (hrest.resolve_left Bool.false_ne_true))

end Performs

section Raw

/-- Tokens in which no statement begins with the end of a raw part make no tag that ends one. -/
theorem forall_ne_endRaw {stop : Position} {tokens : List Token}
    (hendless : ∀ first second, first.kind = .tagBegin .statement → second.kind = .keyword .endrawKw →
      ¬ [first, second] <:+: tokens) :
    ∀ tag ∈ Tag.ofTokens stop tokens, Statement.ofTag tag ≠ .endRaw := by
  induction tokens using Tag.tokens_induction with
  | nil =>
    rw [Tag.ofTokens]
    exact List.forall_mem_nil _
  | outside token rest hbegin ih =>
    rw [Tag.ofTokens_tail hbegin]
    refine ih fun first second hfirst hsecond hholds => ?_
    exact hendless first second hfirst hsecond (hholds.trans (List.suffix_cons token rest).isInfix)
  | opening token rest form hkind ih =>
    rw [Tag.ofTokens, hkind]
    refine List.forall_mem_cons.mpr ⟨?_, ih fun first second hfirst hsecond hholds => ?_⟩
    · intro hend
      rw [Statement.ofTag] at hend
      cases form with
      | expression => cases hend
      | statement =>
        cases rest with
        | nil => cases hend
        | cons word rest =>
          cases hinside : word.kind.isInsideTag with
          | false =>
            simp only [List.takeWhile_cons, hinside] at hend
            cases hend
          | true =>
            simp only [List.takeWhile_cons, hinside, if_pos] at hend
            exact hendless token word hkind (Statement.kind_of_endRaw hend) ⟨[], rest, rfl⟩
    · refine hendless first second hfirst hsecond (hholds.trans ?_)
      exact ((List.dropWhile_suffix _).trans (List.suffix_cons token rest)).isInfix

variable {stop : Position} {state : State}

/-- A raw part changes nothing once it has ended. -/
theorem performs_raw (hraw : state.raw = false) (opening : WordTag .rawKw) (content : RawContent)
    (ending : WordTag .endrawKw) :
    Performs stop true (opening.tokens ++ (content.tokens ++ ending.tokens)) state state := by
  have hopening : step state opening.tag = { state with raw := true } :=
    step_beginRaw (Statement.ofTag_beginRaw opening) state
  have hending : step { state with raw := true } ending.tag = state := by
    rw [step_endRaw (Statement.ofTag_endRaw ending) rfl, ← hraw]
  refine (Performs.tag stop opening.toWholeTag state).trans fun rest hrest => ?_
  have hlater := Performs.tag stop ending.toWholeTag { state with raw := true } rest hrest
  rw [hopening, List.append_assoc]
  rw [hending] at hlater
  rw [WholeTag.tokens, List.cons_append] at hlater ⊢
  rw [Tag.ofTokens_append_begin ending.opens, List.foldl_append,
    foldl_of_raw rfl (forall_ne_endRaw content.endless), hlater]

/-- A raw part without an end takes in the rest of the file. -/
theorem performs_openRaw (opening : WordTag .rawKw) (content : RawContent) :
    Performs stop false (opening.tokens ++ content.tokens) state { state with raw := true } := by
  have hopening : step state opening.tag = { state with raw := true } :=
    step_beginRaw (Statement.ofTag_beginRaw opening) state
  refine (Performs.tag stop opening.toWholeTag state).trans fun rest hrest => ?_
  obtain ⟨last, rfl, hlast⟩ := hrest.resolve_left Bool.false_ne_true
  have hendless : ∀ first second, first.kind = .tagBegin .statement → second.kind = .keyword .endrawKw →
      ¬ [first, second] <:+: content.tokens ++ [last] := by
    intro first second hfirst hsecond hholds
    rcases List.infix_concat_iff.mp hholds with hsuffix | hholds
    · obtain ⟨before, hbefore⟩ := hsuffix
      have hsame := congrArg List.getLast? hbefore
      simp only [List.getLast?_append, List.getLast?_cons_cons, List.getLast?_singleton, Option.some_or,
        Option.some.injEq] at hsame
      rw [hsame, hlast] at hsecond
      cases hsecond
    · exact content.endless first second hfirst hsecond hholds
  have hnone : Tag.ofTokens stop [last] = [] := by
    rw [Tag.ofTokens_tail (by rw [hlast]; rfl), Tag.ofTokens]
  rw [hopening, foldl_of_raw rfl (forall_ne_endRaw hendless), hnone]
  rfl

end Raw

end Outline

theorem WholeTag.between {whole : WholeTag} {high low : Position}
    (hbetween : Token.Between high low whole.tokens) : low ≤ whole.start ∧ whole.after ≤ high :=
  ⟨hbetween.1, (hbetween.of_mem (List.mem_cons_of_mem _ (List.mem_append_right _ List.mem_cons_self))).2⟩

namespace BlockTree

open Outline

variable {host : Option BlockKind} {isClosed : Bool}

/-- The tags of a tree lead from a state to one with the scopes of the tree. -/
def Mirrored (stop : Position) (state : State) (tree : BlockTree host isClosed) : Prop :=
  ∃ later, Performs stop isClosed tree.tokens state later ∧
    Mirrors stop isClosed state later (tree.shapes stop state.currentScope state.scopes.nextId)

/-- What stands before a tree adds its scopes to those of the tree. -/
theorem Mirrored.behind {stop : Position} {tokens : List Token} {shapes : List Scope} {state middle : State}
    {tree : BlockTree host isClosed} (hperforms : Performs stop true tokens state middle)
    (hmirrors : Mirrors stop true state middle shapes) (htree : tree.Mirrored stop middle) :
    ∃ later, Performs stop isClosed (tokens ++ tree.tokens) state later ∧
      Mirrors stop isClosed state later
        (shapes ++ tree.shapes stop state.currentScope (state.scopes.nextId + shapes.length)) := by
  obtain ⟨later, hlater, hshapes⟩ := htree
  rw [hmirrors.currentScope_eq, hmirrors.nextId_eq] at hshapes
  exact ⟨later, hperforms.trans hlater, hmirrors.trans hshapes⟩

/-- A loop up to its last branch. Its block stays open around the branch, without a scope. -/
theorem Mirrored.loop {stop high low : Position} {state : State} {opening : OpeningTag .forLoop}
    {body : BlockTree (some .forLoop) true} {divider : WordTag .elseKw} (hraw : state.raw = false)
    (hbetween : Token.Between high low (opening.tokens ++ (body.tokens ++ divider.tokens)))
    (hbody : body.Mirrored stop (step state opening.tag)) :
    ∃ outside later, Performs stop true (opening.tokens ++ (body.tokens ++ divider.tokens)) state later ∧
      Mirrors stop true state outside (withInner
        (ownScope (some .loop) state.currentScope { start := opening.after, stop := divider.start } false)
        state.currentScope state.scopes.nextId fun around next => body.shapes stop around next) ∧
      Opens .forLoop none divider.after outside later := by
  obtain ⟨first, hopening, hbetween⟩ := hbetween.split
  obtain ⟨second, hinner, hdivider⟩ := hbetween.split
  obtain ⟨middle, hperforms, hmirrors⟩ := hbody
  have hopens := step_opens hraw (Statement.opens?_opening opening)
  obtain ⟨outside, hloop, hblock⟩ := hopens.mirrors_otherwise
    (fun around next => body.shapes stop around next) hmirrors
    ((WholeTag.between hopening).2.trans (hinner.le.trans (WholeTag.between hdivider).1))
    (Statement.ofTag_otherwise divider)
  exact ⟨outside, _, (Performs.tag stop opening.toWholeTag state).trans
    (hperforms.trans (.tag stop divider.toWholeTag middle)), hloop, hblock⟩

/-- By induction on the tree: what a body or the rest of a template does is what it does in the state that
    the tags before it have led to. -/
theorem mirrored (tree : BlockTree host isClosed) {stop high low : Position} {state : State}
    (hraw : state.raw = false) (hhost : ∀ kind ∈ host, state.blocks.head?.map (·.kind) = some kind)
    (hbetween : Token.Between high low tree.tokens) (hhigh : high ≤ stop) : tree.Mirrored stop state := by
  induction tree generalizing state high low with
  | done => exact ⟨state, .nil stop state, .of_frame hraw rfl⟩
  | text content htext next ih =>
    obtain ⟨later, hperforms, hmirrors⟩ := ih hraw hhost hbetween.2.2 hhigh
    exact ⟨later, (Performs.text htext state).trans hperforms, hmirrors⟩
  | plain tag next ih =>
    obtain ⟨middle, _, hnext⟩ := hbetween.split
    -- The tag opens and closes nothing, so the rest goes on in the same frame.
    have hstep : Mirrors stop true state (step state tag.tag) [] :=
      .of_frame hraw (frame_plain hraw (Statement.isPlain_plain tag))
    exact Mirrored.behind (.tag stop tag.toWholeTag state) hstep
      (ih (hstep.raw rfl) (hstep.blocks_eq ▸ hhost) hnext hhigh)
  | elseIf tag next ih =>
    obtain ⟨middle, _, hnext⟩ := hbetween.split
    have hstep : Mirrors stop true state (step state tag.tag) [] :=
      .of_frame hraw (frame_plain hraw (Statement.isPlain_elseIf tag))
    exact Mirrored.behind (.tag stop tag.toWholeTag state) hstep
      (ih (hstep.raw rfl) (hstep.blocks_eq ▸ hhost) hnext hhigh)
  | otherwise tag next ih =>
    obtain ⟨middle, _, hnext⟩ := hbetween.split
    have hstep : Mirrors stop true state (step state tag.tag) [] :=
      .of_frame hraw (frame_otherwise hraw (hhost _ rfl) (Statement.ofTag_otherwise tag))
    exact Mirrored.behind (.tag stop tag.toWholeTag state) hstep
      (ih (hstep.raw rfl) (hstep.blocks_eq ▸ hhost) hnext hhigh)
  | raw opening content ending next ih =>
    rw [tokens, ← List.append_assoc, ← List.append_assoc, List.append_assoc opening.tokens] at hbetween
    obtain ⟨middle, _, hnext⟩ := hbetween.split
    -- No tag takes effect between the two ends of a raw part.
    obtain ⟨later, hperforms, hmirrors⟩ := Mirrored.behind (performs_raw hraw opening content ending)
      (.of_frame hraw rfl) (ih hraw hhost hnext hhigh)
    exact ⟨later, by simpa [tokens] using hperforms, hmirrors⟩
  | openRaw opening content =>
    -- The rest of the file is raw: nothing is opened, and nothing is left to be mirrored.
    exact ⟨_, performs_openRaw opening content, nofun, [], nofun, rfl, (List.append_nil _).symm⟩
  | block kind opening body ending next ihBody ihNext =>
    obtain ⟨first, hopening, hbetween⟩ := hbetween.split
    obtain ⟨second, hbody, hbetween⟩ := hbetween.split
    obtain ⟨third, hending, hnext⟩ := hbetween.split
    have hopens := step_opens hraw (Statement.opens?_opening opening)
    obtain ⟨later, hperforms, hmirrors⟩ := ihBody hopens.raw hopens.head? hbody
      (hending.le.trans (hnext.le.trans hhigh))
    -- The body has left the block on top, so the end tag closes this block and no other one.
    have hblock := hopens.mirrors_end (fun around next => body.shapes stop around next) hmirrors
      ((WholeTag.between hopening).2.trans (hbody.le.trans (WholeTag.between hending).1))
      (Statement.ofTag_ending ending)
    have hwhole := (Performs.tag stop opening.toWholeTag state).trans
      (hperforms.trans (.tag stop ending.toWholeTag later))
    obtain ⟨last, hperforms, hmirrors⟩ := Mirrored.behind hwhole hblock
      (ihNext (hblock.raw rfl) (hblock.blocks_eq ▸ hhost) hnext hhigh)
    exact ⟨last, by simpa [tokens] using hperforms, hmirrors⟩
  | openBlock kind opening body ih =>
    obtain ⟨middle, hopening, hbody⟩ := hbetween.split
    have hopens := step_opens hraw (Statement.opens?_opening opening)
    obtain ⟨later, hperforms, hmirrors⟩ := ih hopens.raw hopens.head? hbody hhigh
    refine ⟨later, (Performs.tag stop opening.toWholeTag state).trans hperforms.cut, ?_⟩
    exact hopens.mirrors_cut (fun around next => body.shapes stop around next) hmirrors
      ((WholeTag.between hopening).2.trans (hbody.le.trans hhigh))
  | loopElse opening body divider branch ending next ihBody ihBranch ihNext =>
    rw [tokens, ← List.append_assoc body.tokens, ← List.append_assoc] at hbetween
    obtain ⟨first, hhead, hbetween⟩ := hbetween.split
    obtain ⟨second, hbranch, hbetween⟩ := hbetween.split
    obtain ⟨third, hending, hnext⟩ := hbetween.split
    -- The divider ends the scope of the loop. What follows it is a block that has no scope of its own.
    have hlast := hending.le.trans (hnext.le.trans hhigh)
    have hopens := step_opens hraw (Statement.opens?_opening opening)
    obtain ⟨bodyLow, hopening, hinner⟩ := hhead.split
    obtain ⟨bodyHigh, hbody, hdivider⟩ := hinner.split
    obtain ⟨outside, middle, hperformsLoop, hloop, hopens⟩ := Mirrored.loop hraw hhead
      (ihBody hopens.raw hopens.head? hbody (hdivider.le.trans (hbranch.le.trans hlast)))
    obtain ⟨later, hperforms, hmirrors⟩ := ihBranch hopens.raw hopens.head? hbranch hlast
    have hbranch := hopens.mirrors_end (fun around next => branch.shapes stop around next) hmirrors
      ((WholeTag.between hdivider).2.trans (hbranch.le.trans (WholeTag.between hending).1))
      (@Statement.ofTag_ending .forLoop ending)
    have hwhole := hloop.trans hbranch
    obtain ⟨last, hperforms, hmirrors⟩ := Mirrored.behind
      ((hperformsLoop.trans hperforms).trans (.tag stop ending.toWholeTag later)) hwhole
      (ihNext (hwhole.raw rfl) (hwhole.blocks_eq ▸ hhost) hnext hhigh)
    rw [hloop.currentScope_eq, hloop.nextId_eq] at hmirrors
    exact ⟨last, by simpa [tokens] using hperforms, hmirrors⟩
  | openElse opening body divider branch ihBody ihBranch =>
    rw [tokens, ← List.append_assoc body.tokens, ← List.append_assoc] at hbetween
    obtain ⟨first, hhead, hbranch⟩ := hbetween.split
    have hopens := step_opens hraw (Statement.opens?_opening opening)
    obtain ⟨bodyLow, hopening, hinner⟩ := hhead.split
    obtain ⟨bodyHigh, hbody, hdivider⟩ := hinner.split
    obtain ⟨outside, middle, hperformsLoop, hloop, hopens⟩ := Mirrored.loop hraw hhead
      (ihBody hopens.raw hopens.head? hbody (hdivider.le.trans (hbranch.le.trans hhigh)))
    obtain ⟨later, hperforms, hmirrors⟩ := ihBranch hopens.raw hopens.head? hbranch hhigh
    have hcut := hopens.mirrors_cut (fun around next => branch.shapes stop around next) hmirrors
      ((WholeTag.between hdivider).2.trans (hbranch.le.trans hhigh))
    have hwhole := hloop.trans hcut
    rw [hloop.currentScope_eq, hloop.nextId_eq] at hwhole
    exact ⟨later, by simpa [tokens] using hperformsLoop.trans hperforms.cut, hwhole⟩

end BlockTree

namespace Outline

/-- The scopes of a template mirror the nesting of its blocks: behind the scope of the template itself
    stand the scopes of its blocks, in the order of the text. -/
theorem ofSource_shapes (source : Source) {isClosed : Bool} (tree : BlockTree none isClosed)
    (htokens : (tokenize source.chars).dropLast = tree.tokens) :
    (ofSource source).scopes.shapes =
      { kind := .template, range := { stop := source.endPosition } } ::
        tree.shapes source.endPosition ScopeTree.root 1 := by
  obtain ⟨tokens, hread, _⟩ := (Lexer.tokensFrom_layout .data {} source.chars).last
  have hbetween := Lexer.tokensFrom_between .data {} source.chars
  rw [hread] at hbetween
  rw [tokenize, hread, List.dropLast_concat] at htokens
  obtain ⟨high, htree, hlast⟩ := hbetween.split
  subst htokens
  have hmirrored : tree.Mirrored source.endPosition { scopes := .ofEnd source.endPosition } :=
    tree.mirrored rfl (by simp) htree hlast.le
  obtain ⟨later, hperforms, hmirrors⟩ := hmirrored
  let last : Token := { kind := .endOfFile, start := Place.past {} source.chars, text := "" }
  have hnone : Tag.ofTokens source.endPosition [last] = [] := by
    rw [Tag.ofTokens_tail rfl, Tag.ofTokens]
  have hlater := hperforms [last] (.inr ⟨last, rfl, rfl⟩)
  rw [hnone, List.foldl_nil, ← hread] at hlater
  obtain ⟨blocks, _, hblocks, hshapes⟩ := hmirrors.blocks
  rw [List.append_nil] at hblocks
  rw [ofSource, ofTokens]
  simp only [tokenize]
  rw [hlater, State.shapes_finish, hblocks, hshapes]
  rfl

/-- A token on the first line. -/
def tokenAt (column : Nat) (kind : TokenKind) (text : String) : Token :=
  { kind, start := { offset := column, position := { character := column } }, text }

/-- A statement on the first line, from its opening mark up to its closing mark. -/
def statementAt (column : Nat) (word : Keyword) (rest : List Token) (closing : Nat)
    (hinside : ∀ token ∈ rest, token.kind.isInsideTag = true) : WordTag word where
  form := .statement
  first := tokenAt column (.tagBegin .statement) "\x7b%"
  body := tokenAt (column + 3) (.keyword word) word.text :: rest
  last := tokenAt closing (.tagEnd .statement) "%\x7d"
  opens := rfl
  inside := List.forall_mem_cons.mpr ⟨rfl, hinside⟩
  closes := rfl
  isStatement := rfl
  begins := rfl

/-- A condition in a loop, and two blocks in the last branch of the loop that are open at the end. -/
def cutTemplate : Source :=
  { name := "page.html"
    text := "\x7b% for x in xs %\x7d\x7b% if x %\x7d\x7b% else %\x7d\x7b% endif %\x7d" ++
      "\x7b% else %\x7d\x7b% set y %\x7d\x7b% with z = y %\x7db" }

def cutTree : BlockTree none false :=
  .openElse
    { statementAt 0 .forKw [tokenAt 7 .identifier "x", tokenAt 9 (.keyword .inKw) "in",
        tokenAt 12 .identifier "xs"] 15 (by decide) with captures := nofun }
    (.block .ifBranch
      { statementAt 17 .ifKw [tokenAt 23 .identifier "x"] 25 (by decide) with captures := nofun }
      (.otherwise (statementAt 27 .elseKw [] 35 nofun) .done)
      (statementAt 37 .endifKw [] 46 nofun) .done)
    (statementAt 48 .elseKw [] 56 nofun)
    (.openBlock .setBlock
      { statementAt 58 .setKw [tokenAt 65 .identifier "y"] 67 (by decide) with
        captures := fun _ => ⟨_, [], rfl, .last (.name rfl), nofun⟩ }
      (.openBlock .withBlock
        { statementAt 69 .withKw [tokenAt 77 .identifier "z", tokenAt 79 (.symbol .assign) "=",
            tokenAt 81 .identifier "y"] 83 (by decide) with captures := nofun }
        (.text (tokenAt 85 .text "b") rfl .done)))

theorem ofSource_shapes_cutTree :
    (tokenize cutTemplate.chars).dropLast = cutTree.tokens ∧
      (ofSource cutTemplate).scopes.shapes =
        [{ kind := .template, range := { stop := { character := 86 } } },
          { kind := .loop, range := { start := { character := 17 }, stop := { character := 48 } }
            parent := some 0 },
          { kind := .withBlock, range := { start := { character := 85 }, stop := { character := 86 } }
            parent := some 0, openEnded := true }] := by
  have htokens : (tokenize cutTemplate.chars).dropLast = cutTree.tokens := by decide +kernel
  exact ⟨htokens, (ofSource_shapes cutTemplate cutTree htokens).trans (by decide +kernel)⟩

end Outline

end TemplateAnalysis.Template
