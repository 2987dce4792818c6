import TemplateAnalysis.Proofs.Host.Index
import TemplateAnalysis.Proofs.Source
import TemplateAnalysis.Proofs.Template.Evaluation
import TemplateAnalysis.Proofs.Workspace.History

namespace TemplateAnalysis

namespace Template

variable {text : List Char} {before after : List Token} {word : Token} {offset : Nat}

/-- The tokens that begin before an offset within a word are those up to the word. -/
theorem filter_before (htokens : tokenize text = before ++ word :: after)
    (hkind : word.kind ≠ .endOfFile) (hstart : word.start.offset < offset)
    (hstop : offset ≤ word.stop.offset) :
    (tokenize text).filter (fun token => token.kind != .endOfFile && decide (token.start.offset < offset)) =
      before ++ [word] := by
  have hlayout := tokenize_layout text
  obtain ⟨others, hlast, hothers⟩ := hlayout.last
  have hordered := hlayout.ordered.2
  rw [htokens] at hlast hordered ⊢
  obtain ⟨_, hword, hearlier⟩ := List.pairwise_append.mp hordered
  have hbefore : ∀ token ∈ before, token.kind ≠ .endOfFile := by
    have hsame := congrArg List.dropLast hlast
    rw [List.dropLast_append_of_ne_nil (List.cons_ne_nil word after), List.dropLast_concat] at hsame
    exact fun token hmem => (hothers token (hsame ▸ List.mem_append_left _ hmem)).1
  have hlater : ∀ token ∈ after, offset ≤ token.start.offset := fun token hmem =>
    hstop.trans ((List.pairwise_cons.mp hword).1 token hmem).2
  rw [List.filter_append, List.filter_eq_self.mpr, List.filter_cons_of_pos, List.filter_eq_nil_iff.mpr]
  · intro token hmem
    simp [(hlater token hmem)]
  · simp [hkind, hstart]
  · intro token hmem
    obtain ⟨hwide, hfirst⟩ := hearlier token hmem word List.mem_cons_self
    simp [hbefore token hmem, (hwide.trans_le hfirst).trans hstart]

/-- At a position within a reference the completion can see what the reference sees: no tag begins there and
    the file does not end there, no loop with the reference in its filter has a target of this name, and no
    target hides the variable of its loop behind it. -/
structure Reference.Completable (reference : Reference) (source : Source) (position : Position) :
    Prop where
  inside : ∀ token ∈ tokenize source.chars, token.kind.isTagBegin = true ∨ token.kind = .endOfFile →
    token.start.position ≠ position
  filter : ∀ tag ∈ Tag.ofTokens source.endPosition (tokenize source.chars),
    ¬ tag.FiltersTarget reference.toName
  loop : reference.text = "loop" →
    ∀ tag ∈ Tag.ofTokens source.endPosition (tokenize source.chars), ¬ tag.EndsInLoopName

end Template

/-- The kind under which a name is offered, given what it refers to. One spelling of the empty value needs
    no declaration but is not offered. -/
def Resolution.offered (name : String) : Resolution → Option CompletionKind
  | .local binding => some binding.kind.completionKind
  | .host _ => some IdentifierKind.hostVariable.completionKind
  | .builtin => if Vocabulary.builtins.contains name then some .constant else none
  | .unresolved _ => none

namespace Cursor.Completion

open Template (Outline Reference tokenize)

variable {workspace : Workspace} {outline : Outline} {position : Position} {edit : Edit}

@[simp] theorem label_withEdit (item : Completion) : (item.withEdit edit).label = item.label := by
  cases edit <;> rfl

@[simp] theorem kind_withEdit (item : Completion) : (item.withEdit edit).kind = item.kind := by
  cases edit <;> rfl

/-- Variables of scopes hide those of programs, and these hide the names that need no declaration. Each
    name is offered once. -/
theorem identifiers_labelled (workspace : Workspace) (outline : Outline) (position : Position)
    (edit : Edit) (name : String) :
    ((identifiers workspace outline position edit).filter (·.label == name)).map (·.kind) =
      ((((outline.scopes.visibleAt position).filter (·.name == name)).head?.map
        (·.kind.completionKind)).or
      (((workspace.corpus.index.latest? name workspace.corpus.family).map fun _ =>
        IdentifierKind.hostVariable.completionKind).or
      (if Vocabulary.builtins.contains name then some .constant else none))).toList := by
  have hnames : ((workspace.corpus.index.names workspace.corpus.family).find? (·.1 == name)).isSome =
      (workspace.corpus.index.latest? name workspace.corpus.family).isSome := by
    rw [Bool.eq_iff_iff, ← Host.Index.mem_map_names, List.find?_isSome, List.mem_map]
    simp
  have hhost : ∀ kind : CompletionKind,
      ((workspace.corpus.index.names workspace.corpus.family).find? (·.1 == name)).map (fun _ => kind) =
        (workspace.corpus.index.latest? name workspace.corpus.family).map fun _ => kind := by
    intro kind
    cases hfound : (workspace.corpus.index.names workspace.corpus.family).find? (·.1 == name) <;>
      cases hlatest : workspace.corpus.index.latest? name workspace.corpus.family <;>
      simp_all
  have hbuiltin : ∀ kind : CompletionKind, (Vocabulary.builtins.find? (· == name)).map (fun _ => kind) =
      if Vocabulary.builtins.contains name then some kind else none := by
    intro kind
    have hsome : (Vocabulary.builtins.find? (· == name)).isSome = Vocabulary.builtins.contains name := by
      rw [List.isSome_find?, List.any_beq']
    rw [← hsome]
    cases Vocabulary.builtins.find? (· == name) <;> rfl
  rw [← hhost, ← hbuiltin, List.head?_filter]
  simp only [identifiers, List.filter_map, Function.comp_def, label_withEdit, filter_distinctBy,
    kind_withEdit, List.find?_append, List.find?_map, ← Option.toList_map,
    Option.map_or, Option.map_map, Option.or_assoc]

/-- Within a word that neither opens a statement nor follows a point or a bar, variables are offered. -/
theorem inTemplate_word {document : Document} {offset : Nat} {word previous : Template.Token}
    {earlier : List Template.Token} (hname : word.kind.isName = true)
    (hselects : previous.kind.selects = false) (hopens : previous.kind ≠ .tagBegin .statement)
    (hstop : offset ≤ word.stop.offset) :
    inTemplate workspace document outline offset position (word :: previous :: earlier) =
      some (identifiers workspace outline position (.replace word.range)) := by
  have hword : atWord workspace outline position (.replace word.range) (some previous.kind) =
      some (identifiers workspace outline position (.replace word.range)) := by
    unfold atWord
    split
    case h_1 hkind => exact absurd (Option.some.inj hkind) hopens
    case h_2 hkind | h_3 hkind =>
      rw [Option.some.inj hkind] at hselects
      cases hselects
    case h_4 => rfl
  rw [Template.TokenKind.isName, Bool.and_eq_true] at hname
  obtain ⟨hisWord, -⟩ := hname
  cases hkind : word.kind <;> rw [hkind] at hisWord <;> cases hisWord <;>
    simp [inTemplate, hkind, Template.TokenKind.isWord, hstop, hword]

section Reference

variable {source : Source} {reference : Reference}

/-- The name of a reference is offered as what it refers to, anywhere within the reference. -/
theorem offered_reference (workspace : Workspace) (edit : Edit)
    (hreference : reference ∈ (Outline.ofSource source).references)
    (hstart : reference.range.start < position) (hstop : position ≤ reference.range.stop)
    (hcompletable : reference.Completable source position) :
    ((identifiers workspace (Outline.ofSource source) position edit).filter
      (·.label == reference.text)).map (·.kind) =
      ((Analysis.resolve (Outline.ofSource source).scopes workspace.corpus.index workspace.corpus.family
        reference).offered reference.text).toList := by
  obtain ⟨state, tag, hread⟩ := Outline.exists_evaluatedAt hreference
  obtain ⟨_, _, word, _, _, _, hname, _, _, hafter⟩ := hread.exists_word
  -- The position is in the tag, so the names that the reference sees are those that are visible
  -- there.
  have hwithin : position < tag.after := by
    refine hafter position ?_ hcompletable.inside
    rwa [← hname] at hstop
  have hsame := hread.resolve_innermostAt (hcompletable.filter tag hread.mem) hstart.le hwithin
  rw [identifiers_labelled, Analysis.resolve, ← hsame]
  congr 1
  cases hresolve : (Outline.ofSource source).scopes.resolve
      ((Outline.ofSource source).scopes.innermostAt position) reference.text position with
  | some found =>
    obtain ⟨other, hvisible, hother, hbinding, hotherName, hbindingName, hfrom, hle⟩ :=
      ScopeTree.filter_visibleAt_of_some hresolve
    -- What is shown may be another declaration of the name, but one of the same kind.
    have hkind := Outline.kind_eq_of_visibleFrom source hcompletable.loop hother hbinding hotherName
      hbindingName hfrom (hfrom ▸ hle.trans_lt (hwithin.trans_le hread.within))
    rw [hvisible, List.head?_cons, Option.map_some, Option.some_or, hkind]
    rfl
  | none =>
    rw [ScopeTree.filter_visibleAt_of_none hresolve, List.head?_nil, Option.map_none, Option.none_or]
    cases workspace.corpus.index.latest? reference.text workspace.corpus.family with
    | some entry => rfl
    | none =>
      simp only [Option.map_none, Option.none_or]
      cases hbuiltin : Vocabulary.isBuiltin reference.text with
      | true => rfl
      | false =>
        rw [Vocabulary.isBuiltin, Bool.or_eq_false_iff] at hbuiltin
        rw [hbuiltin.1]
        rfl

/-- Within the word of a reference the variables are offered. -/
theorem at?_reference (workspace : Workspace) {document : Document}
    (hcontent : document.content = .template (.ofSource document.source))
    (hreference : reference ∈ (Outline.ofSource document.source).references)
    (hstart : reference.range.start < position) (hstop : position ≤ reference.range.stop) :
    ∃ edit, at? workspace document position =
      some (identifiers workspace (Outline.ofSource document.source) position edit) := by
  obtain ⟨state, tag, hread⟩ := Outline.exists_evaluatedAt hreference
  obtain ⟨before, previous, word, after, htokens, hname, hsame, hselects, hopens, _⟩ := hread.exists_word
  have hisWord : word.kind.isWord = true := by
    rw [Template.TokenKind.isName, Bool.and_eq_true] at hname
    exact hname.1
  have hkind : word.kind ≠ .endOfFile := by
    rintro hkind
    rw [hkind] at hisWord
    cases hisWord
  have hmem : word ∈ tokenize document.source.chars := by simp [htokens]
  have hpart : ∀ c ∈ word.text.toList, Template.Lexer.isNamePart c = true :=
    Template.Lexer.isNamePart_of_mem hmem hisWord
  have htokens : tokenize document.source.chars = (before ++ [previous]) ++ word :: after := by
    rw [htokens, List.append_assoc, List.singleton_append]
  obtain ⟨_, earlier, gap, later, htext, _, hplace, _⟩ :=
    (htokens ▸ Template.tokenize_layout document.source.chars).cut
  rw [← List.append_assoc, ← List.append_assoc] at htext
  rw [← Place.past_append] at hplace
  rw [← hsame] at hstart hstop
  have hfirst : word.start.position < position := hstart
  have hlast : position ≤ (word.start.past word.text.toList).position := hstop
  rw [hplace] at hfirst hlast
  -- A name holds no end of a line, so the offset of the position is where it should be.
  obtain ⟨offset, hoffset, hbefore, hbehind⟩ := Source.offsetAt_within htext
    (fun hline => absurd (hpart _ hline) (by decide))
    (fun hreturn => absurd (hpart _ hreturn) (by decide)) hfirst hlast
  rw [← hplace] at hbefore hbehind
  refine ⟨.replace word.range, ?_⟩
  rw [at?, hoffset, Option.bind_some, hcontent]
  have hcut := Template.filter_before htokens hkind hbefore hbehind
  have houtline : (Outline.ofSource document.source).tokens = tokenize document.source.chars := rfl
  simp only [houtline, hcut, List.reverse_append, List.reverse_singleton, List.singleton_append]
  exact inTemplate_word hname hselects hopens hbehind

end Reference

end Cursor.Completion

namespace Workspace

open Cursor (Completion)
open Host (DocumentId)

/-- The completion agrees with the resolution: wherever the two can see the same declarations, the name of
    a reference is offered once, as what the reference refers to, and not at all if it refers to nothing. -/
theorem complete?_agrees (settings : Settings) (hints : LinkHints) (operations : List Operation)
    (arrangement : Arrangement) {id : DocumentId} {filename : String} {document : Document}
    {outline : Template.Outline} {reference : Template.Reference} {position : Position}
    (hfind : (after settings hints operations arrangement).corpus.find? id filename = some document)
    (hcontent : document.content = .template outline) (hreference : reference ∈ outline.references)
    (hstart : reference.range.start < position) (hstop : position ≤ reference.range.stop)
    (hcompletable : reference.Completable document.source position) :
    let workspace := after settings hints operations arrangement
    ∃ items, workspace.complete? id filename position = some items ∧
      (items.filter (·.label == reference.text)).map (·.kind) =
        ((Analysis.resolve outline.scopes workspace.corpus.index workspace.corpus.family
          reference).offered reference.text).toList := by
  intro workspace
  have hholds := Holds.after settings hints operations arrangement
  have hread := hholds.coherent.content document (hholds.mem_stored_of_find? hfind)
  rw [hcontent] at hread
  have houtline : outline = .ofSource document.source := by
    cases hlanguage : Language.ofExtension document.extension with
    | template =>
      rw [hlanguage] at hread
      exact Content.template.inj hread
    | host language =>
      rw [hlanguage] at hread
      cases hread
  subst houtline
  obtain ⟨edit, hat⟩ := Completion.at?_reference workspace hcontent hreference hstart hstop
  refine ⟨_, ?_, Completion.offered_reference workspace edit hreference hstart hstop hcompletable⟩
  rw [complete?, hfind, Option.bind_some, hat]

/-- A template that declares a variable and uses it in the filter of a loop. -/
def setting : Upload :=
  { id := 1, filename := "page.html"
    text := "\x7b% set x = 1 %\x7d\x7b% for y in z if x %\x7d\x7b% endfor %\x7d"
    extension := "html" }

/-- A variable of the template is offered once in a filter, as a variable. -/
theorem setting_completed :
    ∃ items, (after {} {} [.add setting]).complete? 1 "page.html" { line := 0, character := 33 } =
        some items ∧ (items.filter (·.label == "x")).map (·.kind) = [.variable] := by
  let source : Source := { name := setting.filename, text := setting.text }
  let reference : Template.Reference :=
    { text := "x", range := { start := { line := 0, character := 32 }
                              stop := { line := 0, character := 33 } }, scope := 1 }
  obtain ⟨document, hfind, hcontent, hsource⟩ : ∃ document,
      (after {} {} [.add setting]).corpus.find? 1 "page.html" = some document ∧
      document.content = .template (.ofSource source) ∧ document.source = source := by
    refine ⟨Option.get ((after {} {} [.add setting]).corpus.find? 1 "page.html") ?_,
      (Option.some_get _).symm, ?_, ?_⟩ <;> decide +kernel
  have hreference : reference ∈ (Template.Outline.ofSource source).references := by decide +kernel
  have hcompletable : reference.Completable source { line := 0, character := 33 } :=
    ⟨by decide +kernel, by decide +kernel, fun hloop => absurd hloop (by decide)⟩
  obtain ⟨items, hitems, hkinds⟩ := complete?_agrees {} {} [.add setting] {} hfind hcontent hreference
    (by decide) (by decide) (hsource ▸ hcompletable)
  have hoffered : ((Analysis.resolve (Template.Outline.ofSource source).scopes
      (after {} {} [.add setting]).corpus.index (after {} {} [.add setting]).corpus.family
      reference).offered "x") = some .variable := by decide +kernel
  exact ⟨items, hitems, hkinds.trans (congrArg Option.toList hoffered)⟩

/-- A template with a loop that has a filter. -/
def filtering : Upload :=
  { id := 1, filename := "page.html", text := "\x7b% for x in xs if x %\x7d\x7b% endfor %\x7d"
    extension := "html" }

/-- The filter of a loop sees its targets, but they are not offered there: the scope of the loop
    begins behind the tag. -/
theorem filter_not_completed :
    let workspace := after {} {} [.add filtering]
    let outline := Template.Outline.ofSource { name := filtering.filename, text := filtering.text }
    (∃ reference ∈ outline.references, reference.text = "x" ∧
      reference.range = { start := { line := 0, character := 18 }
                          stop := { line := 0, character := 19 } } ∧
      ∃ binding, Analysis.resolve outline.scopes workspace.corpus.index workspace.corpus.family
        reference = .local binding) ∧
    (workspace.complete? 1 "page.html" { line := 0, character := 19 }).map (·.map (·.label)) =
      some Vocabulary.builtins := by
  intro workspace outline
  refine ⟨⟨⟨⟨"x", { start := { line := 0, character := 18 }
                    stop := { line := 0, character := 19 } }⟩, 1⟩, ?_, rfl, rfl,
    ⟨"x", .forLoopKey, { start := { line := 0, character := 7 }
                         stop := { line := 0, character := 8 } },
      { line := 0, character := 8 }, false⟩, ?_⟩, ?_⟩ <;> decide +kernel

end Workspace

end TemplateAnalysis
