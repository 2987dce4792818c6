import TemplateAnalysis.Proofs.Cursor.Edits
import TemplateAnalysis.Proofs.Template.NamedTemplates

namespace TemplateAnalysis

open Template (Outline Tag Token tokenize)

namespace Cursor.Completion

variable {document : Document}

/-- Completions go by the words with which the statements begin that name templates. -/
theorem namesTemplates_eq (kind : Template.TokenKind) :
    namesTemplates kind = (Template.templateStops? kind).isSome := by
  cases kind with
  | keyword word => cases word <;> rfl
  | _ => rfl

theorem kind_links (workspace : Workspace) (edit : Edit) :
    ∀ item ∈ links workspace edit, item.kind = .text := by
  simp only [links, List.forall_mem_map, kind_withEdit, implies_true]

/-- The head of a tag is found from any of its tokens. -/
theorem tagHead?_reverse {opening token : Token} {front earlier : List Token}
    (hopening : opening.kind.isTagBegin = true) (hfront : ∀ other ∈ front, other.kind.isTagBegin = false) :
    tagHead? token (front.reverse ++ opening :: earlier) =
      (front ++ [token]).head?.map (·.kind) := by
  cases front with
  | nil => simp [tagHead?, hopening]
  | cons word between =>
    obtain ⟨hword, hbetween⟩ := List.forall_mem_cons.mp hfront
    rw [List.reverse_cons, List.append_assoc, List.singleton_append,
      tagHead?_between hopening hword fun other hmem => hbetween other (List.mem_reverse.mp hmem)]
    rfl

variable {before : List Tag} {tag : Tag} {front : List Token} {string : Token} {offset : Nat}
  {position : Position}

/-- Within a literal of a template the completions are those of its tag. -/
theorem at?_string (workspace : Workspace)
    (hcontent : document.content = .template (.ofSource document.source))
    (hholds : tag.HoldsAt document.source before front string) (hstring : string.kind = .string)
    (hoffset : document.source.offsetAt position = some offset)
    (hstart : string.start.offset < offset) (hstop : offset < string.stop.offset) :
    ∃ earlier, tagHead? string earlier = tag.body.head?.map (·.kind) ∧
      at? workspace document position = inString workspace document string earlier offset := by
  obtain ⟨back, hbody⟩ := hholds.body
  obtain ⟨earlier, opening, later, hstands⟩ := Tag.exists_standsIn hholds.mem_tags
  have hopening : opening.kind.isTagBegin = true := by
    rw [hstands.opens]
    rfl
  have hfront : ∀ other ∈ front, other.kind.isTagBegin = false := by
    intro other hmem
    have hinside := hstands.inside other (hbody ▸ List.mem_append_left _ hmem)
    rw [Template.TokenKind.isInsideTag, Bool.not_eq_true', Bool.or_eq_false_iff] at hinside
    exact hinside.2
  have htokens : tokenize document.source.chars =
      (earlier ++ opening :: front) ++ string :: (back ++ later) := by
    rw [hstands.split, hbody]
    simp
  have hlast := Template.filter_before htokens (by simp [hstring]) hstart hstop.le
  have houtline : (Outline.ofSource document.source).tokens = tokenize document.source.chars := rfl
  refine ⟨front.reverse ++ opening :: earlier.reverse, ?_, ?_⟩
  · rw [tagHead?_reverse hopening hfront, hbody]
    simp [List.head?_append]
  · rw [at?, hoffset, Option.bind_some, hcontent]
    simp only [houtline]
    rw [hlast, List.reverse_append, List.reverse_singleton, List.singleton_append]
    simp [inTemplate, hstring, isInside_of_lt hstart hstop]

/-- In a literal the names of templates are offered if the head of its tag says so, and else they are not. -/
theorem at?_string_cases (workspace : Workspace)
    (hcontent : document.content = .template (.ofSource document.source))
    (hholds : tag.HoldsAt document.source before front string) (hstring : string.kind = .string)
    (hoffset : document.source.offsetAt position = some offset)
    (hstart : string.start.offset < offset) (hstop : offset < string.stop.offset) :
    (tag.NamesTemplates → ∃ edit, at? workspace document position = some (templates workspace document edit)) ∧
    (¬ tag.NamesTemplates → ∀ items, at? workspace document position = some items →
      ∀ item ∈ items, item.kind ≠ .file) := by
  obtain ⟨earlier, hhead, hat⟩ := at?_string workspace hcontent hholds hstring hoffset hstart hstop
  have hnames : (tagHead? string earlier).any namesTemplates = true ↔ tag.NamesTemplates := by
    rw [hhead, Option.any_map, Option.any_eq_true]
    simp only [namesTemplates_eq]
    rfl
  rw [hat, inString_eq]
  refine ⟨fun hnamed => ⟨_, if_pos (hnames.mpr hnamed)⟩, fun hnamed items hitems item hmem => ?_⟩
  rw [if_neg (mt hnames.mp hnamed)] at hitems
  split_ifs at hitems
  cases hitems
  rw [kind_links _ _ item hmem]
  simp

end Cursor.Completion

namespace Workspace

open Cursor (Completion)
open Host (DocumentId)

/-- The names of the other templates are offered at a position of a document. -/
def OffersTemplates (workspace : Workspace) (id : DocumentId) (filename : String) (position : Position)
    (document : Document) : Prop :=
  ∃ edit, workspace.complete? id filename position = some (Completion.templates workspace document edit)

/-- No name of a template is offered at a position of a document. -/
def OffersNoTemplate (workspace : Workspace) (id : DocumentId) (filename : String) (position : Position) :
    Prop :=
  ∀ items, workspace.complete? id filename position = some items → ∀ item ∈ items, item.kind ≠ .file

/-- How completions and records go together at a position within a literal, which stands behind other tokens
    of its tag. -/
structure AgreesOn (workspace : Workspace) (id : DocumentId) (filename : String) (position : Position)
    (document : Document) (outline : Outline) (before : List Tag) (tag : Tag) (front : List Token)
    (string : Token) : Prop where
  holds : tag.HoldsAt document.source before front string
  /-- A literal is recorded as the name of a template if it stands in a statement tag outside of raw parts, and
      the tokens before it lead to such a name. -/
  recorded : outline.Records string ↔ tag.form = .statement ∧ ¬ Outline.EndsInRawPart before ∧
    Template.LeadsToTemplate front
  /-- Where a name is recorded, names are offered. -/
  offered : outline.Records string → workspace.OffersTemplates id filename position document
  /-- In a statement tag outside of raw parts names are offered if the word at its head names templates. -/
  named : tag.form = .statement → ¬ Outline.EndsInRawPart before → tag.NamesTemplates →
    workspace.OffersTemplates id filename position document
  /-- With any other head no name is offered there. -/
  other : tag.form = .statement → ¬ Outline.EndsInRawPart before → ¬ tag.NamesTemplates →
    workspace.OffersNoTemplate id filename position

/-- Completions and records agree on the literals that name templates, in every workspace that can be reached,
    for every literal of a template and every offset strictly inside it. -/
theorem strings_agree (settings : Settings) (hints : LinkHints) (operations : List Operation)
    (arrangement : Arrangement) {id : DocumentId} {filename : String} {document : Document} {outline : Outline}
    {string : Token} {position : Position} {offset : Nat}
    (hfind : (after settings hints operations arrangement).corpus.find? id filename = some document)
    (hcontent : document.content = .template outline) (hmem : string ∈ outline.tokens)
    (hstring : string.kind = .string) (hoffset : document.source.offsetAt position = some offset)
    (hstart : string.start.offset < offset) (hstop : offset < string.stop.offset) :
    ∃ before tag front, (after settings hints operations arrangement).AgreesOn id filename position document
      outline before tag front string := by
  have hholds := Holds.after settings hints operations arrangement
  obtain rfl := hholds.outline_eq (hholds.mem_stored_of_find? hfind) hcontent
  obtain ⟨before, front, tag, hplaced⟩ := Template.exists_holdsAt hmem hstring
  have hrecords := hplaced.records_iff hstring
  obtain ⟨hnamed, hother⟩ := Completion.at?_string_cases
    (after settings hints operations arrangement) hcontent hplaced hstring hoffset hstart hstop
  have hcomplete : (after settings hints operations arrangement).complete? id filename position =
      Completion.at? (after settings hints operations arrangement) document position := by
    rw [complete?, hfind, Option.bind_some]
  rw [← hcomplete] at hnamed hother
  exact ⟨before, tag, front, hplaced, hrecords, fun hrecorded =>
    hnamed (hplaced.namesTemplates (hrecords.mp hrecorded).2.2), fun _ _ => hnamed, fun _ _ => hother⟩

/-- In a page that extends a layout, the name of the layout is recorded and templates are offered for it. -/
theorem layout_string_agrees : ∃ document outline string,
    (after templateSettings {} layoutUploads).corpus.find? 2 "/srv/page.html" = some document ∧
      document.content = .template outline ∧ string ∈ outline.tokens ∧ string.kind = .string ∧
      document.source.offsetAt { line := 0, character := 15 } = some 15 ∧
      string.start.offset < 15 ∧ 15 < string.stop.offset ∧
      (∃ before tag front, (after templateSettings {} layoutUploads).AgreesOn 2 "/srv/page.html"
        { line := 0, character := 15 } document outline before tag front string) ∧
      outline.Records string := by
  let source : Source := { name := "/srv/page.html", text := "\x7b% extends \"mail/base.html\" %\x7d" }
  let string : Token :=
    { kind := .string, start := { offset := 11, position := { character := 11 } }
      text := "\"mail/base.html\"" }
  obtain ⟨document, hfind, hcontent, hoffset⟩ : ∃ document,
      (after templateSettings {} layoutUploads).corpus.find? 2 "/srv/page.html" = some document ∧
      document.content = .template (.ofSource source) ∧
      document.source.offsetAt { line := 0, character := 15 } = some 15 := by
    refine ⟨Option.get ((after templateSettings {} layoutUploads).corpus.find? 2 "/srv/page.html") ?_,
      (Option.some_get _).symm, ?_, ?_⟩ <;> decide +kernel
  have hmem : string ∈ (Outline.ofSource source).tokens := by decide +kernel
  have hstart : string.start.offset < 15 := by decide
  have hstop : 15 < string.stop.offset := by decide
  exact ⟨document, .ofSource source, string, hfind, hcontent, hmem, rfl, hoffset, hstart, hstop,
    strings_agree templateSettings {} layoutUploads {} hfind hcontent hmem rfl hoffset hstart hstop,
    by decide +kernel⟩

/-- The names of templates are offered in a literal that is not recorded as one. -/
def OffersUnrecorded (workspace : Workspace) (id : DocumentId) (filename : String) (position : Position) :
    Prop :=
  ∃ document outline string offset, workspace.corpus.find? id filename = some document ∧
    document.content = .template outline ∧ string ∈ outline.tokens ∧ string.kind = .string ∧
    document.source.offsetAt position = some offset ∧ string.start.offset < offset ∧
    offset < string.stop.offset ∧
    (∃ edit, Completion.templates workspace document edit ≠ [] ∧
      workspace.complete? id filename position = some (Completion.templates workspace document edit)) ∧
    ¬ outline.Records string

/-- A template and a page beside it. -/
def pageUploads (text : String) : List Operation :=
  [.add { id := 1, filename := "/base.html", text := "", extension := "html" },
    .add { id := 2, filename := "/page.html", text, extension := "html" }]

/-- Completions look at the head of the tag only. So names of templates are offered behind a word that ends
    them, within raw parts, and in tags that are no statements. -/
theorem strings_disagree :
    (after {} {} (pageUploads "\x7b% include \"a.html\" ignore missing \"b\" %\x7d")).OffersUnrecorded 2
        "/page.html" { line := 0, character := 36 } ∧
      (after {} {} (pageUploads
        "\x7b% raw %\x7d\x7b% include \"a\" %\x7d\x7b% endraw %\x7d")).OffersUnrecorded 2
        "/page.html" { line := 0, character := 21 } ∧
      (after {} {} (pageUploads "\x7b\x7b include \"a\" \x7d\x7d")).OffersUnrecorded 2
        "/page.html" { line := 0, character := 12 } := by
  refine ⟨?_, ?_, ?_⟩
  · let text := "\x7b% include \"a.html\" ignore missing \"b\" %\x7d"
    let string : Token :=
      { kind := .string, start := { offset := 35, position := { character := 35 } }, text := "\"b\"" }
    refine ⟨Option.get ((after {} {} (pageUploads text)).corpus.find? 2 "/page.html") ?_,
      .ofSource { name := "/page.html", text }, string, 36, (Option.some_get _).symm, ?_, ?_, rfl, ?_, ?_, ?_,
      ⟨.insert (.empty { line := 0, character := 36 }), ?_, ?_⟩, ?_⟩ <;> decide +kernel
  · let text := "\x7b% raw %\x7d\x7b% include \"a\" %\x7d\x7b% endraw %\x7d"
    let string : Token :=
      { kind := .string, start := { offset := 20, position := { character := 20 } }, text := "\"a\"" }
    refine ⟨Option.get ((after {} {} (pageUploads text)).corpus.find? 2 "/page.html") ?_,
      .ofSource { name := "/page.html", text }, string, 21, (Option.some_get _).symm, ?_, ?_, rfl, ?_, ?_, ?_,
      ⟨.insert (.empty { line := 0, character := 21 }), ?_, ?_⟩, ?_⟩ <;> decide +kernel
  · let text := "\x7b\x7b include \"a\" \x7d\x7d"
    let string : Token :=
      { kind := .string, start := { offset := 11, position := { character := 11 } }, text := "\"a\"" }
    refine ⟨Option.get ((after {} {} (pageUploads text)).corpus.find? 2 "/page.html") ?_,
      .ofSource { name := "/page.html", text }, string, 12, (Option.some_get _).symm, ?_, ?_, rfl, ?_, ?_, ?_,
      ⟨.insert (.empty { line := 0, character := 12 }), ?_, ?_⟩, ?_⟩ <;> decide +kernel

end Workspace

end TemplateAnalysis
