import TemplateAnalysis.Corpus
import TemplateAnalysis.Proofs.Analysis
import TemplateAnalysis.Proofs.Host.Spelling
import TemplateAnalysis.Proofs.Template.Spelling

namespace TemplateAnalysis

namespace Template.Outline

variable {source : Source} {identifier : Identifier}

/-- What a template mentions is found at its range. -/
theorem spells_of_mem_mentions {name : Name}
    (hmem : name ∈ (ofSource source).mentions.references ∨
      name ∈ (ofSource source).mentions.templates ∨ name ∈ (ofSource source).mentions.links) :
    source.Spells name.range name.text := by
  obtain ⟨uses, _, hrecorded, hinTag⟩ := exists_recorded_inTag source
  rw [hrecorded.references, hrecorded.templates, hrecorded.links] at hmem
  rcases hmem with hmem | hmem | hmem
  all_goals
    obtain ⟨token, htoken, rfl⟩ := List.mem_map.mp hmem
    have htoken := hinTag _ (Use.mem_among.mp htoken)
  · exact htoken.spells
  · exact htoken.spells_content
  · exact htoken.spells_content

/-- A declaration that stands in the text is found at its range, apart from the variable that every loop
    has. -/
theorem spells_of_mem_bindings {binding : Binding} (hmem : binding ∈ (ofSource source).scopes.bindings)
    (hexplicit : binding.implicit = false) (hloop : binding.kind ≠ .forLoopCount) :
    source.Spells binding.range binding.name := by
  obtain ⟨id, hmem⟩ := (ScopeTree.mem_bindings _).mp hmem
  rcases origin_of_mem hmem with ⟨tag, htag, name, hname, hbinding⟩ | ⟨hkind, _⟩ | ⟨himplicit, _⟩
  · have htoken := (inTag_of_declaring htag hname).spells
    rw [hbinding]
    exact htoken
  · exact absurd hkind hloop
  · rw [hexplicit] at himplicit
    cases himplicit

end Template.Outline

open Template (Outline)

/-- The identifiers of a template are found at their ranges. -/
theorem Analysis.spells_of_mem {source : Source} {index : Host.Index} {family : Option HostLanguage}
    {identifier : Identifier}
    (hmem : identifier ∈ (ofOutline (Outline.ofSource source) index family).identifiers)
    (hloop : identifier.kind ≠ .forLoopCount) : source.Spells identifier.range identifier.name := by
  rcases List.mem_append.mp (Identifier.mem_of_mem_normalize hmem) with hmem | herror
  · rcases List.mem_append.mp hmem with hmem | hlink
    · rcases List.mem_append.mp hmem with hdeclaration | htemplate
      · obtain ⟨binding, hbinding, hexplicit, rfl⟩ := mem_declarations.mp hdeclaration
        exact Outline.spells_of_mem_bindings hbinding hexplicit hloop
      · exact Outline.spells_of_mem_mentions (.inr (.inl (List.mem_map_of_mem htemplate)))
    · exact Outline.spells_of_mem_mentions (.inr (.inr (List.mem_map_of_mem hlink)))
  · obtain ⟨error, hlisted, rfl⟩ := List.mem_map.mp herror
    obtain ⟨reference, hreference, _, _, rfl⟩ := mem_errorsOf.mp hlisted
    exact Outline.spells_of_mem_mentions (.inl (List.mem_map_of_mem hreference))

/-- The range of each identifier of a document, a template or a program, covers the name of the identifier
    in the text. Of a name that ends in a carriage return at the end of a line the end is found one
    character too early. Only the variable that every loop has stands for a word of another name. -/
theorem Corpus.resolve_spells (corpus : Corpus) {document : Document} {language : Language}
    (hread : document.content = .ofSource language document.source) {identifier : Identifier}
    (hmem : identifier ∈ (corpus.resolve document).identifiers)
    (hloop : identifier.kind ≠ .forLoopCount) :
    document.source.Spells identifier.range identifier.name := by
  cases language with
  | template =>
    rw [Corpus.resolve, hread] at hmem
    exact Analysis.spells_of_mem hmem hloop
  | host language =>
    rw [Corpus.resolve, hread] at hmem
    exact Host.spells_of_mem_scan hmem

/-- A literal of several lines in a program. -/
theorem Corpus.resolve_spells_program :
    let source : Source := { name := "page.py", text := "get_template(\n  r'''a\r\n''')" }
    let document : Document :=
      { id := 1, source, extension := "py", revision := 1, content := .ofSource (.host .python) source }
    let identifier : Identifier :=
      { range := ⟨⟨1, 6⟩, ⟨2, 0⟩⟩, name := "a\r\n", kind := .templateRef }
    document.content = .ofSource (.host .python) document.source ∧
      identifier ∈ (({} : Corpus).resolve document).identifiers ∧
      identifier.kind ≠ .forLoopCount ∧ source.Spells identifier.range identifier.name := by
  intro source document identifier
  have hread : document.content = .ofSource (.host .python) document.source := rfl
  have hmem : identifier ∈ (({} : Corpus).resolve document).identifiers :=
    Identifier.mem_normalize (by decide +kernel) (by decide +kernel)
  exact ⟨hread, hmem, by decide, Corpus.resolve_spells {} hread hmem (by decide)⟩

/-- A literal that is not finished takes in the carriage return at the end of its line, and the offset
    before it is found for the end. -/
theorem Corpus.unfinished_literal_cut :
    let source : Source := { name := "page.html", text := "\x7b% include \"a\r\n %\x7d" }
    let document : Document :=
      { id := 1, source, extension := "html", revision := 1, content := .ofSource .template source }
    let identifier : Identifier :=
      { range := ⟨⟨0, 12⟩, ⟨0, 14⟩⟩, name := "a\r", kind := .templateRef }
    identifier ∈ (({} : Corpus).resolve document).identifiers ∧
      source.offsetAt identifier.range.start = some 12 ∧
      source.offsetAt identifier.range.stop = some 13 ∧
      Text.slice? 12 13 source.chars = some "a".toList := by
  intro source document identifier
  have hmem : identifier ∈ (({} : Corpus).resolve document).identifiers :=
    Identifier.mem_normalize (by decide +kernel) (by decide +kernel)
  exact ⟨hmem, by decide +kernel, by decide +kernel, by decide +kernel⟩

end TemplateAnalysis
