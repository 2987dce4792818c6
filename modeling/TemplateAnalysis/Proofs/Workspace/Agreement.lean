import TemplateAnalysis.Proofs.Analysis
import TemplateAnalysis.Proofs.Corpus.Lookup
import TemplateAnalysis.Proofs.Workspace.History

namespace TemplateAnalysis.Workspace

open Template (Reference)

/-- Whether a list of identifiers reports a reference: one of them has its name and its range. -/
def Reports (identifiers : List Identifier) (reference : Reference) : Prop :=
  ∃ identifier ∈ identifiers,
    identifier.range = reference.range ∧ identifier.name = reference.text

/-- The tables of a workspace agree with one another and with the documents that it should hold. -/
structure Agrees (settings : Settings) (uploads : List Upload) (workspace : Workspace) : Prop where
  /-- The documents are the given ones, in the order in which they were written last. -/
  stored : workspace.corpus.stored.map Document.upload = uploads
  /-- Exactly the stored documents can be found by their numbers. -/
  document? : ∀ id document, workspace.corpus.document? id = some document ↔
    document ∈ workspace.corpus.stored ∧ document.id = id
  /-- Names and documents are inverse to each other. -/
  byName : ∀ filename id, workspace.corpus.byName.get? filename = some id ↔
    ∃ document, workspace.corpus.document? id = some document ∧ document.filename = filename
  /-- No two documents have the same name. -/
  filenames : ∀ first ∈ workspace.corpus.stored, ∀ second ∈ workspace.corpus.stored,
    first.filename = second.filename → first = second
  /-- A look-up finds the declarations of the stored programs, of the one that was written last
      first, and in the order of the text within a program. -/
  lookup : ∀ name family, workspace.corpus.index.lookup name family =
    workspace.corpus.stored.reverse.flatMap (Document.declarations name family)
  /-- The declared names come in order, each of them once. -/
  names_pairwise : ∀ family, ((workspace.corpus.index.names family).map (·.1)).Pairwise (· < ·)
  /-- A name is declared if a look-up finds something, and the first declaration counts. -/
  mem_names : ∀ family name entry, (name, entry) ∈ workspace.corpus.index.names family ↔
    (workspace.corpus.index.lookup name family).head? = some entry
  /-- The references that are reported as undefined are those that no binding around them, no stored
      program of the language of the workspace and no builtin declares. -/
  undefined : ∀ filename document outline,
    workspace.corpus.documentNamed? filename = some document →
    document.content = .template outline →
    ∃ identifiers, (workspace.undefined? filename).1 = some identifiers ∧
      (∀ reference ∈ outline.references, Reports identifiers reference ↔
        outline.scopes.resolve reference.scope reference.text reference.range.start = none ∧
        (∀ program ∈ workspace.corpus.stored,
          program.declarations reference.text settings.language = []) ∧
        Vocabulary.isBuiltin reference.text = false) ∧
      ∀ identifier ∈ identifiers, ∃ reference ∈ outline.references,
        identifier.range = reference.range ∧ identifier.name = reference.text

namespace Holds

variable {settings : Settings} {hints : LinkHints} {uploads : List Upload} {workspace : Workspace}

/-- A template is the outline of its own text. -/
theorem outline_eq (hholds : Holds settings hints uploads workspace) {document : Document}
    {outline : Template.Outline} (hmem : document ∈ workspace.corpus.stored)
    (hcontent : document.content = .template outline) : outline = .ofSource document.source := by
  have hread := hholds.coherent.content document hmem
  rw [hcontent] at hread
  cases hlanguage : Language.ofExtension document.extension with
  | template =>
    rw [hlanguage] at hread
    exact Content.template.inj hread
  | host language =>
    rw [hlanguage] at hread
    cases hread

/-- The undefined variables of a template are told by what the present variables make of it. -/
theorem undefined?_eq (hholds : Holds settings hints uploads workspace) {filename : String}
    {document : Document} {source : Source}
    (hname : workspace.corpus.documentNamed? filename = some document)
    (hcontent : document.content = .template (.ofSource source)) :
    (workspace.undefined? filename).1 =
      some ((Analysis.ofOutline (.ofSource source) workspace.corpus.index
        workspace.corpus.family).identifiers.filter (·.kind == .undefinedVariable)) := by
  have hstored : ∀ document, workspace.corpus.documentNamed? filename = some document →
      document ∈ workspace.corpus.stored := fun _ => hholds.mem_stored_of_documentNamed?
  have hasked := (hholds.ask hstored fun _ analysis =>
    some (analysis.identifiers.filter (·.kind == .undefinedVariable))).1
  rw [hname, Option.bind_some, Corpus.resolve, hcontent] at hasked
  rw [← hasked, ← hname]
  rfl

/-- A reference is reported if and only if it has no declaration, because no other reference has its
    range. -/
theorem reports_iff {source : Source} {index : Host.Index} {family : Option HostLanguage}
    {reference : Reference} (hreference : reference ∈ (Template.Outline.ofSource source).references) :
    Reports ((Analysis.ofOutline (.ofSource source) index family).identifiers.filter
        (·.kind == .undefinedVariable)) reference ↔
      ∃ reason, Analysis.resolve (Template.Outline.ofSource source).scopes index family reference =
        .unresolved reason := by
  constructor
  · rintro ⟨identifier, hidentifier, hrange, _⟩
    obtain ⟨hfound, hkind⟩ := List.mem_filter.mp hidentifier
    obtain ⟨other, hother, reason, hreason, rfl⟩ :=
      Analysis.mem_undefined_iff.mp ⟨hfound, beq_iff_eq.mp hkind⟩
    -- No two references have one range, so the identifier is about this reference.
    obtain rfl := Template.Outline.reference_eq_of_range hother hreference hrange
    exact ⟨reason, hreason⟩
  · rintro ⟨reason, hreason⟩
    obtain ⟨hfound, hkind⟩ :=
      Analysis.mem_undefined_iff.mpr ⟨reference, hreference, reason, hreason, rfl⟩
    exact ⟨_, List.mem_filter.mpr ⟨hfound, beq_iff_eq.mpr hkind⟩, rfl, rfl⟩

theorem agrees (hholds : Holds settings hints uploads workspace) :
    workspace.Agrees settings uploads := by
  have hcoherent := hholds.coherent
  exact {
    stored := hcoherent.uploads
    document? id document := hcoherent.document?_eq_some_iff
    byName filename id := by
      rw [hcoherent.byName]
      refine exists_congr fun document => ?_
      rw [hcoherent.document?_eq_some_iff, and_assoc, and_comm (a := document.filename = filename)]
    filenames first hfirst second hsecond := hcoherent.eq_of_filename hfirst hsecond
    lookup := hcoherent.lookup
    names_pairwise := Host.Index.names_pairwise workspace.corpus.index
    mem_names family name entry := Host.Index.mem_names
    undefined filename document outline hname hcontent := by
      have hmem := hholds.mem_stored_of_documentNamed? hname
      obtain rfl := hholds.outline_eq hmem hcontent
      refine ⟨_, hholds.undefined?_eq hname hcontent, ?_, ?_⟩
      · intro reference hreference
        rw [reports_iff hreference, Analysis.resolve_unresolved_iff,
          hcoherent.latest?_eq_none_iff, hcoherent.family]
      · intro identifier hidentifier
        obtain ⟨hfound, hkind⟩ := List.mem_filter.mp hidentifier
        obtain ⟨reference, hreference, _, _, rfl⟩ :=
          Analysis.mem_undefined_iff.mp ⟨hfound, beq_iff_eq.mp hkind⟩
        exact ⟨reference, hreference, rfl, rfl⟩ }

end Holds

/-- The tables of a workspace agree, whatever has happened to it. -/
theorem agrees_after (settings : Settings) (hints : LinkHints) (operations : List Operation)
    (arrangement : Arrangement) :
    (after settings hints operations arrangement).Agrees settings (survivors operations) :=
  (Holds.after settings hints operations arrangement).agrees

end TemplateAnalysis.Workspace
