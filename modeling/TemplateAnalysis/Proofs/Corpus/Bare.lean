import TemplateAnalysis.Proofs.Corpus.Lookup

namespace TemplateAnalysis

/-- The declaration without the number of its write. -/
def Host.Entry.bare (entry : Host.Entry) : Host.Entry :=
  { entry with revision := 0 }

/-- The resolution without numbers of writes. -/
def Resolution.bare : Resolution → Resolution
  | .host entry => .host entry.bare
  | resolution => resolution

/-- The resolved reference without numbers of writes. -/
def ResolvedReference.bare (resolved : ResolvedReference) : ResolvedReference :=
  { resolved with resolution := resolved.resolution.bare }

/-- The analysis without numbers of writes. -/
def Analysis.bare (analysis : Analysis) : Analysis :=
  { analysis with references := analysis.references.map ResolvedReference.bare }

/-- The document without the number of its write and without the analysis that it keeps. -/
def Document.bare (document : Document) : Document :=
  { document with revision := 0, cache := none }

/-- Whether a document is a program. -/
def Upload.isProgram (upload : Upload) : Bool :=
  Language.ofExtension upload.extension != .template

/-- The document that is read from what a client hands in. -/
def Upload.document (upload : Upload) : Document :=
  let source : Source := { name := upload.filename, text := upload.text }
  { id := upload.id, source, extension := upload.extension, revision := 0
    content := .ofSource (.ofExtension upload.extension) source }

theorem Document.eq_of_bare {first second : Document} (hbare : first.bare = second.bare) :
    first.id = second.id ∧ first.source = second.source ∧ first.content = second.content := by
  obtain ⟨hid, hsource, _, _, hcontent, _⟩ := Document.mk.injEq .. ▸ hbare
  exact ⟨hid, hsource, hcontent⟩

theorem Document.filename_eq_of_bare {first second : Document} (hbare : first.bare = second.bare) :
    first.filename = second.filename :=
  congrArg Source.name (Document.eq_of_bare hbare).2.1

theorem Document.declarations_bare (document : Document) (name : String)
    (family : Option HostLanguage) : (document.declarations name family).map Host.Entry.bare =
      document.bare.declarations name family := by
  unfold Document.declarations
  cases hcontent : document.content with
  | template outline => simp [Document.bare, hcontent]
  | program language identifiers =>
    simp only [Document.bare, hcontent]
    split
    · rw [List.map_map]
      rfl
    · rfl

/-- Templates declare no variables for other documents. -/
theorem Upload.declarations_eq_nil {upload : Upload} (htemplate : upload.isProgram = false)
    (name : String) (family : Option HostLanguage) :
    upload.document.declarations name family = [] := by
  rw [Upload.isProgram, bne_eq_false_iff_eq] at htemplate
  rw [Document.declarations, Upload.document, htemplate]
  rfl

namespace Corpus.Coherent

variable {family : Option HostLanguage} {corpus : Corpus} {uploads : List Upload}

/-- The stored documents are those that were handed in. -/
theorem bare_stored (hcoherent : Coherent family uploads corpus) :
    corpus.stored.map Document.bare = uploads.map Upload.document := by
  rw [← hcoherent.uploads, List.map_map]
  refine List.map_congr_left fun document hmem => ?_
  rw [Function.comp_apply, Document.bare, hcoherent.content document hmem]
  rfl

/-- A look-up depends on the programs only, and on the order in which they were written last. -/
theorem bare_lookup (hcoherent : Coherent family uploads corpus) (name : String)
    (language : Option HostLanguage) :
    (corpus.index.lookup name language).map Host.Entry.bare =
      (uploads.filter Upload.isProgram).reverse.flatMap
        (·.document.declarations name language) := by
  have hflat : ∀ documents : List Document,
      (documents.flatMap (Document.declarations name language)).map Host.Entry.bare =
        (documents.map Document.bare).flatMap (Document.declarations name language) := by
    intro documents
    rw [List.map_flatMap, List.flatMap_map]
    exact List.flatMap_congr fun document _ => document.declarations_bare name language
  rw [hcoherent.lookup, hflat, List.map_reverse, hcoherent.bare_stored, ← List.map_reverse,
    List.flatMap_map, ← List.filter_reverse]
  induction uploads.reverse with
  | nil => rfl
  | cons upload rest ih =>
    cases hprogram : upload.isProgram with
    | true => rw [List.filter_cons_of_pos hprogram, List.flatMap_cons, List.flatMap_cons, ih]
    | false =>
      rw [List.filter_cons_of_neg (by simp [hprogram]), List.flatMap_cons, ih,
        Upload.declarations_eq_nil hprogram, List.nil_append]

end Corpus.Coherent

namespace Analysis

variable {outline : Template.Outline} {first second : Host.Index} {family : Option HostLanguage}

theorem errorOf?_bare (resolved : ResolvedReference) : errorOf? resolved.bare = errorOf? resolved := by
  obtain ⟨reference, resolution⟩ := resolved
  cases resolution <;> rfl

/-- Two indexes that know the same declarations make the same of a reference. -/
theorem resolve_bare (hlatest : ∀ name, (first.latest? name family).map Host.Entry.bare =
      (second.latest? name family).map Host.Entry.bare)
    (scopes : ScopeTree) (reference : Template.Reference) :
    (resolve scopes first family reference).bare = (resolve scopes second family reference).bare := by
  unfold resolve
  cases scopes.resolve reference.scope reference.text reference.range.start with
  | some found => rfl
  | none =>
    have hsame := hlatest reference.text
    cases hfirst : first.latest? reference.text family with
    | none =>
      rw [hfirst, Option.map_none, eq_comm, Option.map_eq_none_iff] at hsame
      rw [hsame]
    | some entry =>
      rw [hfirst, Option.map_some, eq_comm, Option.map_eq_some_iff] at hsame
      obtain ⟨other, hsecond, hbare⟩ := hsame
      rw [hsecond]
      exact congrArg Resolution.host hbare.symm

/-- Two indexes that know the same declarations make the same of a template. -/
theorem ofOutline_bare (hlatest : ∀ name, (first.latest? name family).map Host.Entry.bare =
      (second.latest? name family).map Host.Entry.bare) :
    (ofOutline outline first family).bare = (ofOutline outline second family).bare := by
  have hreferences : (ofOutline outline first family).references.map ResolvedReference.bare =
      (ofOutline outline second family).references.map ResolvedReference.bare := by
    simp only [ofOutline, List.map_map]
    refine List.map_congr_left fun reference _ => ?_
    exact congrArg (ResolvedReference.mk reference) (resolve_bare hlatest outline.scopes reference)
  have herrors : (ofOutline outline first family).errors = (ofOutline outline second family).errors := by
    have hbare : ∀ references : List ResolvedReference, references.filterMap errorOf? =
        (references.map ResolvedReference.bare).filterMap errorOf? := by
      intro references
      rw [List.filterMap_map]
      exact List.filterMap_congr fun resolved _ => (errorOf?_bare resolved).symm
    exact (hbare _).trans ((congrArg (List.filterMap errorOf?) hreferences).trans (hbare _).symm)
  simp only [bare, Analysis.mk.injEq]
  refine ⟨?_, hreferences, herrors⟩
  exact congrArg (fun errors => Identifier.normalize (declarations outline.scopes ++
    outline.templates ++ outline.links ++ errors.map identifierOf)) herrors

end Analysis

end TemplateAnalysis
