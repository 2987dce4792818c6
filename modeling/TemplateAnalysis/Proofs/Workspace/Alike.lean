import TemplateAnalysis.Proofs.Corpus.Arrangement
import TemplateAnalysis.Proofs.Workspace.History

namespace TemplateAnalysis.Workspace

open Host (DocumentId)
open Cursor (Completion Hover Location Target)

/-- Two workspaces that differ in the order of the documents only, up to the numbers of writes and the
    analyses that are kept. Each document can be found by its number and by its name. -/
structure Alike (first second : Workspace) : Prop where
  settings : first.settings = second.settings
  hints : first.hints = second.hints
  family : first.corpus.family = second.corpus.family
  stored : (first.corpus.stored.map Document.bare).Perm (second.corpus.stored.map Document.bare)
  document? : ∀ id, (first.corpus.document? id).map Document.bare =
    (second.corpus.document? id).map Document.bare
  documentNamed? : ∀ filename, (first.corpus.documentNamed? filename).map Document.bare =
    (second.corpus.documentNamed? filename).map Document.bare
  lookup : ∀ name family, (first.corpus.index.lookup name family).map Host.Entry.bare =
    (second.corpus.index.lookup name family).map Host.Entry.bare

namespace Alike

variable {settings : Settings} {hints : LinkHints} {uploads others : List Upload}
  {first second : Workspace}

/-- A document that is found in one of two workspaces is found in the other one. -/
theorem map_bare_eq {found other : Option Document}
    {stored stored' : List Document} {P : Document → Prop}
    (hperm : (stored.map Document.bare).Perm (stored'.map Document.bare))
    (hP : ∀ document document' : Document, document.bare = document'.bare →
      (P document ↔ P document'))
    (hfound : ∀ document, found = some document ↔ document ∈ stored ∧ P document)
    (hother : ∀ document, other = some document ↔ document ∈ stored' ∧ P document) :
    found.map Document.bare = other.map Document.bare := by
  have hmatch : ∀ {stored stored' : List Document} {found other : Option Document},
      (stored.map Document.bare).Perm (stored'.map Document.bare) →
      (∀ document, found = some document ↔ document ∈ stored ∧ P document) →
      (∀ document, other = some document ↔ document ∈ stored' ∧ P document) →
      ∀ document, found = some document → ∃ document', other = some document' ∧
        document'.bare = document.bare := by
    intro stored stored' found other hperm hfound hother document hsome
    obtain ⟨hmem, hdocument⟩ := (hfound document).mp hsome
    have hbare := hperm.subset (List.mem_map_of_mem hmem)
    obtain ⟨document', hmem', hsame⟩ := List.mem_map.mp hbare
    exact ⟨document', (hother document').mpr ⟨hmem', (hP document' document hsame).mpr hdocument⟩,
      hsame⟩
  cases hfirst : found with
  | some document =>
    obtain ⟨document', hsecond, hsame⟩ := hmatch hperm hfound hother document hfirst
    rw [hsecond, Option.map_some, Option.map_some, hsame]
  | none =>
    cases hsecond : other with
    | none => rfl
    | some document =>
      obtain ⟨document', hsome, _⟩ := hmatch hperm.symm hother hfound document hsecond
      rw [hfirst] at hsome
      cases hsome

/-- Workspaces that hold the same documents are alike, whatever the order of the templates. -/
theorem of_holds (hfirst : Holds settings hints uploads first)
    (hsecond : Holds settings hints others second) (hperm : uploads.Perm others)
    (hprograms : uploads.filter Upload.isProgram = others.filter Upload.isProgram) :
    Alike first second := by
  have hstored : (first.corpus.stored.map Document.bare).Perm
      (second.corpus.stored.map Document.bare) := by
    rw [hfirst.coherent.bare_stored, hsecond.coherent.bare_stored]
    exact hperm.map Upload.document
  exact {
    settings := by rw [hfirst.settings, hsecond.settings]
    hints := by rw [hfirst.hints, hsecond.hints]
    family := by rw [hfirst.coherent.family, hsecond.coherent.family]
    stored := hstored
    document? id := by
      refine map_bare_eq (P := fun document => document.id = id) hstored ?_
        (fun document => hfirst.coherent.document?_eq_some_iff)
        (fun document => hsecond.coherent.document?_eq_some_iff)
      intro document document' hbare
      rw [(Document.eq_of_bare hbare).1]
    documentNamed? filename := by
      refine map_bare_eq (P := fun document => document.filename = filename) hstored ?_
        (fun document => hfirst.coherent.documentNamed?_eq_some_iff)
        (fun document => hsecond.coherent.documentNamed?_eq_some_iff)
      intro document document' hbare
      rw [Document.filename_eq_of_bare hbare]
    lookup name family := by
      rw [hfirst.coherent.bare_lookup, hsecond.coherent.bare_lookup, hprograms] }

/-- Both workspaces have the same documents, in whatever order they come. -/
theorem listed (halike : Alike first second) :
    (first.corpus.listed.map Document.bare).Perm (second.corpus.listed.map Document.bare) :=
  ((first.corpus.listed_perm.map _).trans halike.stored).trans (second.corpus.listed_perm.map _).symm

/-- Both workspaces show the same of the documents that are picked out, as long as neither the choice nor
    what is shown depends on the numbers of writes and on the analyses that are kept. -/
theorem map_filter_listed {β : Type} (halike : Alike first second) (keep : Document → Bool)
    (view : Document → β) (hkeep : ∀ document, keep document.bare = keep document)
    (hview : ∀ document, view document.bare = view document) :
    ((first.corpus.listed.filter keep).map view).Perm ((second.corpus.listed.filter keep).map view) := by
  have hbare : ∀ documents : List Document, (documents.filter keep).map view =
      ((documents.map Document.bare).filter keep).map view := by
    intro documents
    rw [List.filter_map, List.map_map, show keep ∘ Document.bare = keep from funext hkeep,
      show view ∘ Document.bare = view from funext hview]
  rw [hbare first.corpus.listed, hbare second.corpus.listed]
  exact (halike.listed.filter keep).map view

theorem latest? (halike : Alike first second) (name : String) (family : Option HostLanguage) :
    (first.corpus.index.latest? name family).map Host.Entry.bare =
      (second.corpus.index.latest? name family).map Host.Entry.bare := by
  rw [Host.Index.latest?, Host.Index.latest?, ← List.head?_map, ← List.head?_map,
    halike.lookup name family]

theorem find? (halike : Alike first second) (id : DocumentId) (filename : String) :
    (first.corpus.find? id filename).map Document.bare =
      (second.corpus.find? id filename).map Document.bare := by
  simp only [Corpus.find?, Option.map_or, halike.document? id, halike.documentNamed? filename]

theorem documentForKey? (halike : Alike first second) (key : String) :
    (first.corpus.documentForKey? key).map Document.bare =
      (second.corpus.documentForKey? key).map Document.bare := by
  unfold Corpus.documentForKey?
  split
  · exact halike.document? _
  · exact halike.documentNamed? key

/-- Both workspaces make the same of a document. -/
theorem resolve (halike : Alike first second) {document document' : Document}
    (hbare : document.bare = document'.bare) :
    (first.corpus.resolve document).bare = (second.corpus.resolve document').bare := by
  unfold Corpus.resolve
  rw [(Document.eq_of_bare hbare).2.2, halike.family]
  cases document'.content with
  | template outline => exact Analysis.ofOutline_bare fun name => halike.latest? name _
  | program language identifiers => rfl

/-- Both workspaces know the same names. -/
theorem names (halike : Alike first second) (family : Option HostLanguage) :
    (first.corpus.index.names family).map (·.1) = (second.corpus.index.names family).map (·.1) := by
  have hfirst := Host.Index.names_pairwise first.corpus.index family
  have hsecond := Host.Index.names_pairwise second.corpus.index family
  have hperm : ((first.corpus.index.names family).map (·.1)).Perm
      ((second.corpus.index.names family).map (·.1)) := by
    refine (List.perm_ext_iff_of_nodup (hfirst.imp Std.ne_of_lt) (hsecond.imp Std.ne_of_lt)).mpr
      fun name => ?_
    have hsome := congrArg Option.isSome (halike.latest? name family)
    rw [Option.isSome_map, Option.isSome_map] at hsome
    rw [Host.Index.mem_map_names, Host.Index.mem_map_names, hsome]
  exact hperm.eq_of_pairwise (fun _ _ _ _ hlt hgt => absurd hgt (Std.not_gt_of_lt hlt)) hfirst hsecond

end Alike

end TemplateAnalysis.Workspace
