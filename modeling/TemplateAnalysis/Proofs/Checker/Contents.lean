import TemplateAnalysis.Proofs.Checker.Loading
import TemplateAnalysis.Proofs.Workspace.Agreement

namespace TemplateAnalysis

section Declaring

variable {first second : Host.Index} {family : Option HostLanguage}

/-- What is undefined in a template depends on which names are declared, and not on where. -/
theorem Analysis.identifiers_congr
    (hnone : ∀ name, first.latest? name family = none ↔ second.latest? name family = none)
    (outline : Template.Outline) :
    (ofOutline outline first family).identifiers = (ofOutline outline second family).identifiers := by
  have herror : ∀ reference : Template.Reference,
      errorOf? ⟨reference, resolve outline.scopes first family reference⟩ =
        errorOf? ⟨reference, resolve outline.scopes second family reference⟩ := by
    intro reference
    have hsame := hnone reference.text
    unfold resolve
    cases outline.scopes.resolve reference.scope reference.text reference.range.start with
    | some found => rfl
    | none =>
      cases hfirst : first.latest? reference.text family with
      | none => rw [hsame.mp hfirst]
      | some entry =>
        cases hsecond : second.latest? reference.text family with
        | none =>
          rw [hsame.mpr hsecond] at hfirst
          cases hfirst
        | some other => rfl
  have herrors : (ofOutline outline first family).errors = (ofOutline outline second family).errors := by
    simp only [ofOutline, List.filterMap_map]
    exact List.filterMap_congr fun reference _ => herror reference
  exact congrArg (fun errors => Identifier.normalize (declarations outline.scopes ++
    outline.templates ++ outline.links ++ errors.map identifierOf)) herrors

end Declaring

/-- What a checker writes into the workspace for a file that it has read. -/
def Upload.ofSource (id : Nat) (source : Source) : Upload :=
  { id, filename := source.name, text := source.text
    extension := (Path.extension? source.name).getD "" }

/-- What is read out of a file, according to its name. -/
def Source.content (source : Source) : Content :=
  .ofSource (.ofExtension ((Path.extension? source.name).getD "")) source

namespace Checker

/-- The workspace holds exactly the files with some names, as the table has read them. -/
structure Contains (settings : Settings) (table : SourceTable) (names : List String)
    (uploads : List Upload) (workspace : Workspace) : Prop where
  holds : workspace.Holds settings {} uploads
  sound : ∀ upload ∈ uploads, ∃ source, table.sources[upload.id]? = some source ∧
    source.name ∈ names ∧ upload = .ofSource upload.id source
  complete : ∀ name ∈ names, ∃ upload ∈ uploads, upload.filename = name

namespace Contains

variable {settings : Settings} {tree : FileTree} {table later : SourceTable} {names : List String}
  {uploads : List Upload} {workspace : Workspace}

theorem initial (settings : Settings) (table : SourceTable) :
    Contains settings table [] [] (.ofSettings settings) :=
  ⟨.initial settings {} {}, List.forall_mem_nil _, List.forall_mem_nil _⟩

theorem mono (hcontains : Contains settings table names uploads workspace)
    (hgrows : table.Grows later) : Contains settings later names uploads workspace where
  holds := hcontains.holds
  sound upload hmem := by
    obtain ⟨source, hsource, hrest⟩ := hcontains.sound upload hmem
    exact ⟨source, hgrows _ _ hsource, hrest⟩
  complete := hcontains.complete

theorem congr {others : List String} (hcontains : Contains settings table names uploads workspace)
    (hsame : ∀ name, name ∈ others ↔ name ∈ names) :
    Contains settings table others uploads workspace where
  holds := hcontains.holds
  sound upload hmem := by
    obtain ⟨source, hsource, hname, hupload⟩ := hcontains.sound upload hmem
    exact ⟨source, hsource, (hsame source.name).mpr hname, hupload⟩
  complete name hname := hcontains.complete name ((hsame name).mp hname)

/-- A file that is written takes the place of itself at most. -/
theorem addSource (hcontains : Contains settings table names uploads workspace) {id : Nat}
    {source : Source} (hsource : table.sources[id]? = some source) :
    Contains settings table (names ++ [source.name])
      (survive uploads (.add (.ofSource id source))) (addSource table workspace id) where
  holds := by
    rw [Checker.addSource, hsource]
    exact hcontains.holds.perform (.add (.ofSource id source))
  sound := by
    refine List.forall_mem_append.mpr ⟨fun upload hmem => ?_, ?_⟩
    · obtain ⟨found, hfound, hname, hupload⟩ := hcontains.sound upload (List.mem_filter.mp hmem).1
      exact ⟨found, hfound, List.mem_append_left _ hname, hupload⟩
    · rw [List.forall_mem_singleton]
      exact ⟨source, hsource, List.mem_append_right _ (List.mem_singleton_self _), rfl⟩
  complete := by
    have hlast : Upload.ofSource id source ∈ survive uploads (.add (.ofSource id source)) :=
      List.mem_append_right _ (List.mem_singleton_self _)
    refine List.forall_mem_append.mpr ⟨fun name hname => ?_, ?_⟩
    · obtain ⟨upload, hmem, hfilename⟩ := hcontains.complete name hname
      by_cases hreplaced : (Upload.ofSource id source).replaces upload = true
      · refine ⟨_, hlast, ?_⟩
        rw [Upload.replaces, Bool.or_eq_true, beq_iff_eq, beq_iff_eq] at hreplaced
        rcases hreplaced with hid | hsame
        · obtain ⟨found, hfound, _, hupload⟩ := hcontains.sound upload hmem
          obtain rfl : id = upload.id := hid.symm
          obtain rfl := Option.some.inj (hfound.symm.trans hsource)
          rw [← hfilename, hupload]
          rfl
        · rw [← hsame, hfilename]
      · exact ⟨upload, List.mem_append_left _ (List.mem_filter.mpr ⟨hmem, by simpa using hreplaced⟩),
          hfilename⟩
    · rw [List.forall_mem_singleton]
      exact ⟨_, hlast, rfl⟩

theorem foldl (hcontains : Contains settings table names uploads workspace)
    {loaded : List (Nat × Language)}
    (hloaded : ∀ number ∈ loaded, ∃ source, table.sources[number.1]? = some source) :
    ∃ written, Contains settings table
      (names ++ table.namesOf (loaded.map (·.1))) written
      (loaded.foldl (fun workspace (id, _) => Checker.addSource table workspace id) workspace) := by
  induction loaded generalizing names uploads workspace with
  | nil => exact ⟨uploads, by simpa [SourceTable.namesOf] using hcontains⟩
  | cons number rest ih =>
    obtain ⟨⟨source, hsource⟩, hrest⟩ := List.forall_mem_cons.mp hloaded
    obtain ⟨written, hwritten⟩ := ih (hcontains.addSource hsource) hrest
    refine ⟨written, ?_⟩
    rw [List.append_assoc, List.singleton_append] at hwritten
    rw [List.map_cons, SourceTable.namesOf, List.filterMap_cons, hsource]
    exact hwritten

/-- Every document is a file that has been read, and its name tells what has been read out of it. -/
theorem source_of_mem_stored (hcontains : Contains settings table names uploads workspace)
    {document : Document} (hmem : document ∈ workspace.corpus.stored) :
    ∃ source ∈ table.sources, source.name ∈ names ∧ document.filename = source.name ∧
      document.content = source.content := by
  have hupload : document.upload ∈ uploads :=
    hcontains.holds.coherent.uploads ▸ List.mem_map_of_mem hmem
  obtain ⟨source, hsource, hname, hsame⟩ := hcontains.sound _ hupload
  have hfilename : document.source.name = source.name := congrArg Upload.filename hsame
  have htext : document.source.text = source.text := congrArg Upload.text hsame
  have hextension : document.extension = (Path.extension? source.name).getD "" :=
    congrArg Upload.extension hsame
  have hread : document.source = source := by
    obtain ⟨name, text⟩ := source
    rw [← show document.source.name = name from hfilename,
      ← show document.source.text = text from htext]
  refine ⟨source, List.mem_of_getElem? hsource, hname, hfilename, ?_⟩
  rw [hcontains.holds.coherent.content document hmem, hread, hextension]
  rfl

/-- Every file that should be there is a document. -/
theorem document_of_name (hcontains : Contains settings table names uploads workspace) {name : String}
    (hname : name ∈ names) : ∃ document, workspace.corpus.documentNamed? name = some document ∧
      ∃ source ∈ table.sources, source.name = name ∧ document.content = source.content := by
  obtain ⟨upload, hupload, hfilename⟩ := hcontains.complete name hname
  rw [← hcontains.holds.coherent.uploads] at hupload
  obtain ⟨document, hmem, rfl⟩ := List.mem_map.mp hupload
  obtain ⟨source, hsource, _, hfound, hcontent⟩ := hcontains.source_of_mem_stored hmem
  exact ⟨document, hcontains.holds.coherent.documentNamed?_eq_some_iff.mpr ⟨hmem, hfilename⟩, source,
    hsource, hfound.symm.trans hfilename, hcontent⟩

/-- A name is undeclared if no file declares it, whatever was written last. -/
theorem latest?_eq_none_iff (hcontains : Contains settings table names uploads workspace)
    (hreads : table.Reads tree) {name : String} {family : Option HostLanguage} :
    workspace.corpus.index.latest? name family = none ↔ ∀ source ∈ table.sources,
      source.name ∈ names → ¬ source.content.Declares name family := by
  rw [hcontains.holds.coherent.latest?_eq_none_iff]
  simp only [Document.declarations_eq_nil_iff]
  constructor
  · intro hnone source hsource hname
    obtain ⟨document, hdocument, found, hfound, hsame, hcontent⟩ := hcontains.document_of_name hname
    obtain rfl := hreads.eq_of_name hreads hfound hsource hsame
    exact hcontent ▸ hnone document (hcontains.holds.mem_stored_of_documentNamed? hdocument)
  · intro hnone document hmem
    obtain ⟨source, hsource, hname, _, hcontent⟩ := hcontains.source_of_mem_stored hmem
    exact hcontent ▸ hnone source hsource hname

variable {other : SourceTable} {others : List String} {uploads' : List Upload}
  {workspace' : Workspace}

/-- What no file declares, none of fewer files declares. -/
theorem latest?_of_subset (hcontains : Contains settings table names uploads workspace)
    (hother : Contains settings other others uploads' workspace') (hreads : table.Reads tree)
    (hreadsOther : other.Reads tree) (hsubset : others ⊆ names) {name : String}
    {family : Option HostLanguage} (hnone : workspace.corpus.index.latest? name family = none) :
    workspace'.corpus.index.latest? name family = none := by
  rw [hcontains.latest?_eq_none_iff hreads] at hnone
  refine (hother.latest?_eq_none_iff hreadsOther).mpr fun source hsource hname => ?_
  obtain ⟨_, _, found, hfound, hsame, _⟩ := hcontains.document_of_name (hsubset hname)
  obtain rfl := hreads.eq_of_name hreadsOther hfound hsource hsame
  exact hnone found hfound (hsubset hname)

/-- What is undefined in a file depends on which files are there, and not on their numbers or the
    order of the writes. -/
theorem undefined?_congr (hcontains : Contains settings table names uploads workspace)
    (hother : Contains settings other others uploads' workspace') (hreads : table.Reads tree)
    (hreadsOther : other.Reads tree) (hsubset : names ⊆ others) (hsubset' : others ⊆ names)
    {name : String} (hname : name ∈ names) :
    (workspace.undefined? name).1 = (workspace'.undefined? name).1 := by
  obtain ⟨document, hdocument, source, hsource, hsourceName, hcontent⟩ :=
    hcontains.document_of_name hname
  obtain ⟨document', hdocument', source', hsource', hsourceName', hcontent'⟩ :=
    hother.document_of_name (hsubset hname)
  obtain rfl := hreads.eq_of_name hreadsOther hsource hsource' (hsourceName.trans hsourceName'.symm)
  have hidentifiers : (workspace.corpus.resolve document).identifiers =
      (workspace'.corpus.resolve document').identifiers := by
    unfold Corpus.resolve
    rw [hcontent, hcontent', hcontains.holds.coherent.family, hother.holds.coherent.family]
    cases source.content with
    | program language identifiers => rfl
    | template outline =>
      exact Analysis.identifiers_congr (fun name =>
        ⟨hcontains.latest?_of_subset hother hreads hreadsOther hsubset',
          hother.latest?_of_subset hcontains hreadsOther hreads hsubset⟩) outline
  rw [Workspace.undefined?, Workspace.undefined?,
    (hcontains.holds.ask (fun _ => hcontains.holds.mem_stored_of_documentNamed?) _).1,
    (hother.holds.ask (fun _ => hother.holds.mem_stored_of_documentNamed?) _).1, hdocument,
    hdocument', Option.bind_some, Option.bind_some, hidentifiers]

end Contains

end Checker

end TemplateAnalysis
